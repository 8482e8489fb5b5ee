import RegLang.Semantics.Discovery
/-!
# Explorations side by side

An exploration with enough fuel ends with an empty queue, so more fuel changes nothing.  Two
explorations whose successors correspond under an injective map run in lockstep; only the order in
which new items are met first counts, not how often they are met again.

    explore succ' n (starts.map f) = (explore succ n starts).map f      (explore_map)
-/

namespace RegLang

variable {α β : Type} [DecidableEq α] [DecidableEq β]

namespace Worklist

/-! ## Fuel -/

theorem drain_of_queue_eq_nil (succ : α → List α) (n : Nat) {w : Worklist α} (h : w.queue = []) :
    w.drain succ n = w := by
  obtain ⟨queue, seen⟩ := w
  replace h : queue = [] := h
  subst h
  cases n <;> rfl

theorem drain_add (succ : α → List α) (m n : Nat) (w : Worklist α) :
    w.drain succ (m + n) = (w.drain succ m).drain succ n := by
  induction m generalizing w with
  | zero => rw [Nat.zero_add]; rfl
  | succ m ih =>
    obtain ⟨queue, seen⟩ := w
    cases queue with
    | nil => rw [drain_of_queue_eq_nil _ _ rfl, drain_of_queue_eq_nil _ _ rfl,
        drain_of_queue_eq_nil _ _ rfl]
    | cons x queue =>
      rw [Nat.add_right_comm]
      exact ih _

/-- With as much fuel as there are items left in a closed list nothing waits in the end. -/
theorem queue_drain_eq_nil {succ : α → List α} {all : List α} (hall : ∀ x ∈ all, succ x ⊆ all)
    (fuel : Nat) {w : Worklist α} {done : List α} (hw : Split done w) (hs : w.seen ⊆ all)
    (hf : all.length ≤ done.length + fuel) : (w.drain succ fuel).queue = [] := by
  induction fuel generalizing w done with
  | zero =>
    have hsub : done ++ w.queue ⊆ all := fun x hx =>
      hs ((hw.mem_seen x).2 (List.mem_append.1 hx))
    have hlen := (hw.nodup.subperm hsub).length_le
    rw [List.length_append] at hlen
    exact List.eq_nil_of_length_eq_zero (show w.queue.length = 0 by omega)
  | succ fuel ih =>
    obtain ⟨queue, seen⟩ := w
    match queue, hw with
    | [], _ => rfl
    | x :: queue, hw =>
      have hx : x ∈ seen := (hw.mem_seen x).2 (.inr List.mem_cons_self)
      refine ih (hw.take.offerAll (succ x)) ?_ ?_
      · intro y hy
        rcases mem_offerAll.1 hy with hy | hy
        · exact hall x (hs hx) hy
        · exact hs hy
      · rw [List.length_append, List.length_singleton]
        omega

/-- What was seen first stays first. -/
theorem exists_seen_drain (succ : α → List α) (fuel : Nat) (w : Worklist α) :
    ∃ l, (w.drain succ fuel).seen = l ++ w.seen := by
  have hoffer : ∀ (xs : List α) (w : Worklist α), ∃ l, (w.offerAll xs).seen = l ++ w.seen := by
    intro xs
    induction xs with
    | nil => exact fun w => ⟨[], rfl⟩
    | cons x xs ih =>
      intro w
      obtain ⟨l, hl⟩ := ih (w.offer x)
      have hx : ∃ k, (w.offer x).seen = k ++ w.seen := by
        unfold offer
        split
        · exact ⟨[], rfl⟩
        · exact ⟨[x], rfl⟩
      obtain ⟨k, hk⟩ := hx
      exact ⟨l ++ k, by rw [List.append_assoc, ← hk]; exact hl⟩
  induction fuel generalizing w with
  | zero => exact ⟨[], rfl⟩
  | succ fuel ih =>
    obtain ⟨queue, seen⟩ := w
    cases queue with
    | nil => exact ⟨[], rfl⟩
    | cons x queue =>
      obtain ⟨k, hk⟩ := hoffer (succ x) ⟨queue, seen⟩
      obtain ⟨l, hl⟩ := ih (offerAll ⟨queue, seen⟩ (succ x))
      exact ⟨l ++ k, by rw [List.append_assoc, ← hk]; exact hl⟩

/-! ## Lockstep -/

/-- The worklist with every item replaced by its image. -/
def map (f : α → β) (w : Worklist α) : Worklist β := ⟨w.queue.map f, w.seen.map f⟩

theorem offer_map {f : α → β} {w : Worklist α} {x : α}
    (inj : ∀ y ∈ w.seen, f y = f x → y = x) : (w.map f).offer (f x) = (w.offer x).map f := by
  by_cases hx : x ∈ w.seen
  · have h1 : w.offer x = w := if_pos (wasSeen_iff.2 hx)
    have h2 : (w.map f).offer (f x) = w.map f :=
      if_pos (wasSeen_iff.2 (List.mem_map_of_mem hx))
    rw [h1, h2]
  · have h1 : w.offer x = ⟨w.queue ++ [x], x :: w.seen⟩ := if_neg fun h => hx (wasSeen_iff.1 h)
    have hfx : f x ∉ (w.map f).seen := by
      intro h
      obtain ⟨y, hy, he⟩ := List.mem_map.1 h
      exact hx (inj y hy he ▸ hy)
    have h2 : (w.map f).offer (f x) = ⟨(w.map f).queue ++ [f x], f x :: (w.map f).seen⟩ :=
      if_neg fun h => hfx (wasSeen_iff.1 h)
    rw [h1, h2]
    simp [map]

theorem offerAll_map {f : α → β} {P : α → Prop}
    (inj : ∀ x y, P x → P y → f x = f y → x = y) {xs : List α} (hxs : ∀ x ∈ xs, P x)
    {w : Worklist α} (hw : ∀ x ∈ w.seen, P x) :
    (w.map f).offerAll (xs.map f) = (w.offerAll xs).map f := by
  induction xs generalizing w with
  | nil => rfl
  | cons x xs ih =>
    have hx : P x := hxs x List.mem_cons_self
    show ((w.map f).offer (f x)).offerAll (xs.map f) = ((w.offer x).offerAll xs).map f
    rw [offer_map fun y hy he => inj y x (hw y hy) hx he]
    apply ih fun y hy => hxs y (List.mem_cons_of_mem _ hy)
    intro y hy
    rcases mem_offer.1 hy with rfl | hy
    · exact hx
    · exact hw y hy

theorem offerAll_filter_of_seen {x : α} (xs : List α) {w : Worklist α} (hx : x ∈ w.seen) :
    w.offerAll (xs.filter fun y => !y == x) = w.offerAll xs := by
  induction xs generalizing w with
  | nil => rfl
  | cons y ys ih =>
    by_cases hy : y = x
    · subst hy
      have h : w.offer y = w := if_pos (wasSeen_iff.2 hx)
      rw [List.filter_cons_of_neg (by simp), ih hx]
      show _ = (w.offer y).offerAll ys
      rw [h]
    · rw [List.filter_cons_of_pos (by simpa using hy)]
      show (w.offer y).offerAll _ = (w.offer y).offerAll ys
      exact ih (mem_offer.2 (.inr hx))

/-- Only the first occurrence of an item counts. -/
theorem offerAll_eraseDups (xs : List α) (w : Worklist α) :
    w.offerAll xs.eraseDups = w.offerAll xs := by
  induction h : xs.length using Nat.strongRecOn generalizing xs w with
  | _ n ih =>
    cases xs with
    | nil => rfl
    | cons x xs =>
      have hlen := List.length_filter_le (fun y => !y == x) xs
      rw [List.length_cons] at h
      rw [List.eraseDups_cons]
      show (w.offer x).offerAll _ = (w.offer x).offerAll xs
      rw [ih _ (by omega) _ _ rfl]
      exact offerAll_filter_of_seen xs (mem_offer.2 (.inl rfl))

theorem drain_map {f : α → β} {P : α → Prop} {succ : α → List α} {succ' : β → List β}
    (inj : ∀ x y, P x → P y → f x = f y → x = y) (closed : ∀ x y, P x → y ∈ succ x → P y)
    (firsts : ∀ x, P x → (succ' (f x)).eraseDups = ((succ x).map f).eraseDups)
    (fuel : Nat) {w : Worklist α} {done : List α} (hw : Split done w) (hs : ∀ x ∈ w.seen, P x) :
    (w.map f).drain succ' fuel = (w.drain succ fuel).map f := by
  induction fuel generalizing w done with
  | zero => rfl
  | succ fuel ih =>
    obtain ⟨queue, seen⟩ := w
    cases queue with
    | nil => rfl
    | cons x queue =>
      have hx : P x := hs x ((hw.mem_seen x).2 (.inr List.mem_cons_self))
      have hoffer : (map f ⟨queue, seen⟩).offerAll (succ' (f x)) =
          (offerAll ⟨queue, seen⟩ (succ x)).map f := by
        rw [← offerAll_eraseDups, firsts x hx, offerAll_eraseDups]
        exact offerAll_map inj (fun y hy => closed x y hx hy) hs
      show ((map f ⟨queue, seen⟩).offerAll (succ' (f x))).drain succ' fuel = _
      rw [hoffer]
      apply ih (hw.take.offerAll (succ x))
      intro y hy
      rcases mem_offerAll.1 hy with hy | hy
      · exact closed x y hx hy
      · exact hs y hy

end Worklist

/-- What exploration finds does not depend on the fuel, once that is enough. -/
theorem explore_eq_of_le {succ : α → List α} {starts all : List α} {m n : Nat}
    (hs : starts ⊆ all) (hc : ∀ x ∈ all, succ x ⊆ all) (hm : all.length ≤ m) (hmn : m ≤ n) :
    explore succ n starts = explore succ m starts := by
  obtain ⟨k, rfl⟩ := Nat.exists_eq_add_of_le hmn
  have hq := Worklist.queue_drain_eq_nil hc m (Worklist.split_start starts)
    (fun y hy => hs (Worklist.mem_seen_start.1 hy)) (by simpa using hm)
  unfold explore
  rw [Worklist.drain_add, Worklist.drain_of_queue_eq_nil _ _ hq]

/-- A single start item is found first. -/
theorem exists_explore_eq_cons (succ : α → List α) (fuel : Nat) (s : α) :
    ∃ l, explore succ fuel [s] = s :: l := by
  obtain ⟨l, hl⟩ := Worklist.exists_seen_drain succ fuel (({} : Worklist α).offerAll [s])
  refine ⟨l.reverse, ?_⟩
  unfold explore
  rw [hl, List.reverse_append]
  rfl

/-- Explorations in lockstep. -/
theorem explore_map {f : α → β} {P : α → Prop} (succ : α → List α) (succ' : β → List β)
    (inj : ∀ x y, P x → P y → f x = f y → x = y) (closed : ∀ x y, P x → y ∈ succ x → P y)
    (firsts : ∀ x, P x → (succ' (f x)).eraseDups = ((succ x).map f).eraseDups)
    (fuel : Nat) {starts : List α} (hs : ∀ x ∈ starts, P x) :
    explore succ' fuel (starts.map f) = (explore succ fuel starts).map f := by
  have hstart : ({} : Worklist β).offerAll (starts.map f) =
      (({} : Worklist α).offerAll starts).map f :=
    Worklist.offerAll_map (w := {}) inj hs fun x hx => by cases hx
  unfold explore
  rw [hstart, Worklist.drain_map inj closed firsts fuel (Worklist.split_start starts) fun x hx =>
    hs x (Worklist.mem_seen_start.1 hx)]
  exact List.map_reverse.symm

theorem nodup_eraseDups (xs : List α) : xs.eraseDups.Nodup := by
  induction h : xs.length using Nat.strongRecOn generalizing xs with
  | _ n ih =>
    cases xs with
    | nil => exact List.nodup_nil
    | cons x xs =>
      have hlen := List.length_filter_le (fun y => !y == x) xs
      rw [List.length_cons] at h
      rw [List.eraseDups_cons]
      apply List.nodup_cons.2 ⟨?_, ih _ (by omega) _ rfl⟩
      rw [List.mem_eraseDups, List.mem_filter]
      simp

/-- The places of distinct items in their own list. -/
theorem map_idxOf_of_nodup {xs : List α} (h : xs.Nodup) :
    xs.map (xs.idxOf ·) = List.range xs.length := by
  apply List.ext_getElem
  · simp
  · intro i h1 h2
    rw [List.getElem_map, List.getElem_range]
    exact h.idxOf_getElem i (by simpa using h1)

end RegLang
