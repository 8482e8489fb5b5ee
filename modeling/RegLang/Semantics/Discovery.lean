import Mathlib.Data.List.Perm.Subperm
import Mathlib.Logic.Relation
import RegLang.Worklist
/-!
# What exploration discovers

Exploration lists what the successor function leads to from the start items, and nothing else.
The fuel is enough as soon as it bounds the length of a list that holds the start items and is
closed under successors.

* `discovered_of_mem_explore`: with any fuel, what is listed can be reached.
* `mem_explore_iff`: with enough fuel, what can be reached is listed.
-/

namespace RegLang

variable {α : Type}

/-- Some number of successor steps leads from a start item to `x`. -/
def Discovered (succ : α → List α) (starts : List α) (x : α) : Prop :=
  ∃ s ∈ starts, Relation.ReflTransGen (fun x y => y ∈ succ x) s x

theorem Discovered.start {succ : α → List α} {starts : List α} {x : α} (h : x ∈ starts) :
    Discovered succ starts x :=
  ⟨x, h, .refl⟩

theorem Discovered.step {succ : α → List α} {starts : List α} {x y : α}
    (h : Discovered succ starts x) (hy : y ∈ succ x) : Discovered succ starts y := by
  obtain ⟨s, hs, hx⟩ := h
  exact ⟨s, hs, hx.tail hy⟩

/-- What holds the start items and is closed under successors holds all that is discovered. -/
theorem Discovered.induct {succ : α → List α} {starts : List α} {P : α → Prop} {x : α}
    (h : Discovered succ starts x) (hs : ∀ s ∈ starts, P s)
    (hc : ∀ x y, P x → y ∈ succ x → P y) : P x := by
  obtain ⟨s, hm, hx⟩ := h
  induction hx with
  | refl => exact hs s hm
  | tail _ hy ih => exact hc _ _ ih hy

namespace Worklist

/-- The items taken from the queue so far, `done`, and those that wait are together those that
were seen, each once. -/
structure Split (done : List α) (w : Worklist α) : Prop where
  nodup : (done ++ w.queue).Nodup
  mem_seen : ∀ x, x ∈ w.seen ↔ x ∈ done ∨ x ∈ w.queue

/-- Taking the next item moves it to the items that are done. -/
theorem Split.take {done : List α} {x : α} {queue seen : List α}
    (h : Split done ⟨x :: queue, seen⟩) : Split (done ++ [x]) ⟨queue, seen⟩ := by
  refine ⟨?_, fun y => ?_⟩
  · simpa using h.nodup
  · rw [h.mem_seen y]
    simp [or_assoc]

variable [DecidableEq α]

theorem mem_offerAll {xs : List α} {w : Worklist α} {y : α} :
    y ∈ (w.offerAll xs).seen ↔ y ∈ xs ∨ y ∈ w.seen := by
  induction xs generalizing w with
  | nil => simp [offerAll]
  | cons x xs ih =>
    rw [offerAll, List.foldl_cons]
    refine (ih (w := w.offer x)).trans ?_
    rw [mem_offer, List.mem_cons]
    tauto

theorem Split.offer {done : List α} {w : Worklist α} (h : Split done w) (x : α) :
    Split done (w.offer x) := by
  by_cases hx : x ∈ w.seen
  · have hw : w.offer x = w := if_pos (wasSeen_iff.2 hx)
    rwa [hw]
  · have hw : w.offer x = ⟨w.queue ++ [x], x :: w.seen⟩ :=
      if_neg fun hs => hx (wasSeen_iff.1 hs)
    rw [hw]
    refine ⟨?_, fun y => ?_⟩
    · rw [← List.append_assoc]
      refine List.nodup_append.2 ⟨h.nodup, by simp, ?_⟩
      intro a ha b hb hab
      rw [List.mem_singleton] at hb
      subst hb hab
      exact hx ((h.mem_seen a).2 (List.mem_append.1 ha))
    · simp only [List.mem_cons, h.mem_seen, List.mem_append, List.not_mem_nil, or_false]
      tauto

theorem Split.offerAll {done : List α} {w : Worklist α} (h : Split done w) (xs : List α) :
    Split done (w.offerAll xs) := by
  induction xs generalizing w with
  | nil => exact h
  | cons x xs ih => exact ih (h.offer x)

/-- Draining discovers nothing but successors of what was seen. -/
theorem seen_drain {succ : α → List α} {P : α → Prop} (hc : ∀ x y, P x → y ∈ succ x → P y)
    (fuel : Nat) {w : Worklist α} {done : List α} (hw : Split done w) (hs : ∀ x ∈ w.seen, P x) :
    ∀ x ∈ (w.drain succ fuel).seen, P x := by
  induction fuel generalizing w done with
  | zero => exact hs
  | succ fuel ih =>
    obtain ⟨queue, seen⟩ := w
    match queue, hw, hs with
    | [], _, hs => exact hs
    | x :: queue, hw, hs =>
      refine ih (hw.take.offerAll (succ x)) fun y hy => ?_
      rcases mem_offerAll.1 hy with hy | hy
      · exact hc x y (hs x ((hw.mem_seen x).2 (.inr (List.mem_cons_self)))) hy
      · exact hs y hy

/-- Draining with as much fuel as there are items left in a closed list sees all successors of
what it sees. -/
theorem closed_drain {succ : α → List α} {all : List α} (hall : ∀ x ∈ all, succ x ⊆ all)
    (fuel : Nat) {w : Worklist α} {done : List α} (hw : Split done w) (hs : w.seen ⊆ all)
    (hd : ∀ x ∈ done, succ x ⊆ w.seen) (hf : all.length ≤ done.length + fuel) :
    ∀ x ∈ (w.drain succ fuel).seen, succ x ⊆ (w.drain succ fuel).seen := by
  induction fuel generalizing w done with
  | zero =>
    have hsub : done ++ w.queue ⊆ all := fun x hx =>
      hs ((hw.mem_seen x).2 (List.mem_append.1 hx))
    have hlen := (hw.nodup.subperm hsub).length_le
    have hq : w.queue = [] := by
      rw [List.length_append] at hlen
      exact List.eq_nil_of_length_eq_zero (by omega)
    intro x hx
    rcases (hw.mem_seen x).1 hx with hx | hx
    · exact hd x hx
    · rw [hq] at hx
      cases hx
  | succ fuel ih =>
    obtain ⟨queue, seen⟩ := w
    match queue, hw with
    | [], hw =>
      intro x hx
      rcases (hw.mem_seen x).1 hx with hx | hx
      · exact hd x hx
      · cases hx
    | x :: queue, hw =>
      have hx : x ∈ seen := (hw.mem_seen x).2 (.inr List.mem_cons_self)
      refine ih (hw.take.offerAll (succ x)) ?_ ?_ ?_
      · intro y hy
        rcases mem_offerAll.1 hy with hy | hy
        · exact hall x (hs hx) hy
        · exact hs hy
      · intro y hy z hz
        refine mem_offerAll.2 ?_
        rcases List.mem_append.1 hy with hy | hy
        · exact .inr (hd y hy hz)
        · rw [List.mem_singleton] at hy
          subst hy
          exact .inl hz
      · rw [List.length_append, List.length_singleton]
        omega

/-- Draining forgets nothing. -/
theorem seen_subset_drain (succ : α → List α) (fuel : Nat) (w : Worklist α) :
    w.seen ⊆ (w.drain succ fuel).seen := by
  induction fuel generalizing w with
  | zero => exact fun _ h => h
  | succ fuel ih =>
    obtain ⟨queue, seen⟩ := w
    cases queue with
    | nil => exact fun _ h => h
    | cons x queue => exact fun y hy => ih _ (mem_offerAll.2 (.inr hy))

theorem split_start (starts : List α) : Split [] (({} : Worklist α).offerAll starts) :=
  Split.offerAll ⟨List.nodup_nil, fun _ => by simp⟩ starts

theorem mem_seen_start {starts : List α} {x : α} :
    x ∈ (({} : Worklist α).offerAll starts).seen ↔ x ∈ starts := by
  rw [mem_offerAll]
  simp

end Worklist

variable [DecidableEq α]

theorem discovered_of_mem_explore {succ : α → List α} {fuel : Nat} {starts : List α} {x : α}
    (h : x ∈ explore succ fuel starts) : Discovered succ starts x := by
  refine Worklist.seen_drain (P := Discovered succ starts) (fun _ _ hx hy => hx.step hy) fuel
    (Worklist.split_start starts) (fun y hy => .start (Worklist.mem_seen_start.1 hy)) x ?_
  exact List.mem_reverse.1 h

theorem mem_explore_of_mem {succ : α → List α} {fuel : Nat} {starts : List α} {x : α}
    (h : x ∈ starts) : x ∈ explore succ fuel starts :=
  List.mem_reverse.2 (Worklist.seen_subset_drain succ fuel _ (Worklist.mem_seen_start.2 h))

/-- With fuel for all items of a closed list, exploration finds exactly what can be reached. -/
theorem mem_explore_iff {succ : α → List α} {fuel : Nat} {starts all : List α} {x : α}
    (hs : starts ⊆ all) (hc : ∀ x ∈ all, succ x ⊆ all) (hf : all.length ≤ fuel) :
    x ∈ explore succ fuel starts ↔ Discovered succ starts x := by
  refine ⟨discovered_of_mem_explore, fun h => ?_⟩
  have hclosed := Worklist.closed_drain hc fuel (Worklist.split_start starts)
    (fun y hy => hs (Worklist.mem_seen_start.1 hy)) (fun y hy => by cases hy) (by simpa using hf)
  refine h.induct (fun s hm => mem_explore_of_mem hm) fun y z hy hz => ?_
  exact List.mem_reverse.2 (hclosed y (List.mem_reverse.1 hy) hz)

end RegLang
