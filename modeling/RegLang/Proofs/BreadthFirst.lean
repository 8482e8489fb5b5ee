import RegLang.Proofs.Canonical
/-!
# Breadth-first order

An exploration appends to what it has seen the successors that are new, each once.  Everything about
its order follows from that: what takes fewer steps comes first, and if the items come out in
ascending order then it does not matter whether the successors of an item were sorted before.

* `pairwise_explore`: an item is listed before those that take more steps.
* `explore_eq_of_ascending`: sorting the successors keeps an ascending order.
* `Graph.reachable_compact`, `Graph.reachable_trim`: compacted and trimmed graphs are numbered
  breadth first.
* `Graph.exists_path_le`: in such a graph no place is further away than a larger one.
-/

namespace RegLang

variable {α : Type}

/-! ## Steps -/

/-- At most `n` successor steps lead from a start item to an item. -/
def Within (succ : α → List α) (starts : List α) : Nat → α → Prop
  | 0, x => x ∈ starts
  | n + 1, x => Within succ starts n x ∨ ∃ p, Within succ starts n p ∧ x ∈ succ p

variable {succ succ' : α → List α} {starts : List α} {x y : α} {n : Nat}

theorem Within.mono (h : Within succ starts n x) : Within succ starts (n + 1) x := .inl h

theorem Within.step (h : Within succ starts n x) (hy : y ∈ succ x) :
    Within succ starts (n + 1) y := .inr ⟨x, h, hy⟩

theorem Within.of_mem (h : x ∈ starts) (n : Nat) : Within succ starts n x := by
  induction n with
  | zero => exact h
  | succ n ih => exact ih.mono

/-- The first item takes no more steps than the second. -/
def NoLater (succ : α → List α) (starts : List α) (x y : α) : Prop :=
  ∀ n, Within succ starts n y → Within succ starts n x

namespace Worklist

/-! ## Ordered by steps -/

/-- What was seen is what is done, followed by what waits, ordered by steps.  Successors of what is
done were seen, and what was seen is a start item or a successor of what is done. -/
structure Levelled (succ : α → List α) (starts done : List α) (w : Worklist α) : Prop where
  seen_eq : w.seen.reverse = done ++ w.queue
  closed : ∀ p ∈ done, ∀ x ∈ succ p, x ∈ w.seen
  start : ∀ x ∈ starts, x ∈ w.seen
  origin : ∀ x ∈ w.seen, x ∈ starts ∨ ∃ p ∈ done, x ∈ succ p
  order : w.seen.reverse.Pairwise (NoLater succ starts)

variable {done queue seen : List α}

theorem Levelled.mem_seen {w : Worklist α} (h : Levelled succ starts done w) :
    x ∈ w.seen ↔ x ∈ done ∨ x ∈ w.queue := by
  rw [← List.mem_reverse, h.seen_eq, List.mem_append]

/-- What was not seen takes a step more than the next item. -/
theorem Levelled.within_head (h : Levelled succ starts done ⟨x :: queue, seen⟩) (hy : y ∉ seen)
    (hn : Within succ starts n y) : ∃ m, n = m + 1 ∧ Within succ starts m x := by
  induction n generalizing y with
  | zero => exact absurd (h.start y hn) hy
  | succ n ih =>
    refine ⟨n, rfl, ?_⟩
    rcases hn with hn | ⟨p, hp, hyp⟩
    · obtain ⟨m, rfl, hm⟩ := ih hy hn
      exact hm.mono
    · by_cases hps : p ∈ seen
      · rcases h.mem_seen.1 hps with hd | hq
        · exact absurd (h.closed p hd y hyp) hy
        · rcases List.mem_cons.1 hq with rfl | hq
          · exact hp
          · have horder := h.order
            rw [h.seen_eq, List.pairwise_append] at horder
            exact (List.pairwise_cons.1 horder.2.1).1 p hq n hp
      · obtain ⟨m, rfl, hm⟩ := ih hps hp
        exact hm.mono

/-- What was seen takes at most a step more than the next item. -/
theorem Levelled.within_succ (h : Levelled succ starts done ⟨x :: queue, seen⟩) (hy : y ∈ seen)
    (hn : Within succ starts n x) : Within succ starts (n + 1) y := by
  have horder := h.order
  rw [h.seen_eq, List.pairwise_append] at horder
  rcases h.origin y hy with hs | ⟨p, hp, hyp⟩
  · exact .of_mem hs _
  · exact (horder.2.2 p hp x List.mem_cons_self n hn).step hyp

variable [DecidableEq α]

/-! ## What is new -/

theorem eraseDups_sublist (xs : List α) : xs.eraseDups.Sublist xs := by
  induction h : xs.length using Nat.strongRecOn generalizing xs with
  | _ n ih =>
    cases xs with
    | nil => exact List.Sublist.refl _
    | cons x xs =>
      have hlen := List.length_filter_le (fun y => !y == x) xs
      rw [List.length_cons] at h
      rw [List.eraseDups_cons]
      exact ((ih _ (by omega) _ rfl).trans List.filter_sublist).cons_cons x

/-- The items of a list that were not seen before, once each. -/
def fresh (w : Worklist α) (xs : List α) : List α := (xs.filter fun x => !w.wasSeen x).eraseDups

theorem mem_fresh {w : Worklist α} {xs : List α} : x ∈ w.fresh xs ↔ x ∈ xs ∧ x ∉ w.seen := by
  simp [fresh, wasSeen]

/-- Offering a list lets wait what is new in it. -/
theorem offerAll_eq (w : Worklist α) (xs : List α) :
    w.offerAll xs = ⟨w.queue ++ w.fresh xs, (w.fresh xs).reverse ++ w.seen⟩ := by
  induction xs generalizing w with
  | nil => simp [offerAll, fresh]
  | cons x xs ih =>
    show (w.offer x).offerAll xs = _
    by_cases hx : x ∈ w.seen
    · have hoffer : w.offer x = w := if_pos (wasSeen_iff.2 hx)
      have hfresh : w.fresh (x :: xs) = w.fresh xs := by
        simp [fresh, wasSeen, hx]
      rw [hoffer, hfresh, ih]
    · have hoffer : w.offer x = ⟨w.queue ++ [x], x :: w.seen⟩ :=
        if_neg fun h => hx (wasSeen_iff.1 h)
      have hfresh : w.fresh (x :: xs) = x :: fresh ⟨w.queue ++ [x], x :: w.seen⟩ xs := by
        unfold fresh
        rw [List.filter_cons_of_pos (by simp [wasSeen, hx]), List.eraseDups_cons,
          List.filter_filter]
        congr 2
        apply List.filter_congr
        intro y _
        simp [wasSeen, beq_eq_decide]
      rw [hoffer, hfresh, ih]
      simp

/-! ## The order of discovery -/

/-- Taking the next item and offering its successors keeps the order. -/
theorem Levelled.step (h : Levelled succ starts done ⟨x :: queue, seen⟩) :
    Levelled succ starts (done ++ [x]) (offerAll ⟨queue, seen⟩ (succ x)) := by
  have hseen : seen.reverse = done ++ x :: queue := h.seen_eq
  have hx : x ∈ seen := h.mem_seen.2 (.inr List.mem_cons_self)
  have hfresh : ∀ y, y ∈ fresh ⟨queue, seen⟩ (succ x) ↔ y ∈ succ x ∧ y ∉ seen := fun y => mem_fresh
  rw [offerAll_eq]
  refine ⟨?_, ?_, ?_, ?_, ?_⟩
  · simp [hseen]
  · intro p hp y hy
    by_cases hys : y ∈ seen
    · exact List.mem_append_right _ hys
    · rcases List.mem_append.1 hp with hp | hp
      · exact absurd (h.closed p hp y hy) hys
      · rw [List.mem_singleton.1 hp] at hy
        exact List.mem_append_left _ (List.mem_reverse.2 ((hfresh y).2 ⟨hy, hys⟩))
  · exact fun y hy => List.mem_append_right _ (h.start y hy)
  · intro y hy
    rcases List.mem_append.1 hy with hy | hy
    · have hyx := ((hfresh y).1 (List.mem_reverse.1 hy)).1
      exact .inr ⟨x, List.mem_append_right _ (List.mem_singleton_self x), hyx⟩
    · exact (h.origin y hy).imp_right fun ⟨p, hp, hyp⟩ => ⟨p, List.mem_append_left _ hp, hyp⟩
  · rw [List.reverse_append, List.reverse_reverse, List.pairwise_append]
    refine ⟨h.order, ?_, ?_⟩
    · apply List.pairwise_of_forall_mem_list
      intro y hy z hz n hn
      obtain ⟨m, rfl, hm⟩ := h.within_head ((hfresh z).1 hz).2 hn
      exact hm.step ((hfresh y).1 hy).1
    · intro y hy z hz n hn
      obtain ⟨m, rfl, hm⟩ := h.within_head ((hfresh z).1 hz).2 hn
      exact h.within_succ (List.mem_reverse.1 hy) hm

theorem Levelled.drain {w : Worklist α} (h : Levelled succ starts done w) (fuel : Nat) :
    ∃ done', Levelled succ starts done' (w.drain succ fuel) := by
  induction fuel generalizing w done with
  | zero => exact ⟨done, h⟩
  | succ fuel ih =>
    obtain ⟨queue, seen⟩ := w
    cases queue with
    | nil => exact ⟨done, h⟩
    | cons x queue => exact ih h.step

theorem levelled_start (starts : List α) :
    Levelled succ starts [] (({} : Worklist α).offerAll starts) := by
  have hmem : ∀ x, x ∈ (({} : Worklist α).offerAll starts).seen ↔ x ∈ starts := fun x =>
    mem_seen_start
  refine ⟨?_, nofun, fun x hx => (hmem x).2 hx, fun x hx => .inl ((hmem x).1 hx), ?_⟩
  · rw [offerAll_eq]
    simp
  · apply List.pairwise_of_forall_mem_list
    intro x hx y _ n _
    exact .of_mem ((hmem x).1 (List.mem_reverse.1 hx)) n

/-! ## Ascending order -/

/-- The worklist has seen its items in ascending order. -/
def Ascends (w : Worklist Nat) : Prop := w.seen.reverse.Pairwise (· < ·)

variable {f f' : Nat → List Nat}

theorem Ascends.of_drain {w : Worklist Nat} {fuel : Nat} (h : (w.drain f fuel).Ascends) :
    w.Ascends := by
  obtain ⟨l, hl⟩ := exists_seen_drain f fuel w
  unfold Ascends at h
  rw [hl, List.reverse_append] at h
  exact (List.pairwise_append.1 h).1

/-- Ascending items are new in the same order if they are sorted before. -/
theorem Ascends.offerAll_eq {w : Worklist Nat} {xs ys : List Nat} (h : (w.offerAll xs).Ascends)
    (hmem : ∀ y, y ∈ ys ↔ y ∈ xs) (hys : ys.Pairwise (· ≤ ·)) : w.offerAll ys = w.offerAll xs := by
  have hfresh : w.fresh ys = w.fresh xs := by
    have hxs : (w.fresh xs).Pairwise (· ≤ ·) := by
      unfold Ascends at h
      rw [Worklist.offerAll_eq, List.reverse_append, List.reverse_reverse] at h
      exact (List.pairwise_append.1 h).2.1.imp Nat.le_of_lt
    have hys' : (w.fresh ys).Pairwise (· ≤ ·) :=
      (hys.sublist List.filter_sublist).sublist (eraseDups_sublist _)
    have hperm : (w.fresh ys).Perm (w.fresh xs) := by
      apply (List.perm_ext_iff_of_nodup (nodup_eraseDups _) (nodup_eraseDups _)).2
      intro y
      rw [← fresh, ← fresh, mem_fresh, mem_fresh, hmem]
    exact hperm.eq_of_pairwise (fun _ _ _ _ => Nat.le_antisymm) hys' hxs
  rw [Worklist.offerAll_eq, Worklist.offerAll_eq, hfresh]

theorem drain_eq_of_ascends {w : Worklist Nat} {fuel : Nat} (h : (w.drain f fuel).Ascends)
    (hmem : ∀ x ∈ (w.drain f fuel).seen, ∀ y, y ∈ f' x ↔ y ∈ f x)
    (hsorted : ∀ x ∈ (w.drain f fuel).seen, (f' x).Pairwise (· ≤ ·)) (hw : w.queue ⊆ w.seen) :
    w.drain f' fuel = w.drain f fuel := by
  induction fuel generalizing w with
  | zero => rfl
  | succ fuel ih =>
    obtain ⟨queue, seen⟩ := w
    cases queue with
    | nil => rfl
    | cons x queue =>
      have hx : x ∈ (drain f (fuel + 1) ⟨x :: queue, seen⟩).seen :=
        seen_subset_drain f (fuel + 1) _ (hw List.mem_cons_self)
      have hlater : ((offerAll ⟨queue, seen⟩ (f x)).drain f fuel).Ascends := h
      have hnext : offerAll ⟨queue, seen⟩ (f' x) = offerAll ⟨queue, seen⟩ (f x) :=
        hlater.of_drain.offerAll_eq (hmem x hx) (hsorted x hx)
      show (offerAll ⟨queue, seen⟩ (f' x)).drain f' fuel = (offerAll ⟨queue, seen⟩ (f x)).drain f fuel
      rw [hnext]
      refine ih h hmem hsorted fun y hy => ?_
      rw [Worklist.offerAll_eq] at hy ⊢
      rcases List.mem_append.1 hy with hy | hy
      · exact List.mem_append_right _ (hw (List.mem_cons_of_mem x hy))
      · exact List.mem_append_left _ (List.mem_reverse.2 hy)

end Worklist

/-! ## Explorations -/

section Explore

variable [DecidableEq α]

/-- An item is listed before those that take more steps. -/
theorem pairwise_explore (succ : α → List α) (fuel : Nat) (starts : List α) :
    (explore succ fuel starts).Pairwise (NoLater succ starts) := by
  have hstart : Worklist.Levelled succ starts [] (({} : Worklist α).offerAll starts) :=
    Worklist.levelled_start starts
  obtain ⟨done, h⟩ := hstart.drain fuel
  exact h.order

/-- If items come out in ascending order, so they do if the successors of each are sorted before. -/
theorem explore_eq_of_ascending {f f' : Nat → List Nat} {fuel : Nat} {starts : List Nat}
    (h : (explore f fuel starts).Pairwise (· < ·))
    (hmem : ∀ x ∈ explore f fuel starts, ∀ y, y ∈ f' x ↔ y ∈ f x)
    (hsorted : ∀ x ∈ explore f fuel starts, (f' x).Pairwise (· ≤ ·)) :
    explore f' fuel starts = explore f fuel starts := by
  have hw := (Worklist.split_start starts).mem_seen
  unfold explore
  rw [Worklist.drain_eq_of_ascends h (fun x hx => hmem x (List.mem_reverse.2 hx))
    (fun x hx => hsorted x (List.mem_reverse.2 hx)) fun x hx => (hw x).2 (.inr hx)]

end Explore

namespace Graph

variable {g : Graph} {p q : Nat} {w : Word}

/-! ## Graphs numbered breadth first -/

/-- A graph that stands for another state for state is explored in lockstep with it. -/
theorem reachable_eq_map {h : Graph} {f : Nat → Nat} (hi : h.initial = f g.initial)
    (inj : ∀ p q, g.IsReachable p → g.IsReachable q → f p = f q → p = q)
    (ht : ∀ q, g.IsReachable q → (h.state (f q)).targets = (g.state q).targets.map f) :
    h.reachable = g.reachable.map f := by
  have hstart : ∀ q ∈ [g.initial], g.IsReachable q := fun q hq =>
    List.mem_singleton.1 hq ▸ g.isReachable_initial
  have hlock := explore_map (fun q => (g.state q).targets) (fun q => (h.state q).targets) inj
    (fun p q hp hq => hp.target hq) (fun q hq => congrArg List.eraseDups (ht q hq))
    (max (g.edgeCount + 1) (h.edgeCount + 1)) hstart
  rw [List.map_singleton, ← hi] at hlock
  rw [reachable_eq_explore (Nat.le_max_right (g.edgeCount + 1) _), hlock,
    ← reachable_eq_explore (Nat.le_max_left _ _)]

theorem targets_mapTargets (s : State) (f : Nat → Nat) :
    (s.mapTargets f).targets = s.targets.map f := by
  simp [State.targets, State.mapTargets]

theorem reachable_compact (g : Graph) : g.compact.reachable = List.range g.compact.size := by
  have hmem : ∀ q, g.IsReachable q → q ∈ g.reachable := fun q hq => mem_reachable_iff.2 hq
  rw [reachable_eq_map (f := g.reachable.idxOf) (g.initial_compact.trans g.idxOf_initial.symm)
    (fun p q hp _ he => (List.idxOf_inj (hmem p hp)).1 he)
    (fun q hq => by rw [state_compact hq, targets_mapTargets]),
    map_idxOf_of_nodup g.nodup_reachable, size_compact]

/-- Reducing keeps the order in which states are found, if that is ascending. -/
theorem reachable_reduce (h : g.reachable.Pairwise (· < ·)) : g.reduce.reachable = g.reachable := by
  have hg := g.reachable_eq_explore (Nat.le_max_left _ (g.reduce.edgeCount + 1))
  have hr := g.reduce.reachable_eq_explore (Nat.le_max_right (g.edgeCount + 1) _)
  have hreach : ∀ q ∈ explore (fun q => (g.state q).targets)
      (max (g.edgeCount + 1) (g.reduce.edgeCount + 1)) [g.initial], g.IsReachable q := by
    intro q hq
    rw [← hg] at hq
    exact mem_reachable_iff.1 hq
  rw [hr, hg]
  rw [hg] at h
  apply explore_eq_of_ascending h
  · intro q hq p
    rw [state_reduce (hreach q hq)]
    constructor
    · intro hp
      obtain ⟨c, hc⟩ := State.exists_mem_stepAll hp
      exact targets_of_mem_stepAll (State.mem_stepAll_reduce.1 hc)
    · intro hp
      obtain ⟨c, hc⟩ := State.exists_mem_stepAll hp
      obtain ⟨t, ht, _, rfl⟩ := State.mem_stepAll.1 (State.mem_stepAll_reduce.2 hc)
      exact State.mem_targets.2 ⟨t, ht, rfl⟩
  · intro q hq
    rw [state_reduce (hreach q hq)]
    apply List.pairwise_map.2
    apply (State.normal_reduce _).imp
    intro t u htu
    unfold Transition.Apart at htu
    omega

theorem reachable_trim (g : Graph) : g.trim.reachable = List.range g.trim.size := by
  have h := reachable_compact g.prune
  rw [trim_eq, reachable_reduce (h ▸ List.pairwise_lt_range), h, size_reduce]

/-! ## Distances -/

/-- The words that lead to a place are as many steps long as the place takes. -/
theorem within_iff : Within (fun q => (g.state q).targets) [g.initial] n q ↔
    ∃ w : Word, w.length ≤ n ∧ g.Path g.initial w q := by
  induction n generalizing q with
  | zero =>
    simp only [Within, List.mem_singleton, Nat.le_zero_eq, List.length_eq_zero_iff,
      exists_eq_left, path_nil_iff]
    exact eq_comm
  | succ n ih =>
    simp only [Within, ih]
    constructor
    · rintro (⟨w, hw, hp⟩ | ⟨p, ⟨w, hw, hp⟩, hq⟩)
      · exact ⟨w, by omega, hp⟩
      · obtain ⟨c, hc⟩ := State.exists_mem_stepAll hq
        refine ⟨w ++ [c], by simpa using hw, path_append_iff.2 ⟨p, hp, ?_⟩⟩
        exact path_cons_iff.2 ⟨q, hc, .nil q⟩
    · rintro ⟨w, hw, hp⟩
      rcases List.eq_nil_or_concat w with rfl | ⟨v, c, rfl⟩
      · exact .inl ⟨[], Nat.zero_le n, hp⟩
      · rw [List.concat_eq_append] at hw hp
        obtain ⟨p, hv, hc⟩ := path_append_iff.1 hp
        obtain ⟨r, hr, hrq⟩ := path_cons_iff.1 hc
        rw [path_nil_iff] at hrq
        subst hrq
        rw [List.length_append, List.length_singleton] at hw
        exact .inr ⟨p, ⟨v, by omega, hv⟩, targets_of_mem_stepAll hr⟩

/-- In a graph that is numbered breadth first no place is further away than a larger one. -/
theorem exists_path_le (h : g.reachable = List.range g.size) {p q : Nat} (hpq : p ≤ q)
    (hq : q < g.size) (hw : g.Path g.initial w q) :
    ∃ v : Word, v.length ≤ w.length ∧ g.Path g.initial v p := by
  rcases Nat.lt_or_eq_of_le hpq with hlt | rfl
  · have horder := pairwise_explore (fun q => (g.state q).targets) (g.edgeCount + 1) [g.initial]
    have hrel := List.pairwise_iff_getElem.1 (show g.reachable.Pairwise _ from horder) p q
      (by rw [h, List.length_range]; omega) (by rw [h, List.length_range]; omega) hlt
    simp only [h, List.getElem_range] at hrel
    exact within_iff.1 (hrel w.length (within_iff.2 ⟨w, Nat.le_refl _, hw⟩))
  · exact ⟨w, Nat.le_refl _, hw⟩

end Graph

end RegLang
