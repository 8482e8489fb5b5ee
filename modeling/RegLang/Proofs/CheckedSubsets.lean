import RegLang.Checked.Subsets
import RegLang.Proofs.CheckedGraphs
import RegLang.Proofs.Reversal
/-!
# Subset constructions with checks that succeed

Every set that is met has its members in the arena, so stepping from it finds room in a set of the
same capacity, and what the rows lead to is among the discovered items.  The new initial state of a
reversed graph is in the enlarged arena, and so is all that it absorbs.

* `unfold_eq`: graphs of discovered items.
* `determinize_eq`, `reverseDeterminize_eq`: graphs of sets of states.
-/

namespace RegLang.Checked

open Table

section Items

variable {α : Type} [DecidableEq α] {P : α → Prop} {acceptM : α → Except Fault Bool}
  {accept : α → Bool} {rowM : α → Except Fault (List (Char × Char × α))}
  {row : α → List (Char × Char × α)} {items : List α} {fuel : Nat} {start x : α}

/-! ## Discovered items -/

theorem placeIn_eq (hx : x ∈ items) : placeIn items x = .ok (items.idxOf x) := by
  have hplace : items.idxOf? x = some (items.idxOf x) :=
    List.findIdx?_eq_some_iff_findIdx_eq.2 ⟨List.idxOf_lt_length_of_mem hx, rfl⟩
  rw [placeIn, hplace]

theorem stateOf_eq (haccept : acceptM x = .ok (accept x)) (hrow : rowM x = .ok (row x))
    (hlisted : ∀ r ∈ row x, r.2.2 ∈ items) : stateOf acceptM rowM items x =
      .ok ⟨accept x, (row x).map fun r => Transition.between r.1 r.2.1 (items.idxOf r.2.2)⟩ := by
  have hts : ∀ r ∈ row x, (placeIn items r.2.2).map (Transition.between r.1 r.2.1) =
      .ok (Transition.between r.1 r.2.1 (items.idxOf r.2.2)) := by
    intro r hr
    rw [placeIn_eq (hlisted r hr)]
    rfl
  rw [stateOf, haccept, ok_bind, hrow, ok_bind]
  show ((row x).mapM (fun r => (placeIn items r.2.2).map (Transition.between r.1 r.2.1)) >>= _) = _
  rw [mapM_eq_ok hts]
  rfl

section Closed

variable (hstart : P start) (hrow : ∀ x, P x → rowM x = .ok (row x))
  (hclosed : ∀ x, P x → ∀ r ∈ row x, P r.2.2)

include hstart hclosed

theorem of_mem_discover (hx : x ∈ Graph.discover row fuel start) : P x := by
  refine (discovered_of_mem_explore hx).induct
    (fun x hx => List.mem_singleton.1 hx ▸ hstart) fun x y hx hy => ?_
  obtain ⟨r, hr, rfl⟩ := List.mem_map.1 hy
  exact hclosed x hx r hr

include hrow

theorem discover_eq : discover rowM fuel start = .ok (Graph.discover row fuel start) := by
  refine Tour.visit_listed_eq P (fun x hx => by rw [hrow x hx]; rfl) (fun x hx y hy => ?_)
    fun x hx => List.mem_singleton.1 hx ▸ hstart
  obtain ⟨r, hr, rfl⟩ := List.mem_map.1 hy
  exact hclosed x hx r hr

variable (haccept : ∀ x, P x → acceptM x = .ok (accept x))
  (hunder : Graph.ClosedUnder row (Graph.discover row fuel start))

include haccept hunder

theorem ofItems_eq : ofItems acceptM rowM (Graph.discover row fuel start) =
    .ok (Graph.ofItems accept row (Graph.discover row fuel start)) := by
  have hP : ∀ x ∈ Graph.discover row fuel start, P x := fun x => of_mem_discover hstart hclosed
  have hstates : (Graph.discover row fuel start).mapM
      (stateOf acceptM rowM (Graph.discover row fuel start)) = .ok _ :=
    mapM_eq_ok fun x hx => stateOf_eq (haccept x (hP x hx)) (hrow x (hP x hx)) (hunder x hx)
  rw [ofItems, hstates]
  rfl

/-- Items with a property that rows keep are unfolded as they are without checks. -/
theorem unfold_eq : unfold acceptM rowM fuel start = .ok (Graph.unfold accept row fuel start) := by
  rw [unfold, discover_eq hstart hrow hclosed, ok_bind]
  exact ofItems_eq hstart hrow hclosed haccept hunder

end Closed

end Items

variable {g : Graph} {p q : Nat} {s : StateSet} {xs : List Nat}

/-! ## Sets of states -/

theorem acceptsAny_eq (hs : ∀ q ∈ s.toList, q < g.size) : acceptsAny g s = .ok (g.acceptsAny s) :=
  anyM_eq_ok fun q hq => look_eq (hs q hq) _

theorem subsetRow_eq (hg : g.WellFormed) (classes : List (Char × Char))
    (hs : ∀ q ∈ s.toList, q < g.size) :
    subsetRow g classes s = .ok (g.subsetRow classes s) := by
  have hsets : classes.mapM (fun k => (g.advance s k.1).map fun t => (k.1, k.2, t)) =
      .ok (classes.map fun k => (k.1, k.2, g.move s.toList k.1)) := by
    refine mapM_eq_ok fun k _ => ?_
    rw [Graph.advance_eq_move hg k.1 hs]
    rfl
  have hrow : (classes.map fun k => (k.1, k.2, g.move s.toList k.1)).filter
      (fun r => !r.2.2.isEmpty) = g.subsetRow classes s := by
    unfold Graph.subsetRow
    rw [← List.filterMap_eq_filter, List.filterMap_map]
    refine congrArg (List.filterMap · classes) (funext fun k => ?_)
    cases h : (g.move s.toList k.1).isEmpty <;> simp [Option.guard, h]
  rw [subsetRow, hsets, ok_bind, hrow]
  rfl

/-- The sets of states in the arena. -/
theorem surveyed_arena (hg : g.WellFormed) : ∀ ms : List Nat, (∀ q ∈ ms, q < g.size) → ∀ c,
    ∀ q ∈ (g.move ms c).toList, q < g.size := by
  intro ms hms c q hq
  obtain ⟨p, hp, hq⟩ := (Graph.mem_toList_move fun p hp r hr =>
    hg.lt_of_mem_stepAll (hms p hp) hr).1 hq
  exact hg.lt_of_mem_stepAll (hms p hp) hq

theorem subsetConstruction_eq (hg : g.WellFormed) (hxs : ∀ q ∈ xs, q < g.size) :
    subsetConstruction g (.ofList g.size xs) =
      .ok (g.subsetConstruction (.ofList g.size xs)) := by
  have hunder : Graph.ClosedUnder (g.subsetRow (Graph.classes g.startPoints))
      (Graph.discover (g.subsetRow (Graph.classes g.startPoints))
        (1 <<< (StateSet.ofList g.size xs).capacity) (.ofList g.size xs)) :=
    Graph.closedUnder_discover (StateSet.ofList_mem_all _ _) (Graph.closedUnder_subsetRow g _)
      (Graph.length_all_le _ _)
  have hunfold := unfold_eq (P := fun s : StateSet => ∀ q ∈ s.toList, q < g.size)
    (fun q hq => hxs q (StateSet.mem_toList_ofList.1 hq).1)
    (fun s hs => subsetRow_eq hg (Graph.classes g.startPoints) hs)
    (fun s hs r hr => by
      obtain ⟨k, _, _, rfl⟩ := Graph.mem_subsetRow.1 hr
      exact surveyed_arena hg _ hs _) (fun s hs => acceptsAny_eq hs) hunder
  rw [subsetConstruction, startPoints_eq hg, ok_bind]
  dsimp only
  rw [hunfold, ok_bind, trim_eq]
  · rfl
  · exact Graph.wellFormed_ofItems hunder (Graph.nodup_discover _ _ _)
      (List.ne_nil_of_mem Graph.start_mem_discover)

theorem determinize_eq (hg : g.WellFormed) : determinize g = .ok g.determinize := by
  unfold determinize Graph.determinize
  by_cases hd : g.deterministic = true
  · rw [if_pos hd, if_pos hd]
    rfl
  · have hlt : g.initial < (StateSet.ofCapacity g.size).capacity :=
      Nat.lt_of_lt_of_le hg.initial_lt (StateSet.le_capacity_ofCapacity _)
    rw [if_neg hd, if_neg hd, StateSet.insert, if_pos hlt]
    have hstart : ∀ q ∈ [g.initial], q < g.size := fun q hq =>
      List.mem_singleton.1 hq ▸ hg.initial_lt
    have heq := subsetConstruction_eq hg hstart
    rw [StateSet.ofList, List.foldl_cons, List.foldl_nil] at heq
    exact heq

/-! ## Reversal -/

theorem returns_spec (hg : g.WellFormed) : Succeeds (returns g g.reachable) fun table =>
    ∀ q < g.size, table[q]? = some (g.incoming g.reachable q) := by
  have hedges : g.reachable.mapM
      (fun p => look g (·.transitions.map fun t => (t.target, t.retarget p)) p) =
        .ok (g.reachable.map fun p =>
          (g.state p).transitions.map fun t => (t.target, t.retarget p)) :=
    mapM_eq_ok fun p hp => look_eq (lt_of_mem_reachable hg hp) _
  have hlt : ∀ e ∈ g.reachable.flatMap (fun p =>
      (g.state p).transitions.map fun t => (t.target, t.retarget p)),
        e.1 < (Array.replicate g.size ([] : List Transition)).size := by
    intro e he
    obtain ⟨p, hp, he⟩ := List.mem_flatMap.1 he
    obtain ⟨t, ht, rfl⟩ := List.mem_map.1 he
    rw [Array.size_replicate]
    exact hg.target_lt p (lt_of_mem_reachable hg hp) t ht
  rw [returns, hedges, ok_bind, ← List.flatMap_def]
  refine (fileAll_spec hlt).mono fun table ⟨_, htable⟩ q hq => ?_
  rw [htable, Array.getElem?_replicate, if_pos hq, Option.map_some, List.nil_append, Graph.incoming,
    List.filter_flatMap, List.map_flatMap]
  refine congrArg some (List.flatMap_congr fun p _ => ?_)
  rw [List.filter_map, List.map_map]
  rfl

theorem reverse_eq (hg : g.WellFormed) : reverse g = .ok g.reverse := by
  have hlt := fun q => lt_of_mem_reachable (q := q) hg
  have hinitial := Graph.mem_reachable_iff.2 g.isReachable_initial
  refine Succeeds.eq_ok ?_
  rw [reverse, reachable_eq hg, ok_bind, acceptStates_eq hg, ok_bind]
  refine (returns_spec hg).bind fun table htable => ?_
  refine (changeAll_spec (f := fun q _ => ⟨false, g.incoming g.reachable q⟩) g.nodup_reachable
    (fun h hsize q hq => ?_) hlt).bind fun h ⟨hsize, hstate, hi, hd, hc⟩ => ?_
  · rw [turnAt, read_eq_ok (htable q (hlt q hq)), ok_bind, update_eq (hsize ▸ hlt q hq)]
  · have hturned : h.modify g.initial (fun s => { s with accept := true }) = g.turn := by
      refine Graph.ext_state ?_ (fun x hx => ?_) hi hd rfl
      · rw [Graph.size_modify, hsize, Graph.size_turn]
      · rw [Graph.size_modify, hsize] at hx
        rw [Graph.state_modify, hsize, hstate x hx, Graph.state_turn_of_lt hx]
        by_cases hxi : x = g.initial
        · simp [hxi, hinitial, hg.initial_lt]
        · simp [hxi]
    have hedges : ∀ e ∈ g.acceptStates.map (g.size, ·),
        e.1 < g.turn.addState.size ∧ e.2 < g.turn.addState.size := by
      intro e he
      obtain ⟨q, hq, rfl⟩ := List.mem_map.1 he
      have hq := hlt q (List.mem_filter.1 hq).1
      rw [Graph.size_addState, Graph.size_turn]
      exact ⟨by omega, by omega⟩
    rw [update_eq (hsize ▸ hg.initial_lt), ok_bind, hturned, absorbEdges_eq hedges, ok_bind,
      List.foldl_map]
    exact .pure rfl

theorem wellFormed_reverse (hg : g.WellFormed) : g.reverse.WellFormed where
  initial_lt := by
    rw [Graph.size_reverse]
    exact Nat.lt_succ_self _
  target_lt q hq t ht := by
    have hturn : ∀ x < g.size, ∀ t ∈ (g.turn.state x).transitions, t.target < g.size := by
      intro x hx t ht
      rw [Graph.state_turn_of_lt hx] at ht
      split at ht
      · obtain ⟨p, hp, u, -, -, rfl⟩ := Graph.mem_incoming.1 ht
        exact hg.lt_of_isReachable hp
      · exact hg.target_lt x hx t ht
    have hsize : g.size < g.turn.addState.size := by
      rw [Graph.size_addState, Graph.size_turn]
      omega
    have hnot : g.size ∉ g.acceptStates := fun h =>
      Nat.lt_irrefl _ (hg.lt_of_mem_acceptStates _ h)
    rw [Graph.size_reverse] at hq ⊢
    rw [Graph.reverse_eq, Graph.state_setDeterministic, Graph.state_setInitial] at ht
    by_cases hqs : q = g.size
    · rw [hqs, Graph.mem_transitions_absorbFrom hsize hnot, Graph.state_addState,
        Graph.state_of_not_lt (by rw [Graph.size_turn]; omega)] at ht
      rcases ht with ht | ⟨p, hp, ht⟩
      · exact absurd ht List.not_mem_nil
      · rw [Graph.state_addState] at ht
        exact Nat.lt_succ_of_lt (hturn p (hg.lt_of_mem_acceptStates p hp) t ht)
    · rw [Graph.state_absorbFrom_of_ne hqs, Graph.state_addState] at ht
      exact Nat.lt_succ_of_lt (hturn q (by omega) t ht)

theorem reverseDeterminize_eq (hg : g.WellFormed) :
    reverseDeterminize g = .ok g.reverseDeterminize := by
  have hlt : ∀ q ∈ g.acceptStates, q < g.reverse.size := by
    intro q hq
    rw [Graph.size_reverse]
    exact Nat.lt_succ_of_lt (hg.lt_of_mem_acceptStates q hq)
  rw [reverseDeterminize, acceptStates_eq hg, ok_bind, reverse_eq hg, ok_bind,
    StateSet.insertAll_of_lt fun q hq =>
      Nat.lt_of_lt_of_le (hlt q hq) (StateSet.le_capacity_ofCapacity _)]
  exact subsetConstruction_eq (wellFormed_reverse hg) hlt

end RegLang.Checked
