import RegLang.Proofs.Subsets
/-!
# Reversal

The reversed graph reads a word backwards: from a place it accepts the reversals of the words that
used to lead there.  Its start points take account of the live places, since each of them accepts
or is reached again from the new initial state.

* `acceptsFrom_reverse`: what a place accepts after reversal.
* `accepts_reverseDeterminize`: the reversed words, read deterministically.
* `eq_of_accepts_subsets`: reversing a deterministic graph makes sets that accept different words,
  which is why two reversals minimize.
-/

namespace RegLang.Graph

variable {g : Graph} {p q : Nat} {c : Char} {w : Word}

/-! ## Turned transitions -/

/-- The arena with the reachable transitions turned round. -/
def turn (g : Graph) : Graph :=
  { g with
    states := g.states.mapIdx fun q s =>
      if g.reachable.contains q then ⟨q = g.initial, g.incoming g.reachable q⟩ else s
    hashCode := none }

theorem reverse_eq (g : Graph) : g.reverse =
    ((g.turn.addState.absorbFrom g.size g.acceptStates).setInitial g.size).setDeterministic false :=
  rfl

@[simp] theorem size_turn (g : Graph) : g.turn.size = g.size := by
  simp [turn, size]

@[simp] theorem size_reverse (g : Graph) : g.reverse.size = g.size + 1 := by
  rw [reverse_eq, size_setDeterministic, size_setInitial, size_absorbFrom, size_addState, size_turn]

theorem state_turn_of_lt (hq : q < g.size) : g.turn.state q =
    if q ∈ g.reachable then ⟨q = g.initial, g.incoming g.reachable q⟩ else g.state q := by
  have hlt : q < g.states.size := hq
  simp [turn, state, Array.getD, hlt]

theorem state_turn (hg : g.WellFormed) (hq : g.IsReachable q) :
    g.turn.state q = ⟨q = g.initial, g.incoming g.reachable q⟩ := by
  rw [state_turn_of_lt (hg.lt_of_isReachable hq), if_pos (mem_reachable_iff.2 hq)]

theorem state_reverse (hg : g.WellFormed) (hq : g.IsReachable q) :
    g.reverse.state q = ⟨q = g.initial, g.incoming g.reachable q⟩ := by
  rw [reverse_eq, state_setDeterministic, state_setInitial,
    state_absorbFrom_of_ne (Nat.ne_of_lt (hg.lt_of_isReachable hq)), state_addState,
    state_turn hg hq]

theorem mem_incoming {t : Transition} : t ∈ g.incoming g.reachable q ↔
    ∃ p, g.IsReachable p ∧ ∃ u ∈ (g.state p).transitions, u.target = q ∧ u.retarget p = t := by
  simp only [incoming, List.mem_flatMap, List.mem_map, List.mem_filter, decide_eq_true_iff,
    mem_reachable_iff, and_assoc]

/-- A step back is a step that leads there. -/
theorem mem_stepAll_reverse (hg : g.WellFormed) (hq : g.IsReachable q) :
    p ∈ (g.reverse.state q).stepAll c ↔ g.IsReachable p ∧ q ∈ (g.state p).stepAll c := by
  rw [state_reverse hg hq, State.mem_stepAll, State.mem_stepAll]
  simp only [mem_incoming]
  constructor
  · rintro ⟨_, ⟨r, hr, u, hu, rfl, rfl⟩, hc, rfl⟩
    exact ⟨hr, u, hu, hc, rfl⟩
  · rintro ⟨hp, u, hu, hc, rfl⟩
    exact ⟨u.retarget p, ⟨p, hp, u, hu, rfl, rfl⟩, hc, rfl⟩

/-- A place accepts the reversals of the words that used to lead there. -/
theorem acceptsFrom_reverse (hg : g.WellFormed) (hq : g.IsReachable q) :
    g.reverse.AcceptsFrom q w ↔ g.Path g.initial w.reverse q := by
  induction w generalizing q with
  | nil =>
    rw [acceptsFrom_nil_iff, state_reverse hg hq, List.reverse_nil, path_nil_iff]
    exact decide_eq_true_iff.trans eq_comm
  | cons c w ih =>
    simp only [acceptsFrom_cons_iff, mem_stepAll_reverse hg hq, List.reverse_cons, path_append_iff]
    constructor
    · rintro ⟨p, ⟨hp, hc⟩, hw⟩
      exact ⟨p, (ih hp).1 hw, path_cons_iff.2 ⟨q, hc, .nil q⟩⟩
    · rintro ⟨p, hw, hc⟩
      obtain ⟨r, hr, hnil⟩ := path_cons_iff.1 hc
      obtain rfl := path_nil_iff.1 hnil
      have hp : g.IsReachable p := ⟨_, hw⟩
      exact ⟨p, ⟨hp, hr⟩, (ih hp).2 hw⟩

/-! ## The new initial state -/

theorem mem_transitions_initial_reverse (hg : g.WellFormed) (hq : q ∈ g.acceptStates)
    {t : Transition} (ht : t ∈ (g.reverse.state q).transitions) :
    t ∈ (g.reverse.state g.reverse.initial).transitions := by
  have hreach := (mem_acceptStates.1 hq).1
  have hsize : g.size < g.turn.addState.size := by
    rw [size_addState, size_turn]
    omega
  have hnot : g.size ∉ g.acceptStates := fun h =>
    Nat.lt_irrefl _ (hg.lt_of_mem_acceptStates _ h)
  rw [state_reverse hg hreach, ← state_turn hg hreach] at ht
  show t ∈ ((g.turn.addState.absorbFrom g.size g.acceptStates).state g.size).transitions
  rw [mem_transitions_absorbFrom hsize hnot]
  exact .inr ⟨q, hq, by rwa [state_addState]⟩

/-- A live place accepts, or the reversed graph gets there. -/
theorem isReachable_reverse (hg : g.WellFormed) (hq : g.IsLive q) :
    q ∈ g.acceptStates ∨ g.reverse.IsReachable q := by
  obtain ⟨hq, w, hw⟩ := hq
  induction w generalizing q with
  | nil => exact .inl (mem_acceptStates.2 ⟨hq, acceptsFrom_nil_iff.1 hw⟩)
  | cons c w ih =>
    obtain ⟨p, hp, hw⟩ := acceptsFrom_cons_iff.1 hw
    have hreach := hq.stepAll hp
    have hback : q ∈ (g.reverse.state p).stepAll c := (mem_stepAll_reverse hg hreach).2 ⟨hq, hp⟩
    rcases ih hreach hw with hacc | hrev
    · obtain ⟨t, ht, hc, rfl⟩ := State.mem_stepAll.1 hback
      refine .inr (g.reverse.isReachable_initial.stepAll (c := c) (State.mem_stepAll.2 ?_))
      exact ⟨t, mem_transitions_initial_reverse hg hacc ht, hc, rfl⟩
    · exact .inr (hrev.stepAll hback)

/-- The start points of the reversed graph take account of the live places. -/
theorem surveyed_reverse (hg : g.WellFormed) : Surveyed g.reverse g.IsLive where
  lt q hq := by
    rw [size_reverse]
    have hlt := hg.lt_of_isReachable hq.1
    omega
  closed p c q hp hq := by
    obtain ⟨hq, hpq⟩ := (mem_stepAll_reverse hg hp.1).1 hq
    obtain ⟨_, w, hw⟩ := hp
    exact ⟨hq, c :: w, acceptsFrom_cons_iff.2 ⟨p, hpq, hw⟩⟩
  cut q hq t ht c hc := by
    rcases isReachable_reverse hg hq with hacc | hrev
    · exact mem_startPoints g.reverse.isReachable_initial
        (mem_transitions_initial_reverse hg hacc ht) hc
    · exact mem_startPoints hrev ht hc

theorem isLive_of_mem_acceptStates (hq : q ∈ g.acceptStates) : g.IsLive q := by
  obtain ⟨hq, ha⟩ := mem_acceptStates.1 hq
  exact ⟨hq, [], acceptsFrom_nil_iff.2 ha⟩

/-! ## Reading backwards -/

/-- The sets of places that the reversed words lead to, before trimming. -/
abbrev reversedSubsets (g : Graph) : Graph := g.reverse.subsetGraph g.acceptStates

theorem reverseDeterminize_eq (g : Graph) : g.reverseDeterminize = g.reversedSubsets.trim := rfl

theorem accepts_reversedSubsets (hg : g.WellFormed) :
    g.reversedSubsets.Accepts w ↔ g.Accepts w.reverse := by
  rw [accepts_subsetGraph (surveyed_reverse hg) fun q hq => isLive_of_mem_acceptStates hq]
  constructor
  · rintro ⟨q, hq, hw⟩
    obtain ⟨hq, ha⟩ := mem_acceptStates.1 hq
    exact ⟨q, (acceptsFrom_reverse hg hq).1 hw, ha⟩
  · rintro ⟨q, hw, ha⟩
    have hq : g.IsReachable q := ⟨_, hw⟩
    exact ⟨q, mem_acceptStates.2 ⟨hq, ha⟩, (acceptsFrom_reverse hg hq).2 hw⟩

theorem accepts_reverseDeterminize (hg : g.WellFormed) :
    g.reverseDeterminize.Accepts w ↔ g.Accepts w.reverse := by
  rw [reverseDeterminize_eq, accepts_trim, accepts_reversedSubsets hg]

theorem isDeterministic_reverseDeterminize (g : Graph) :
    g.reverseDeterminize.IsDeterministic :=
  isDeterministic_subsetConstruction _ _

/-! ## Sets of a reversed deterministic graph -/

/-- The sets that are met have their members among the live places. -/
theorem mem_discover_subsets {P : Nat → Prop} (hP : Surveyed g P) {xs : List Nat}
    (hxs : ∀ q ∈ xs, P q) {fuel : Nat} {s : StateSet}
    (hs : s ∈ discover (g.subsetRow (classes g.startPoints)) fuel (.ofList g.size xs)) :
    s ∈ StateSet.all g.size ∧ ∀ q ∈ s.toList, P q := by
  refine (discovered_of_mem_explore hs).induct
    (P := fun s => s ∈ StateSet.all g.size ∧ ∀ q ∈ s.toList, P q) ?_ ?_
  · intro s hs
    rw [List.mem_singleton.1 hs]
    exact ⟨StateSet.ofList_mem_all _ _, fun q hq => hxs q (StateSet.mem_toList_ofList.1 hq).1⟩
  · rintro s t ⟨hall, hmem⟩ ht
    obtain ⟨r, hr, rfl⟩ := List.mem_map.1 ht
    obtain ⟨k, _, _, rfl⟩ := mem_subsetRow.1 hr
    exact ⟨StateSet.ofList_mem_all _ _, hP.of_mem_move hmem⟩

theorem eq_of_mem_all {n : Nat} {s t : StateSet} (hs : s ∈ StateSet.all n)
    (ht : t ∈ StateSet.all n) (h : ∀ q, q ∈ s.toList ↔ q ∈ t.toList) : s = t := by
  obtain ⟨xs, _, rfl⟩ := List.mem_map.1 hs
  obtain ⟨ys, _, rfl⟩ := List.mem_map.1 ht
  apply StateSet.ofList_eq_iff.2
  intro i hi
  have hmem := h i
  rw [StateSet.mem_toList_ofList, StateSet.mem_toList_ofList] at hmem
  simpa [hi] using hmem

/-- Sets of places of a reversed deterministic graph that accept the same words have the same
members: a member is told by any word that led there. -/
theorem eq_of_accepts_subsets (hg : g.WellFormed) (hd : g.IsDeterministic) {s t : StateSet}
    (hs : s ∈ StateSet.all g.reverse.size ∧ ∀ q ∈ s.toList, g.IsLive q)
    (ht : t ∈ StateSet.all g.reverse.size ∧ ∀ q ∈ t.toList, g.IsLive q)
    (h : ∀ w, g.reverse.subsets.Accepts s w ↔ g.reverse.subsets.Accepts t w) : s = t := by
  have hsub : ∀ {s t : StateSet}, (∀ q ∈ s.toList, g.IsLive q) → (∀ q ∈ t.toList, g.IsLive q) →
      (∀ w, g.reverse.subsets.Accepts s w → g.reverse.subsets.Accepts t w) →
      ∀ q ∈ s.toList, q ∈ t.toList := by
    intro s t hs ht h q hq
    obtain ⟨u, hu⟩ := (hs q hq).1
    have hw : g.reverse.AcceptsFrom q u.reverse := by
      rw [acceptsFrom_reverse hg (hs q hq).1, List.reverse_reverse]
      exact hu
    obtain ⟨p, hp, hw⟩ := (accepts_subsets (surveyed_reverse hg) ht).1
      (h _ ((accepts_subsets (surveyed_reverse hg) hs).2 ⟨q, hq, hw⟩))
    rw [acceptsFrom_reverse hg (ht p hp).1, List.reverse_reverse] at hw
    rw [hd.path_unique g.isReachable_initial hu hw]
    exact hp
  apply eq_of_mem_all hs.1 ht.1
  intro q
  exact ⟨hsub hs.2 ht.2 (fun w => (h w).1) q, hsub ht.2 hs.2 (fun w => (h w).2) q⟩

end RegLang.Graph
