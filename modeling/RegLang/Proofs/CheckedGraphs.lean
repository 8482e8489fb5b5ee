import RegLang.Checked.Graphs
import RegLang.Proofs.Linking
import RegLang.Proofs.Tours
/-!
# Graphs with checks that succeed

On a well-formed graph every place that is looked up is in the arena, every state that is met finds
room in the set of states, and every target has an entry in the tables.  So the functions with
checks succeed, and do what those without checks do.

* `reachable_eq_map`: a reachable state outside the arena is the only obstacle to the list of them.
* `reachable_eq`, `live_eq`, `startPoints_eq`: what is found out about a graph.
* `compact_eq`, `totalize_eq`, `trim_eq`: its normal forms.
-/

namespace RegLang

namespace Worklist

variable {α : Type} [DecidableEq α]

/-- Offering one item any number of times is offering it once. -/
theorem offerAll_of_all_eq {x : α} {ys : List α} (h : ∀ y ∈ ys, y = x) (w : Worklist α) :
    w.offerAll ys = if ys = [] then w else w.offer x := by
  induction ys generalizing w with
  | nil => rfl
  | cons y ys ih =>
    have hy : y = x := h y List.mem_cons_self
    rw [offerAll, List.foldl_cons, hy, if_neg (List.cons_ne_nil _ _)]
    refine (ih (fun z hz => h z (List.mem_cons_of_mem y hz)) (w.offer x)).trans ?_
    split
    · rfl
    · exact if_pos (wasSeen_iff.2 (mem_offer.2 (.inl rfl)))

theorem drain_congr {succ succ' : α → List α}
    (h : ∀ x w, offerAll w (succ' x) = offerAll w (succ x)) (fuel : Nat) (w : Worklist α) :
    w.drain succ' fuel = w.drain succ fuel := by
  induction fuel generalizing w with
  | zero => rfl
  | succ fuel ih =>
    obtain ⟨queue, seen⟩ := w
    cases queue with
    | nil => rfl
    | cons x queue =>
      show (offerAll ⟨queue, seen⟩ (succ' x)).drain succ' fuel = _
      rw [h, ih]
      rfl

end Worklist

/-- Successors that offer the same items are as good. -/
theorem explore_congr {α : Type} [DecidableEq α] {succ succ' : α → List α}
    (h : ∀ x w, Worklist.offerAll w (succ' x) = Worklist.offerAll w (succ x)) (fuel : Nat)
    (starts : List α) : explore succ' fuel starts = explore succ fuel starts := by
  unfold explore
  rw [Worklist.drain_congr h]

namespace Checked

open Table

variable {α : Type} {g : Graph} {p q : Nat} {f : State → State} {places : List Nat}

/-! ## Places -/

theorem look_eq (hq : q < g.size) (f : State → α) : look g f q = .ok (f (g.state q)) := by
  rw [look, Graph.fetch_of_lt hq]
  rfl

theorem update_eq (hq : q < g.size) (f : State → State) : update g q f = .ok (g.modify q f) :=
  if_pos hq

theorem sortedTable_eq (g : Graph) :
    sortedTable g = .ok (g.states.map fun s => Transition.sortByLower s.transitions) := by
  rw [sortedTable, mapM_eq_ok fun q hq => look_eq (List.mem_range.1 hq) _]
  refine congrArg Except.ok (Array.ext (by simp [Graph.size]) fun q hq _ => ?_)
  have hq : q < g.states.size := by simpa [Graph.size] using hq
  simp [Graph.state, hq]

/-- States are changed at some places, one after the other. -/
theorem changeAll_spec {F : Graph → Nat → Except Fault Graph} {f : Nat → State → State}
    (hnodup : places.Nodup)
    (hF : ∀ h, h.size = g.size → ∀ q ∈ places, F h q = .ok (h.modify q (f q)))
    (hlt : ∀ q ∈ places, q < g.size) :
    Succeeds (places.foldlM F g) fun h => h.size = g.size ∧
      (∀ x < g.size, h.state x = if x ∈ places then f x (g.state x) else g.state x) ∧
        h.initial = g.initial ∧ h.deterministic = g.deterministic ∧
          (places ≠ [] → h.hashCode = none) := by
  refine succeeds_foldlM (I := fun (done : List Nat) (h : Graph) =>
    h.size = g.size ∧ (∀ x < g.size, h.state x = if x ∈ done then f x (g.state x) else g.state x) ∧
      h.initial = g.initial ∧ h.deterministic = g.deterministic ∧
        (done ≠ [] → h.hashCode = none)) ⟨rfl, by simp, rfl, rfl, fun hn => (hn rfl).elim⟩ ?_
  rintro done q hq hnew h ⟨hsize, hstate, hi, hd, -⟩
  have hnot : q ∉ done := hnew hnodup
  refine .of_eq (hF h hsize q hq) ⟨?_, fun x hx => ?_, hi, hd, fun _ => rfl⟩
  · rw [Graph.size_modify, hsize]
  · rw [Graph.state_modify, hsize, hstate x hx]
    by_cases hxq : x = q
    · simp [hxq, hnot, hlt q hq]
    · simp [hxq]

theorem updateAll_eq (hnodup : places.Nodup) (hlt : ∀ q ∈ places, q < g.size) (hne : places ≠ [])
    (f : State → State) : updateAll g places f = .ok (g.modifyAll places f) := by
  refine Succeeds.eq_ok ((changeAll_spec hnodup (f := fun _ => f) (fun h hsize q hq =>
    update_eq (hsize ▸ hlt q hq) f) hlt).mono fun h ⟨hsize, hstate, hi, hd, hc⟩ => ?_)
  refine Graph.ext_state ?_ (fun x hx => ?_) hi hd (hc hne)
  · rw [hsize, Graph.size_modifyAll]
  · rw [hstate x (hsize ▸ hx), Graph.state_modifyAll_of_lt (hsize ▸ hx)]

theorem absorb_eq (hp : p < g.size) (hq : q < g.size) : absorb g p q = .ok (g.absorb p q) := by
  rw [absorb, Graph.fetch_of_lt hq, ok_bind]
  exact update_eq hp _

theorem absorbInto_eq {ps : List Nat} (hps : ∀ p ∈ ps, p < g.size) (hq : q < g.size) :
    absorbInto g ps q = .ok (g.absorbInto ps q) :=
  (foldlM_eq_ok (I := fun h : Graph => h.size = g.size) rfl fun h hsize p hp =>
    ⟨absorb_eq (hsize ▸ hps p hp) (hsize ▸ hq), by rw [Graph.size_absorb, hsize]⟩).1

theorem absorbEdges_eq {pairs : List StatePair} (h : ∀ e ∈ pairs, e.1 < g.size ∧ e.2 < g.size) :
    absorbEdges g pairs = .ok (pairs.foldl (fun g p => g.absorb p.1 p.2) g) :=
  (foldlM_eq_ok (I := fun h : Graph => h.size = g.size) rfl fun k hsize e he =>
    ⟨absorb_eq (hsize ▸ (h e he).1) (hsize ▸ (h e he).2), by rw [Graph.size_absorb, hsize]⟩).1

/-! ## Reachable and live states -/

theorem look_unless (g : Graph) (f : State → α) (q : Nat) :
    SucceedsUnless .outOfRange (look g f q) (· = f (g.state q)) := by
  by_cases hq : q < g.size
  · exact .inr (.of_eq (look_eq hq f) rfl)
  · left
    rw [look, Graph.fetch_of_not_lt hq]
    rfl

theorem lt_of_look_eq_ok {f : State → α} {x : α} (h : look g f q = .ok x) : q < g.size := by
  by_contra hq
  rw [look, Graph.fetch_of_not_lt hq] at h
  cases h

/-- The reachable states are found unless one of them is outside the arena. -/
theorem reachable_eq_map (g : Graph) :
    reachable g = g.ensureIntact.map fun _ => g.reachable := by
  by_cases hintact : g.intact = true
  · have hlt := Graph.intact_iff.1 hintact
    rw [Graph.ensureIntact_of_intact hintact]
    refine Tour.visit_insert_eq hlt (fun q hq => look_eq (hlt q hq) _)
      (fun q hq p hp => hq.target hp) fun q hq => ?_
    rw [List.mem_singleton.1 hq]
    exact g.isReachable_initial
  · rw [Graph.ensureIntact, if_neg hintact]
    refine (Tour.visit_unless (Tour.keeps_insert _) (Tour.refuses_insert _)
      (Tour.holds_ofCapacity g.size) (look_unless g State.targets)
      (List.cons_subset_cons _ (List.nil_subset _)) (fun q _ => g.targets_subset_mentioned q)
      (Nat.le_of_eq g.length_mentioned)).resolve_right ?_
    rintro ⟨places, -, rfl, hfound⟩
    exact hintact (Graph.intact_iff.2 fun q hq =>
      lt_of_look_eq_ok (hfound q (Graph.mem_reachable_iff.2 hq)))

variable (hg : g.WellFormed)

include hg

theorem reachable_eq : reachable g = .ok g.reachable := by
  rw [reachable_eq_map, hg.ensureIntact]
  rfl

theorem lt_of_mem_reachable (hq : q ∈ g.reachable) : q < g.size :=
  hg.lt_of_isReachable (Graph.mem_reachable_iff.1 hq)

theorem acceptStates_eq : acceptStates g = .ok g.acceptStates := by
  rw [acceptStates, reachable_eq hg, ok_bind]
  exact filterM_eq_ok fun q hq => look_eq (lt_of_mem_reachable hg hq) _

omit hg in
/-- The reachable states that lead to a place, once for each transition. -/
def leadingTo (g : Graph) (q : Nat) : List Nat :=
  ((g.reachable.flatMap fun p => (g.state p).targets.map (·, p)).filter (·.1 = q)).map (·.2)

theorem origins_spec : Succeeds (origins g g.reachable) fun table =>
    ∀ q < g.size, table[q]? = some (leadingTo g q) := by
  have hedges : g.reachable.mapM (fun p => look g (·.targets.map (·, p)) p) =
      .ok (g.reachable.map fun p => (g.state p).targets.map (·, p)) :=
    mapM_eq_ok fun p hp => look_eq (lt_of_mem_reachable hg hp) _
  have hlt : ∀ e ∈ g.reachable.flatMap (fun p => (g.state p).targets.map (·, p)),
      e.1 < (Array.replicate g.size ([] : List Nat)).size := by
    intro e he
    obtain ⟨p, hp, he⟩ := List.mem_flatMap.1 he
    obtain ⟨q, hq, rfl⟩ := List.mem_map.1 he
    rw [Array.size_replicate]
    exact hg.lt_of_mem_targets (lt_of_mem_reachable hg hp) hq
  rw [origins, hedges, ok_bind, ← List.flatMap_def]
  refine (fileAll_spec hlt).mono fun table ⟨_, htable⟩ q hq => ?_
  rw [htable, Array.getElem?_replicate, if_pos hq]
  rfl

omit hg in
theorem mem_leadingTo : p ∈ leadingTo g q → p ∈ g.reachable := by
  intro h
  obtain ⟨e, he, rfl⟩ := List.mem_map.1 h
  obtain ⟨p, hp, he⟩ := List.mem_flatMap.1 (List.mem_filter.1 he).1
  obtain ⟨r, _, rfl⟩ := List.mem_map.1 he
  exact hp

omit hg in
/-- How often a state leads to a place does not count. -/
theorem offerAll_leadingTo (q : Nat) (w : Worklist Nat) :
    w.offerAll (leadingTo g q) = w.offerAll (g.predecessors g.reachable q) := by
  unfold leadingTo Graph.predecessors
  generalize g.reachable = places
  induction places generalizing w with
  | nil => rfl
  | cons p places ih =>
    rw [List.flatMap_cons, List.filter_append, List.map_append, Worklist.offerAll,
      List.foldl_append]
    refine (ih _).trans ?_
    have hall : ∀ r ∈ (((g.state p).targets.map (·, p)).filter (·.1 = q)).map (·.2), r = p := by
      intro r hr
      obtain ⟨e, he, rfl⟩ := List.mem_map.1 hr
      obtain ⟨s, _, rfl⟩ := List.mem_map.1 (List.mem_filter.1 he).1
      rfl
    have hhead := Worklist.offerAll_of_all_eq hall w
    rw [Worklist.offerAll] at hhead
    rw [hhead]
    by_cases hq : q ∈ (g.state p).targets
    · rw [List.filter_cons_of_pos (by simpa using hq), if_neg, Worklist.offerAll, Worklist.offerAll,
        List.foldl_cons]
      exact List.ne_nil_of_mem (a := p) (List.mem_map.2 ⟨(q, p), by simpa using hq, rfl⟩)
    · rw [List.filter_cons_of_neg (by simpa using hq), if_pos]
      refine List.map_eq_nil_iff.2 (List.filter_eq_nil_iff.2 fun e he heq => hq ?_)
      obtain ⟨r, hr, rfl⟩ := List.mem_map.1 he
      rwa [← of_decide_eq_true heq]

theorem live_eq : live g = .ok g.live := by
  refine Succeeds.eq_ok ?_
  rw [live, reachable_eq hg, ok_bind]
  refine (origins_spec hg).bind fun table htable => ?_
  have haccept : ∀ q ∈ g.acceptStates, q < g.size := fun q hq =>
    lt_of_mem_reachable hg (List.mem_filter.1 hq).1
  rw [acceptStates_eq hg, ok_bind, Tour.visit_insert_eq (fun _ => id)
    (fun q hq => read_eq_ok (htable q hq))
    (fun q _ p hp => lt_of_mem_reachable hg (mem_leadingTo hp)) haccept,
    explore_congr fun q w => offerAll_leadingTo q w]
  exact .pure rfl

theorem startPoints_eq : startPoints g = .ok g.startPoints := by
  have hpoints : g.reachable.mapM (look g (·.transitions.flatMap Graph.boundaries)) =
      .ok (g.reachable.map fun q => (g.state q).transitions.flatMap Graph.boundaries) :=
    mapM_eq_ok fun q hq => look_eq (lt_of_mem_reachable hg hq) _
  rw [startPoints, reachable_eq hg, ok_bind, hpoints, ok_bind, ← List.flatMap_def]
  rfl

theorem isEmpty_eq : isEmpty g = .ok g.isEmpty := by
  rw [isEmpty, live_eq hg]
  rfl

theorem acceptsOnlyEmptyWord_eq : acceptsOnlyEmptyWord g = .ok g.acceptsOnlyEmptyWord := by
  rw [acceptsOnlyEmptyWord, live_eq hg, ok_bind, look_eq hg.initial_lt]
  rfl

theorem loopsOnAny_eq : loopsOnAny g = .ok g.loopsOnAny := by
  unfold loopsOnAny Graph.loopsOnAny
  rw [Graph.fetch_of_lt hg.initial_lt, ok_bind]
  match (g.state g.initial).transitions with
  | [] => rfl
  | [_] => rfl
  | _ :: _ :: _ => rfl

/-! ## Normal forms -/

omit hg in
theorem reachable_ne_nil (g : Graph) : g.reachable ≠ [] := by
  obtain ⟨l, hl⟩ := g.exists_reachable_eq_cons
  rw [hl]
  exact List.cons_ne_nil _ _

theorem updateAll_reachable_eq (f : State → State) :
    updateAll g g.reachable f = .ok (g.modifyAll g.reachable f) :=
  updateAll_eq g.nodup_reachable (fun _ => lt_of_mem_reachable hg) (reachable_ne_nil g) f

theorem reduce_eq : reduce g = .ok g.reduce := by
  rw [reduce, reachable_eq hg, ok_bind]
  exact updateAll_reachable_eq hg _

omit hg in
theorem numbering_spec {n : Nat} {order : List Nat} (hnodup : order.Nodup)
    (hlt : ∀ q ∈ order, q < n) : Succeeds (numbering n order) fun numbers =>
      ∀ q ∈ order, numbers[q]? = some (order.idxOf q) := by
  refine (succeeds_foldlM (I := fun (done : List (Nat × Nat)) (numbers : Array Nat) =>
    numbers.size = n ∧ ∀ e ∈ done, order[e.2]? = some e.1 ∧ numbers[e.1]? = some e.2)
      ⟨by simp, by simp⟩ ?_).mono fun numbers ⟨_, hnumbers⟩ q hq => ?_
  · rintro done ⟨q, i⟩ hmem - numbers ⟨hsize, hnumbers⟩
    have hi : order[i]? = some q := List.mk_mem_zipIdx_iff_getElem?.1 hmem
    obtain ⟨hilt, -⟩ := List.getElem?_eq_some_iff.1 hi
    have hq : q < numbers.size := hsize ▸ hlt q (List.mem_of_getElem? hi)
    refine .of_eq (write_eq_ok hq i) ⟨by rw [Array.size_setIfInBounds, hsize], fun e he => ?_⟩
    rw [getElem?_write hq]
    rcases List.mem_append.1 he with he | he
    · obtain ⟨horder, hnumber⟩ := hnumbers e he
      refine ⟨horder, ?_⟩
      split
      · next heq => rw [(List.getElem?_inj hilt hnodup).1 (hi.trans (heq ▸ horder.symm))]
      · exact hnumber
    · rw [List.mem_singleton.1 he, if_pos rfl]
      exact ⟨hi, rfl⟩
  · refine (hnumbers (q, order.idxOf q) (List.mk_mem_zipIdx_iff_getElem?.2 ?_)).2
    have hlt := List.idxOf_lt_length_of_mem hq
    rw [List.getElem?_eq_getElem hlt, List.getElem_idxOf hlt]

omit hg in
theorem retarget_eq {number : Nat → Except Fault Nat} {s : State} {f : Nat → Nat}
    (h : ∀ t ∈ s.transitions, number t.target = .ok (f t.target)) :
    retarget number s = .ok (s.mapTargets f) := by
  have hts : s.transitions.mapM (fun t => (number t.target).map t.retarget) =
      .ok (s.transitions.map fun t => t.retarget (f t.target)) := by
    refine mapM_eq_ok fun t ht => ?_
    rw [h t ht]
    rfl
  rw [retarget, hts]
  rfl

theorem compact_eq : compact g = .ok g.compact := by
  refine Succeeds.eq_ok ?_
  rw [compact, reachable_eq hg, ok_bind]
  unfold Graph.compact
  by_cases h : g.reachable = List.range g.size
  · rw [if_pos h]
    dsimp only
    rw [if_pos h]
    exact .pure rfl
  · rw [if_neg h]
    dsimp only
    rw [if_neg h]
    refine (numbering_spec g.nodup_reachable fun _ => lt_of_mem_reachable hg).bind
      fun numbers hnumbers => ?_
    have hstates : g.reachable.mapM (fun q => do retarget (read numbers) (← g.fetch q)) =
        .ok (g.reachable.map fun q => (g.state q).mapTargets g.reachable.idxOf) := by
      refine mapM_eq_ok fun q hq => ?_
      rw [Graph.fetch_of_lt (lt_of_mem_reachable hg hq), ok_bind]
      refine retarget_eq fun t ht => read_eq_ok (hnumbers _ ?_)
      rw [Graph.mem_reachable_iff] at hq ⊢
      exact hq.target (State.mem_targets.2 ⟨t, ht, rfl⟩)
    rw [hstates]
    exact .pure rfl

theorem totalize_eq : totalize g = .ok g.totalize := by
  have hsink : g.size < g.addState.size := by
    rw [Graph.size_addState]
    omega
  have hlt : ∀ q ∈ g.reachable, q < (g.addState.modify g.size (·.push (.onAny g.size))).size := by
    intro q hq
    rw [Graph.size_modify]
    exact Nat.lt_trans (lt_of_mem_reachable hg hq) hsink
  rw [totalize, reachable_eq hg, ok_bind]
  dsimp only
  rw [update_eq hsink, ok_bind, updateAll_eq g.nodup_reachable hlt (reachable_ne_nil g)]
  refine congrArg Except.ok (Graph.ext_state ?_ (fun x hx => ?_) rfl rfl rfl)
  · rw [Graph.size_modifyAll, Graph.size_modify, Graph.size_addState, Graph.size_totalize]
  · rw [Graph.size_modifyAll] at hx
    rw [Graph.state_modifyAll_of_lt hx]
    by_cases hxs : x = g.size
    · subst hxs
      have hnot : g.size ∉ g.reachable := fun hm =>
        Nat.lt_irrefl _ (lt_of_mem_reachable hg hm)
      rw [if_neg hnot, Graph.state_modify, if_pos ⟨rfl, hsink⟩, Graph.state_totalize_sink,
        Graph.state_addState, Graph.state_of_not_lt (Nat.lt_irrefl _)]
      rfl
    · rw [Graph.size_modify, Graph.size_addState] at hx
      have hsame : (g.addState.modify g.size (·.push (.onAny g.size))).state x = g.state x := by
        rw [Graph.state_modify, if_neg fun h => hxs h.1, Graph.state_addState]
      rw [hsame, Graph.state_totalize_of_lt (by omega)]

omit hg in
/-- What is reachable depends on the reachable states alone. -/
theorem reachable_congr {h : Graph} (hi : h.initial = g.initial) {P : Nat → Prop} (hP : P g.initial)
    (hclosed : ∀ q, P q → ∀ p ∈ (g.state q).targets, P p)
    (hstate : ∀ q, P q → h.state q = g.state q) : h.reachable = g.reachable := by
  -- with fuel for both graphs
  have hfuel : ∀ (k : Graph) (n : Nat), k.edgeCount + 1 ≤ n →
      explore (fun q => (k.state q).targets) n [k.initial] = k.reachable := by
    intro k n hn
    have hstart : [k.initial] ⊆ k.mentioned := fun q hq => by
      rw [List.mem_singleton.1 hq]
      exact List.mem_cons_self
    exact explore_eq_of_le hstart (fun q _ => k.targets_subset_mentioned q)
      (Nat.le_of_eq k.length_mentioned) hn
  have hstart : ∀ q ∈ [g.initial], P q := fun q hq => by
    rw [List.mem_singleton.1 hq]
    exact hP
  have hmap := explore_map (f := id) (P := P) (fun q => (g.state q).targets)
    (fun q => (h.state q).targets) (fun _ _ _ _ he => he) (fun q p hq hp => hclosed q hq p hp)
    (fun q hq => by rw [List.map_id, id, hstate q hq]) (g.edgeCount + 1 + (h.edgeCount + 1)) hstart
  rw [List.map_id, List.map_id] at hmap
  rw [← hfuel h _ (Nat.le_add_left _ _), ← hfuel g _ (Nat.le_add_right _ _), hi, hmap]

omit hg in
/-- A compact graph depends on the reachable states alone. -/
theorem compact_congr {h : Graph} (hreach : h.reachable = g.reachable) (hsize : h.size = g.size)
    (hstate : ∀ q ∈ g.reachable, h.state q = g.state q) (hi : h.initial = g.initial)
    (hd : h.deterministic = g.deterministic) (hc : h.hashCode = g.hashCode) :
    h.compact = g.compact := by
  unfold Graph.compact
  rw [hreach, hsize, hd]
  by_cases hr : g.reachable = List.range g.size
  · dsimp only
    rw [if_pos hr, if_pos hr]
    refine Graph.ext_state hsize (fun q hq => hstate q ?_) hi hd hc
    rw [hr, List.mem_range]
    exact hsize ▸ hq
  · dsimp only
    rw [if_neg hr, if_neg hr, List.map_congr_left fun q hq => by rw [hstate q hq]]

omit hg in
theorem targets_restrict_subset (s : State) : (Graph.restrict places s).targets ⊆ s.targets := by
  intro p hp
  obtain ⟨t, ht, rfl⟩ := State.mem_targets.1 hp
  exact State.mem_targets.2 ⟨t, (List.mem_filter.1 ht).1, rfl⟩

/-- Pruning the reachable states alone is enough. -/
theorem compact_pruned : (g.modifyAll g.reachable (Graph.restrict g.live)).compact =
    g.prune.compact := by
  have hstate : ∀ q, g.IsReachable q →
      (g.modifyAll g.reachable (Graph.restrict g.live)).state q = g.prune.state q := by
    intro q hq
    rw [Graph.state_modifyAll_of_lt (hg.lt_of_isReachable hq),
      if_pos (Graph.mem_reachable_iff.2 hq), Graph.state_prune]
  have hsize : g.prune.size = g.size := by simp [Graph.prune, Graph.size]
  refine compact_congr ?_ (by rw [Graph.size_modifyAll, hsize])
    (fun q hq => hstate q (Graph.isReachable_of_prune (Graph.mem_reachable_iff.1 hq))) rfl rfl rfl
  refine reachable_congr rfl g.isReachable_initial (fun q hq p hp => hq.target ?_) hstate
  rw [Graph.state_prune] at hp
  exact targets_restrict_subset _ hp

/-- States may lose transitions. -/
theorem wellFormed_modifyAll (hf : ∀ s, (f s).transitions ⊆ s.transitions) :
    (g.modifyAll places f).WellFormed where
  initial_lt := by
    rw [Graph.size_modifyAll]
    exact hg.initial_lt
  target_lt q hq t ht := by
    rw [Graph.size_modifyAll] at hq ⊢
    rw [Graph.state_modifyAll_of_lt hq] at ht
    split at ht
    · exact hg.target_lt q hq t (hf _ ht)
    · exact hg.target_lt q hq t ht

theorem trim_eq : trim g = .ok g.trim := by
  rw [trim, live_eq hg, ok_bind, reachable_eq hg, ok_bind, updateAll_reachable_eq hg, ok_bind,
    compact_eq (wellFormed_modifyAll hg fun _ => List.filter_subset_self _), ok_bind,
    compact_pruned hg, reduce_eq (Graph.wellFormed_compact _)]
  rfl

end Checked

end RegLang
