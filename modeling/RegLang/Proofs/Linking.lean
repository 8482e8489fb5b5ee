import RegLang.Graph.Link
import RegLang.Proofs.NormalForms
/-!
# Linked states and joined arenas

What absorbing and appending do to the steps of a graph.  A state that absorbs another one steps
where either of them did; a graph keeps its steps when another arena is put behind it, and so does
the graph that is put there.

* `State.Passed`: what absorbing passes on, like a step or acceptance.
* `passed_absorbAlong`: states absorb along edges that are closed under chaining.
* `passed_absorbInto`, `passed_absorbFrom`: many states absorb one, and one absorbs many.
* `covers_append_left`, `covers_append_right`: both graphs live on in the joined arena.
-/

namespace RegLang

namespace State

variable {s t : State} {c : Char} {q : Nat}

/-- A state that absorbs another one has the property exactly if one of them had it. -/
def Passed (P : State → Prop) : Prop := ∀ s t : State, P (s.absorb t) ↔ P s ∨ P t

theorem passed_transition (u : Transition) : Passed fun s => u ∈ s.transitions := fun _ _ =>
  List.mem_append

theorem passed_step (c : Char) (q : Nat) : Passed fun s => q ∈ s.stepAll c := fun s t => by
  simp [absorb, stepAll]

theorem passed_accept : Passed fun s => s.accept = true := fun s t => by
  simp [absorb]

theorem accept_push (s : State) (u : Transition) : (s.push u).accept = s.accept := rfl

theorem mem_stepAll_push {u : Transition} :
    q ∈ (s.push u).stepAll c ↔ q ∈ s.stepAll c ∨ (u.contains c = true ∧ u.target = q) := by
  simp [push, mem_stepAll, or_and_right, exists_or]

theorem mapTargets_congr {f f' : Nat → Nat} (h : ∀ t ∈ s.transitions, f t.target = f' t.target) :
    s.mapTargets f = s.mapTargets f' := by
  unfold mapTargets
  rw [List.map_congr_left fun t ht => by rw [h t ht]]

end State

namespace Graph

variable {g h : Graph} {p q r x : Nat} {c : Char} {w : Word}

/-! ## States after a change -/

theorem state_modify (g : Graph) (q : Nat) (f : State → State) (x : Nat) :
    (g.modify q f).state x = if x = q ∧ q < g.size then f (g.state x) else g.state x := by
  rw [state_eq_getElem?, state_eq_getElem?]
  show (g.states.modify q f)[x]?.getD {} = _
  rw [Array.getElem?_modify]
  by_cases hx : q = x
  · subst hx
    rw [if_pos rfl]
    by_cases hq : q < g.size
    · have hq' : q < g.states.size := hq
      simp [hq, hq']
    · have hq' : ¬ q < g.states.size := hq
      simp [hq, hq']
  · rw [if_neg hx, if_neg fun h => hx h.1.symm]

@[simp] theorem state_addState (g : Graph) (x : Nat) : g.addState.state x = g.state x := by
  rw [state_eq_getElem?, state_eq_getElem?]
  show (g.states.push {})[x]?.getD {} = _
  rw [Array.getElem?_push]
  split
  · next hx =>
    subst hx
    simp
  · rfl

@[simp] theorem state_setInitial (g : Graph) (i x : Nat) : (g.setInitial i).state x = g.state x :=
  rfl

@[simp] theorem state_setDeterministic (g : Graph) (d : Bool) (x : Nat) :
    (g.setDeterministic d).state x = g.state x := rfl

theorem state_setAccept (g : Graph) (q : Nat) (b : Bool) (x : Nat) :
    (g.setAccept q b).state x =
      if x = q ∧ q < g.size then { g.state x with accept := b } else g.state x :=
  g.state_modify q _ x

theorem mem_stepAll_setAccept {b : Bool} :
    r ∈ ((g.setAccept q b).state x).stepAll c ↔ r ∈ (g.state x).stepAll c := by
  rw [state_setAccept]
  split <;> exact Iff.rfl

@[simp] theorem size_setAccept (g : Graph) (q : Nat) (b : Bool) : (g.setAccept q b).size = g.size :=
  size_modify _ _ _

@[simp] theorem size_setInitial (g : Graph) (i : Nat) : (g.setInitial i).size = g.size := rfl

@[simp] theorem initial_setDeterministic (g : Graph) (d : Bool) :
    (g.setDeterministic d).initial = g.initial := rfl

@[simp] theorem initial_addTransition (g : Graph) (q : Nat) (t : Transition) :
    (g.addTransition q t).initial = g.initial := rfl

@[simp] theorem size_setDeterministic (g : Graph) (d : Bool) :
    (g.setDeterministic d).size = g.size := rfl

theorem state_absorb_self (hp : p < g.size) :
    (g.absorb p q).state p = (g.state p).absorb (g.state q) := by
  rw [absorb, state_modify, if_pos ⟨rfl, hp⟩]

theorem state_absorb_of_ne (hx : x ≠ p) : (g.absorb p q).state x = g.state x := by
  rw [absorb, state_modify, if_neg fun h => hx h.1]

theorem passed_absorb {P : State → Prop} (hP : State.Passed P) (hp : p < g.size) :
    P ((g.absorb p q).state x) ↔ P (g.state x) ∨ (x = p ∧ P (g.state q)) := by
  by_cases hx : x = p
  · subst hx
    rw [state_absorb_self hp, hP]
    simp
  · rw [state_absorb_of_ne hx]
    simp [hx]

theorem mem_stepAll_absorb (hp : p < g.size) :
    r ∈ ((g.absorb p q).state x).stepAll c ↔
      r ∈ (g.state x).stepAll c ∨ (x = p ∧ r ∈ (g.state q).stepAll c) :=
  passed_absorb (State.passed_step c r) hp

theorem accept_absorb (hp : p < g.size) :
    ((g.absorb p q).state x).accept = true ↔
      (g.state x).accept = true ∨ (x = p ∧ (g.state q).accept = true) :=
  passed_absorb State.passed_accept hp

theorem WellFormed.absorb (hg : g.WellFormed) (hq : q < g.size) : (g.absorb p q).WellFormed where
  initial_lt := by
    rw [size_absorb]
    exact hg.initial_lt
  target_lt x hx t ht := by
    rw [size_absorb] at hx ⊢
    by_cases hxp : x = p
    · subst hxp
      rw [state_absorb_self hx] at ht
      rcases List.mem_append.1 ht with ht | ht
      · exact hg.target_lt x hx t ht
      · exact hg.target_lt q hq t ht
    · rw [state_absorb_of_ne hxp] at ht
      exact hg.target_lt x hx t ht

/-! ## States absorb along edges -/

/-- Along every edge of a list, in order, the first state absorbs the second. -/
def absorbAlong (g : Graph) (edges : List StatePair) : Graph :=
  edges.foldl (fun h e => h.absorb e.1 e.2) g

@[simp] theorem size_absorbAlong (g : Graph) (edges : List StatePair) :
    (g.absorbAlong edges).size = g.size := by
  induction edges generalizing g with
  | nil => rfl
  | cons e edges ih => exact (ih (g.absorb e.1 e.2)).trans (size_absorb g e.1 e.2)

@[simp] theorem initial_absorbAlong (g : Graph) (edges : List StatePair) :
    (g.absorbAlong edges).initial = g.initial := by
  induction edges generalizing g with
  | nil => rfl
  | cons e edges ih => exact ih (g.absorb e.1 e.2)

theorem WellFormed.absorbAlong (hg : g.WellFormed) {edges : List StatePair}
    (hedges : ∀ e ∈ edges, e.2 < g.size) : (g.absorbAlong edges).WellFormed := by
  induction edges generalizing g with
  | nil => exact hg
  | cons e edges ih =>
    obtain ⟨he, hedges⟩ := List.forall_mem_cons.1 hedges
    exact ih (hg.absorb he) fun e' he' => by
      rw [size_absorb]
      exact hedges e' he'

section

variable {P : State → Prop} {Q : Nat → Prop} {edges : List StatePair}

/-- Nothing is had afterwards but what edges carry back. -/
theorem of_passed_absorbAlong (hP : State.Passed P) (hlt : ∀ e ∈ edges, e.1 < g.size)
    (hstart : ∀ y, P (g.state y) → Q y) (hback : ∀ e ∈ edges, Q e.2 → Q e.1)
    (h : P ((g.absorbAlong edges).state x)) : Q x := by
  induction edges generalizing g with
  | nil => exact hstart x h
  | cons e edges ih =>
    obtain ⟨he, hlt⟩ := List.forall_mem_cons.1 hlt
    obtain ⟨hcarry, hback⟩ := List.forall_mem_cons.1 hback
    refine ih (fun e' he' => ?_) (fun y hy => ?_) hback h
    · rw [size_absorb]
      exact hlt e' he'
    · rcases (passed_absorb hP he).1 hy with hold | ⟨rfl, hnew⟩
      · exact hstart y hold
      · exact hcarry (hstart _ hnew)

/-- Nothing is lost. -/
theorem passed_absorbAlong_of_passed (hP : State.Passed P) (hlt : ∀ e ∈ edges, e.1 < g.size)
    (h : P (g.state x)) : P ((g.absorbAlong edges).state x) := by
  induction edges generalizing g with
  | nil => exact h
  | cons e edges ih =>
    obtain ⟨he, hlt⟩ := List.forall_mem_cons.1 hlt
    refine ih (fun e' he' => ?_) ((passed_absorb hP he).2 (.inl h))
    rw [size_absorb]
    exact hlt e' he'

/-- What the second state of an edge has, the first one has afterwards. -/
theorem passed_absorbAlong_of_mem (hP : State.Passed P) (hlt : ∀ e ∈ edges, e.1 < g.size)
    (hxy : (x, r) ∈ edges) (h : P (g.state r)) : P ((g.absorbAlong edges).state x) := by
  induction edges generalizing g with
  | nil => cases hxy
  | cons e edges ih =>
    obtain ⟨he, hlt⟩ := List.forall_mem_cons.1 hlt
    have hlt' : ∀ e' ∈ edges, e'.1 < (g.absorb e.1 e.2).size := fun e' he' => by
      rw [size_absorb]
      exact hlt e' he'
    rcases List.mem_cons.1 hxy with rfl | hxy
    · show P (((g.absorb x r).absorbAlong edges).state x)
      exact passed_absorbAlong_of_passed hP hlt' ((passed_absorb hP he).2 (.inr ⟨rfl, h⟩))
    · exact ih hlt' hxy ((passed_absorb hP he).2 (.inl h))

/-- Along edges that are closed under chaining the order does not count. -/
theorem passed_absorbAlong (hP : State.Passed P) (hlt : ∀ e ∈ edges, e.1 < g.size)
    (htrans : ∀ x y z, (x, y) ∈ edges → (y, z) ∈ edges → (x, z) ∈ edges) :
    P ((g.absorbAlong edges).state x) ↔ P (g.state x) ∨ ∃ y, (x, y) ∈ edges ∧ P (g.state y) := by
  constructor
  · apply of_passed_absorbAlong (Q := fun x => P (g.state x) ∨ ∃ y, (x, y) ∈ edges ∧ P (g.state y))
      hP hlt fun y hy => .inl hy
    rintro ⟨x, y⟩ hxy (hy | ⟨z, hyz, hz⟩)
    · exact .inr ⟨y, hxy, hy⟩
    · exact .inr ⟨z, htrans x y z hxy hyz, hz⟩
  · rintro (h | ⟨y, hxy, h⟩)
    · exact passed_absorbAlong_of_passed hP hlt h
    · exact passed_absorbAlong_of_mem hP hlt hxy h

end

/-! ## Many states absorb one -/

theorem absorbInto_eq (g : Graph) (ps : List Nat) (q : Nat) :
    g.absorbInto ps q = g.absorbAlong (ps.map (·, q)) := by
  unfold absorbInto absorbAlong
  rw [List.foldl_map]

@[simp] theorem size_absorbInto (ps : List Nat) (g : Graph) (q : Nat) :
    (g.absorbInto ps q).size = g.size := by
  rw [absorbInto_eq, size_absorbAlong]

@[simp] theorem initial_absorbInto (ps : List Nat) (g : Graph) (q : Nat) :
    (g.absorbInto ps q).initial = g.initial := by
  rw [absorbInto_eq, initial_absorbAlong]

theorem WellFormed.absorbInto (hg : g.WellFormed) {ps : List Nat} (hq : q < g.size) :
    (g.absorbInto ps q).WellFormed := by
  rw [absorbInto_eq]
  exact hg.absorbAlong (List.forall_mem_map.2 fun _ _ => hq)

theorem passed_absorbInto {P : State → Prop} (hP : State.Passed P) {ps : List Nat}
    (hps : ∀ p ∈ ps, p < g.size) :
    P ((g.absorbInto ps q).state x) ↔ P (g.state x) ∨ (x ∈ ps ∧ P (g.state q)) := by
  rw [absorbInto_eq, passed_absorbAlong hP (List.forall_mem_map.2 hps)]
  · simp
  · intro x y z hxy hyz
    obtain ⟨p, hp, he⟩ := List.mem_map.1 hxy
    obtain ⟨p', _, he'⟩ := List.mem_map.1 hyz
    cases he
    cases he'
    exact List.mem_map.2 ⟨x, hp, rfl⟩

theorem mem_stepAll_absorbInto {ps : List Nat} (hps : ∀ p ∈ ps, p < g.size) :
    r ∈ ((g.absorbInto ps q).state x).stepAll c ↔
      r ∈ (g.state x).stepAll c ∨ (x ∈ ps ∧ r ∈ (g.state q).stepAll c) :=
  passed_absorbInto (State.passed_step c r) hps

theorem accept_absorbInto {ps : List Nat} (hps : ∀ p ∈ ps, p < g.size) :
    ((g.absorbInto ps q).state x).accept = true ↔
      (g.state x).accept = true ∨ (x ∈ ps ∧ (g.state q).accept = true) :=
  passed_absorbInto State.passed_accept hps

/-! ## One state absorbs many -/

/-- Absorbs the states of a list into one state, in order. -/
def absorbFrom (g : Graph) (p : Nat) (qs : List Nat) : Graph :=
  qs.foldl (fun h q => h.absorb p q) g

theorem absorbFrom_eq (g : Graph) (p : Nat) (qs : List Nat) :
    g.absorbFrom p qs = g.absorbAlong (qs.map (p, ·)) := by
  unfold absorbFrom absorbAlong
  rw [List.foldl_map]

@[simp] theorem size_absorbFrom (g : Graph) (p : Nat) (qs : List Nat) :
    (g.absorbFrom p qs).size = g.size := by
  rw [absorbFrom_eq, size_absorbAlong]

@[simp] theorem initial_absorbFrom (g : Graph) (p : Nat) (qs : List Nat) :
    (g.absorbFrom p qs).initial = g.initial := by
  rw [absorbFrom_eq, initial_absorbAlong]

theorem state_absorbFrom_of_ne {qs : List Nat} (hx : x ≠ p) :
    (g.absorbFrom p qs).state x = g.state x := by
  induction qs generalizing g with
  | nil => rfl
  | cons q qs ih =>
    show ((g.absorb p q).absorbFrom p qs).state x = g.state x
    rw [ih, state_absorb_of_ne hx]

/-- A state that is not among those it absorbs has what it had and what they have. -/
theorem passed_absorbFrom {P : State → Prop} (hP : State.Passed P) {qs : List Nat}
    (hp : p < g.size) (hqs : p ∉ qs) :
    P ((g.absorbFrom p qs).state p) ↔ P (g.state p) ∨ ∃ q ∈ qs, P (g.state q) := by
  rw [absorbFrom_eq, passed_absorbAlong hP (List.forall_mem_map.2 fun _ _ => hp)]
  · simp
  · intro x y z hxy hyz
    obtain ⟨q, hq, he⟩ := List.mem_map.1 hxy
    obtain ⟨q', -, he'⟩ := List.mem_map.1 hyz
    cases he
    cases he'
    exact absurd hq hqs

/-- The transitions of a state that absorbs others are its own and theirs. -/
theorem mem_transitions_absorbFrom {qs : List Nat} (hp : p < g.size) (hqs : p ∉ qs)
    {t : Transition} : t ∈ ((g.absorbFrom p qs).state p).transitions ↔
      t ∈ (g.state p).transitions ∨ ∃ q ∈ qs, t ∈ (g.state q).transitions :=
  passed_absorbFrom (State.passed_transition t) hp hqs

theorem mem_stepAll_absorbFrom {qs : List Nat} (hp : p < g.size) (hqs : p ∉ qs) :
    r ∈ ((g.absorbFrom p qs).state p).stepAll c ↔
      r ∈ (g.state p).stepAll c ∨ ∃ q ∈ qs, r ∈ (g.state q).stepAll c :=
  passed_absorbFrom (State.passed_step c r) hp hqs

theorem accept_absorbFrom {qs : List Nat} (hp : p < g.size) (hqs : p ∉ qs) :
    ((g.absorbFrom p qs).state p).accept = true ↔
      (g.state p).accept = true ∨ ∃ q ∈ qs, (g.state q).accept = true :=
  passed_absorbFrom State.passed_accept hp hqs

/-! ## Joined arenas -/

theorem state_append_left (hx : x < g.size) : (g.append h).state x = g.state x := by
  have hx' : x < g.states.size := hx
  rw [state_eq_getElem?, state_eq_getElem?]
  show (g.states ++ h.states.map (·.mapTargets (g.shift h)))[x]?.getD {} = g.states[x]?.getD {}
  rw [Array.getElem?_append_left hx']

theorem state_append_right (x : Nat) :
    (g.append h).state (g.size + x) = (h.state x).mapTargets (g.shift h) := by
  rw [state_eq_getElem?, state_eq_getElem?]
  show (g.states ++ h.states.map (·.mapTargets (g.shift h)))[g.states.size + x]?.getD {} =
    (h.states[x]?.getD {}).mapTargets (g.shift h)
  rw [Array.getElem?_append_right (Nat.le_add_right _ _), Nat.add_sub_cancel_left,
    Array.getElem?_map]
  cases h.states[x]? <;> rfl

/-- The first graph keeps its places. -/
theorem covers_append_left (hg : g.WellFormed) (h : Graph) :
    Covers id (· < g.size) g (g.append h) :=
  covers_of_state_eq (fun _ _ _ hp hq => hg.lt_of_mem_stepAll hp hq) fun _ => state_append_left

/-- The second graph follows the first. -/
theorem covers_append_right (g : Graph) (hh : h.WellFormed) :
    Covers (g.size + ·) (· < h.size) h (g.append h) := by
  apply Covers.of_mapTargets fun p q hp hq => hh.lt_of_mem_targets hp hq
  intro p hp
  rw [state_append_right]
  apply State.mapTargets_congr
  intro t ht
  exact shift_of_lt (hh.target_lt p hp t ht)

theorem add_initial_lt_append (hh : h.WellFormed) (g : Graph) :
    g.size + h.initial < (g.append h).size := by
  rw [size_append]
  have hlt := hh.initial_lt
  omega

theorem WellFormed.append (hg : g.WellFormed) (hh : h.WellFormed) : (g.append h).WellFormed where
  initial_lt := by
    rw [size_append]
    exact Nat.lt_of_lt_of_le hg.initial_lt (Nat.le_add_right _ _)
  target_lt q hq t ht := by
    rw [size_append] at hq ⊢
    by_cases hlt : q < g.size
    · rw [state_append_left hlt] at ht
      have hlt := hg.target_lt q hlt t ht
      omega
    · obtain ⟨x, rfl⟩ := Nat.exists_eq_add_of_le (Nat.le_of_not_lt hlt)
      have hx : x < h.size := by omega
      rw [state_append_right] at ht
      obtain ⟨u, hu, rfl⟩ := List.mem_map.1 ht
      have hu' := hh.target_lt x hx u hu
      rw [Transition.retarget_target, shift_of_lt hu']
      omega

end Graph

end RegLang
