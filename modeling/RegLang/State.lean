import RegLang.Transition
/-!
# States

A state accepts or rejects and has a list of transitions; the order of the list counts, because a
deterministic run takes the first transition that applies.

* `mem_stepAll`: `stepAll` lists the targets of exactly the transitions that apply.
-/

namespace RegLang

/-- A node of a graph; without further notice it rejects and leads nowhere. -/
structure State where
  accept : Bool := false
  transitions : List Transition := []
deriving DecidableEq

namespace State

/-- The target of the first transition that applies to `c`. -/
def step (s : State) (c : Char) : Option Nat :=
  (s.transitions.find? (·.contains c)).map (·.target)

/-- The targets of all transitions that apply to `c`. -/
def stepAll (s : State) (c : Char) : List Nat :=
  (s.transitions.filter (·.contains c)).map (·.target)

/-- The targets of all transitions. -/
def targets (s : State) : List Nat := s.transitions.map (·.target)

/-- The state with one more transition, at the end of its list. -/
def push (s : State) (t : Transition) : State :=
  { s with transitions := s.transitions ++ [t] }

/-- The state as if an empty edge led from it to `t`: it accepts if `t` does and has copies of
the transitions of `t` after its own. -/
def absorb (s t : State) : State where
  accept := s.accept || t.accept
  transitions := s.transitions ++ t.transitions

/-- The state with every target `q` replaced by `f q`. -/
def mapTargets (f : Nat → Nat) (s : State) : State :=
  { s with transitions := s.transitions.map fun t => t.retarget (f t.target) }

/-- The state in normal form: sorted by target, intervals to one target merged. -/
def reduce (s : State) : State :=
  { s with transitions := Transition.merge (Transition.sortByTarget s.transitions) }

/-! ## Lemmas -/

theorem mem_stepAll {s : State} {c : Char} {q : Nat} :
    q ∈ s.stepAll c ↔ ∃ t ∈ s.transitions, t.contains c = true ∧ t.target = q := by
  simp [stepAll, and_assoc]

theorem mem_targets {s : State} {q : Nat} :
    q ∈ s.targets ↔ ∃ t ∈ s.transitions, t.target = q := by
  simp [targets]

/-- A first step is one of all steps. -/
theorem mem_stepAll_of_step {s : State} {c : Char} {q : Nat} (h : s.step c = some q) :
    q ∈ s.stepAll c := by
  obtain ⟨t, ht, rfl⟩ := Option.map_eq_some_iff.1 h
  have hc := List.find?_some ht
  exact mem_stepAll.2 ⟨t, List.mem_of_find?_eq_some ht, hc, rfl⟩

/-- There is no first step exactly if there is none at all. -/
theorem step_eq_none_iff {s : State} {c : Char} : s.step c = none ↔ s.stepAll c = [] := by
  simp [step, stepAll]

end State

end RegLang
