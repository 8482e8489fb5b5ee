import Mathlib.Computability.EpsilonNFA
import RegLang.EpsilonClosure
import RegLang.Proofs.Machine
/-!
# What empty edges mean

A graph with empty edges between its states may follow them without reading a letter.  Instead of
taking empty steps of their own, its states may look ahead: a state accepts if edges lead to an
accepting one, and it steps like every state that edges lead to.

    w ∈ (g.withEdges edges).accepts ↔ (g.lookahead edges).Accepts g.initial w

* `mem_accepts_withEdges`: looking ahead is as good as taking empty steps.
-/

namespace RegLang.Graph

variable {g : Graph} {edges : List StatePair} {p q r : Nat} {c : Char} {w : Word}

/-- The graph with empty edges. -/
def withEdges (g : Graph) (edges : List StatePair) : εNFA Char Nat where
  step
    | p, none => {q | (p, q) ∈ edges}
    | p, some c => {q | q ∈ (g.state p).stepAll c}
  start := {g.initial}
  accept := {q | (g.state q).accept = true}

/-- Empty edges lead from one state to another, or they are the same. -/
abbrev EdgePath (edges : List StatePair) : Nat → Nat → Prop :=
  Relation.ReflTransGen fun p q => (p, q) ∈ edges

/-- The machine that looks along empty edges for its steps and for acceptance. -/
def lookahead (g : Graph) (edges : List StatePair) : Machine Nat where
  accept p := ∃ q, EdgePath edges p q ∧ (g.state q).accept = true
  step p c r := ∃ q, EdgePath edges p q ∧ r ∈ (g.state q).stepAll c

/-- What is accepted behind empty edges is accepted before them. -/
theorem accepts_lookahead_of_edge (hpq : (p, q) ∈ edges) (hw : (g.lookahead edges).Accepts q w) :
    (g.lookahead edges).Accepts p w := by
  cases w with
  | nil =>
    obtain ⟨x, hqx, hx⟩ := Machine.accepts_nil_iff.1 hw
    exact Machine.accepts_nil_iff.2 ⟨x, .head hpq hqx, hx⟩
  | cons c w =>
    obtain ⟨r, ⟨x, hqx, hx⟩, hr⟩ := Machine.accepts_cons_iff.1 hw
    exact Machine.accepts_cons_iff.2 ⟨r, ⟨x, .head hpq hqx, hx⟩, hr⟩

theorem accepts_lookahead_of_isPath {x : List (Option Char)}
    (hx : (g.withEdges edges).IsPath p q x) (hq : (g.state q).accept = true) :
    (g.lookahead edges).Accepts p x.reduceOption := by
  induction hx with
  | nil q => exact Machine.accepts_nil_iff.2 ⟨q, .refl, hq⟩
  | cons m p q a x hm _ ih =>
    cases a with
    | none => exact accepts_lookahead_of_edge hm (ih hq)
    | some c => exact Machine.accepts_cons_iff.2 ⟨m, ⟨p, .refl, hm⟩, ih hq⟩

theorem isPath_of_edgePath (hpq : EdgePath edges p q) :
    ∃ x, x.reduceOption = [] ∧ (g.withEdges edges).IsPath p q x := by
  induction hpq using Relation.ReflTransGen.head_induction_on with
  | refl => exact ⟨[], rfl, .nil q⟩
  | head hpm _ ih =>
    obtain ⟨x, hx, hpath⟩ := ih
    exact ⟨none :: x, hx, .cons _ _ _ none x hpm hpath⟩

theorem isPath_of_accepts_lookahead (hw : (g.lookahead edges).Accepts p w) :
    ∃ q x, x.reduceOption = w ∧ (g.state q).accept = true ∧ (g.withEdges edges).IsPath p q x := by
  induction w generalizing p with
  | nil =>
    obtain ⟨q, hpq, hq⟩ := Machine.accepts_nil_iff.1 hw
    obtain ⟨x, hx, hpath⟩ := isPath_of_edgePath (g := g) hpq
    exact ⟨q, x, hx, hq, hpath⟩
  | cons c w ih =>
    obtain ⟨r, ⟨m, hpm, hr⟩, hw⟩ := Machine.accepts_cons_iff.1 hw
    obtain ⟨x, hx, hpath⟩ := isPath_of_edgePath (g := g) hpm
    obtain ⟨q, y, hy, hq, hrest⟩ := ih hw
    refine ⟨q, x ++ some c :: y, ?_, hq, ?_⟩
    · rw [List.reduceOption_append, hx, List.reduceOption_cons_of_some, hy]
      rfl
    · exact (εNFA.isPath_append _).2 ⟨m, hpath, .cons _ _ _ _ _ hr hrest⟩

theorem mem_accepts_withEdges :
    w ∈ (g.withEdges edges).accepts ↔ (g.lookahead edges).Accepts g.initial w := by
  rw [εNFA.mem_accepts_iff_exists_path]
  constructor
  · rintro ⟨p, q, x, rfl, hq, rfl, hx⟩
    exact accepts_lookahead_of_isPath hx hq
  · intro hw
    obtain ⟨q, x, hx, hq, hpath⟩ := isPath_of_accepts_lookahead hw
    exact ⟨g.initial, q, x, rfl, hq, hx, hpath⟩

end RegLang.Graph
