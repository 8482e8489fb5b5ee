import RegLang.Proofs.CheckedIntervals
import RegLang.Proofs.Simulation
/-!
# Numbers between two bounds

The words of an interval are the numbers from one bound to the other in decimal, with zeros in
front: as many as the width asks for, or any number of them without a width.

* `ofInterval_spec`: the automaton of an interval is the smallest of these words.
-/

namespace RegLang.Automaton

open RegLang.Numeral (decimal value)

variable {lo hi digits : Nat}

/-- The automaton of an interval is the smallest of its words. -/
theorem exists_ofInterval (h : lo ≤ hi) (hd : digits = 0 ∨ (decimal hi).length ≤ digits) :
    ∃ g : Graph, ofInterval lo hi digits = .ok (graph g) ∧
      Graph.SmallestOf (· ∈ numbersBetween lo hi digits) g := by
  obtain ⟨hwf, ht, hl⟩ := Interval.graph_spec h hd
  obtain ⟨g, hg, hsmallest⟩ := Graph.exists_minimize .hopcroft hwf ht
  refine ⟨g, ?_, hsmallest.smallestOf (fun w => ?_) (exists_mem_numbersBetween h hd)⟩
  · rw [ofInterval_eq_minimize h hd, minimize_graph .hopcroft hwf, hg]
    rfl
  · rw [← hl]
    exact Iff.rfl

/-- Bounds that are in order and fit into the width have an automaton, and no place is missed on
the way to it.  It is deterministic and flagged so, no deterministic graph of its words has fewer
states, and a run answers whether the word is a number between the bounds, of the width if there is
one: such a number in decimal, behind any zeros that make up the width. -/
theorem ofInterval_spec (h : lo ≤ hi) (hd : digits = 0 ∨ (decimal hi).length ≤ digits) :
    ∃ g : Graph, ofInterval lo hi digits = .ok (graph g) ∧
      Checked.ofInterval lo hi digits = .ok (graph g) ∧
      Graph.SmallestOf (· ∈ numbersBetween lo hi digits) g ∧
      (∀ w, g.Accepts w ↔ w ≠ [] ∧ w.all Char.isDigit = true ∧ lo ≤ value w ∧ value w ≤ hi ∧
        (digits = 0 ∨ w.length = digits)) ∧
      (∀ w, g.Accepts w ↔ ∃ n k, lo ≤ n ∧ n ≤ hi ∧ w = List.replicate k '0' ++ decimal n ∧
        (digits = 0 ∨ w.length = digits)) ∧
      ∀ w, ∃ r, (graph g).run w = .ok r ∧ (r = true ↔ g.Accepts w) := by
  obtain ⟨g, hg, hsmallest⟩ := exists_ofInterval h hd
  refine ⟨g, hg, ?_, hsmallest, hsmallest.accepts_iff, fun w => ?_, fun w => ?_⟩
  · rw [Checked.ofInterval_eq h hd, hg]
  · rw [hsmallest.accepts_iff, mem_numbersBetween_iff]
  · exact run_spec (a := graph g) hsmallest.wellFormed (fun _ => hsmallest.isDeterministic) w

/-- From 7 to 120 the lower bound has fewer digits than the upper one. -/
theorem ofInterval_spec_uneven : 7 ≤ 120 ∧ ((0 : Nat) = 0 ∨ (decimal 120).length ≤ 0) ∧
    ∃ g : Graph, ofInterval 7 120 0 = .ok (graph g) ∧ g.Accepts ['0', '0', '9', '5'] ∧
      ¬ g.Accepts ['1', '2', '1'] := by
  have h : 7 ≤ 120 := by decide
  have hd : (0 : Nat) = 0 ∨ (decimal 120).length ≤ 0 := .inl rfl
  obtain ⟨g, hg, _, _, hl, _⟩ := ofInterval_spec h hd
  refine ⟨h, hd, g, hg, (hl _).2 (by decide), fun ha => ?_⟩
  have hnot : ¬ value ['1', '2', '1'] ≤ 120 := by decide
  exact hnot ((hl _).1 ha).2.2.2.1

end RegLang.Automaton
