import Mathlib.Computability.Language
import RegLang.Automaton.Basic
import RegLang.Semantics.Path
/-!
# The language of an automaton

A single word stands for itself; a graph stands for the words it accepts.

* `accepts_ofWord`: the chain of a word accepts that word and no other, so turning a word into a
  graph keeps the language.
-/

namespace RegLang

namespace Automaton

/-- The automaton accepts a word, apart from how it is run. -/
def Accepts : Automaton → Word → Prop
  | .singleton v, w => w = v
  | .graph g, w => g.Accepts w

/-- The words that are accepted. -/
def language (a : Automaton) : Language Char := {w | a.Accepts w}

/-- All places that a graph mentions are in its arena. -/
def WellFormed : Automaton → Prop
  | .singleton _ => True
  | .graph g => g.WellFormed

/-- A set flag is not set in vain. -/
def Truthful : Automaton → Prop
  | .singleton _ => True
  | .graph g => g.Truthful

@[simp] theorem mem_language {a : Automaton} {w : Word} : w ∈ a.language ↔ a.Accepts w := Iff.rfl

end Automaton

namespace Graph

/-! ## The chain of a word -/

@[simp] theorem size_ofWord (v : Word) : (ofWord v).size = v.length + 1 := by
  simp [ofWord, size]

theorem state_ofWord_of_lt {v : Word} {i : Nat} (h : i < v.length) :
    (ofWord v).state i = { transitions := [.single v[i] (i + 1)] } := by
  have h' : i < v.length + 1 := by omega
  simp [ofWord, state, Array.getD, h, h', List.getElem_append_left]

theorem state_ofWord_length (v : Word) : (ofWord v).state v.length = { accept := true } := by
  simp [ofWord, state, Array.getD]

theorem single_contains_iff {c d : Char} {q : Nat} :
    (Transition.single c q).contains d = true ↔ d = c := by
  rw [Transition.contains_iff]
  exact ⟨fun h => Char.le_antisymm h.2 h.1, fun h => h ▸ ⟨Char.le_refl _, Char.le_refl _⟩⟩

/-- From place `i` of the chain exactly the rest of the word is accepted. -/
theorem acceptsFrom_ofWord {v w : Word} {i : Nat} (h : i ≤ v.length) :
    (ofWord v).AcceptsFrom i w ↔ w = v.drop i := by
  induction w generalizing i with
  | nil =>
    rw [acceptsFrom_nil_iff]
    rcases Nat.lt_or_eq_of_le h with h | rfl
    · simp [state_ofWord_of_lt h, eq_comm, List.drop_eq_nil_iff, h]
    · simp [state_ofWord_length]
  | cons c w ih =>
    rw [acceptsFrom_cons_iff]
    rcases Nat.lt_or_eq_of_le h with h | rfl
    · simp only [State.mem_stepAll, state_ofWord_of_lt h, List.mem_singleton]
      rw [List.drop_eq_getElem_cons h]
      constructor
      · rintro ⟨_, ⟨_, rfl, hc, rfl⟩, hw⟩
        rw [single_contains_iff.1 hc, (ih h).1 hw]
      · intro e
        obtain ⟨rfl, rfl⟩ := List.cons.inj e
        exact ⟨i + 1, ⟨_, rfl, single_contains_iff.2 rfl, rfl⟩, (ih h).2 rfl⟩
    · simp [State.mem_stepAll, state_ofWord_length]

theorem accepts_ofWord {v w : Word} : (ofWord v).Accepts w ↔ w = v :=
  acceptsFrom_ofWord (Nat.zero_le _)

theorem wellFormed_ofWord (v : Word) : (ofWord v).WellFormed where
  initial_lt := by simp [ofWord, size]
  target_lt q hq t ht := by
    rw [size_ofWord] at hq ⊢
    rcases Nat.lt_or_eq_of_le (Nat.le_of_lt_succ hq) with hq | rfl
    · rw [state_ofWord_of_lt hq, List.mem_singleton] at ht
      subst ht
      exact Nat.succ_lt_succ hq
    · rw [state_ofWord_length] at ht
      cases ht

theorem isDeterministic_ofWord (v : Word) : (ofWord v).IsDeterministic := by
  intro q _
  rcases Nat.lt_trichotomy q v.length with hq | rfl | hq
  · rw [state_ofWord_of_lt hq]
    exact List.pairwise_singleton _ _
  · rw [state_ofWord_length]
    exact List.Pairwise.nil
  · rw [state_of_not_lt (by rw [size_ofWord]; omega)]
    exact List.Pairwise.nil

end Graph

namespace Automaton

variable {a : Automaton}

theorem accepts_toGraph {w : Word} : a.toGraph.Accepts w ↔ a.Accepts w := by
  cases a with
  | singleton v => exact Graph.accepts_ofWord
  | graph g => exact Iff.rfl

theorem WellFormed.toGraph (h : a.WellFormed) : a.toGraph.WellFormed := by
  cases a with
  | singleton v => exact Graph.wellFormed_ofWord v
  | graph g => exact h

theorem Truthful.toGraph (h : a.Truthful) : a.toGraph.Truthful := by
  cases a with
  | singleton v => exact fun _ => Graph.isDeterministic_ofWord v
  | graph g => exact h

end Automaton

end RegLang
