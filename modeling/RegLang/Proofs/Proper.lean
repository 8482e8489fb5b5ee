import RegLang.Automaton.Combine
import RegLang.Proofs.Linking
import RegLang.Proofs.Running
import RegLang.Semantics.Denotation
/-!
# Proper automata

An automaton is proper if its places are in the arena and its flag is not set in vain.  Operations
on proper automata succeed, and what they compute is proper again; so each is described by the
language of its result alone, as in

    (∀ a ∈ as, a.Proper) → Computes (union as) (as.map language).sum
-/

namespace RegLang

/-- The words that a graph accepts. -/
def Graph.language (g : Graph) : Language Char := {w | g.Accepts w}

namespace Automaton

/-- Well-formed, with a truthful flag. -/
structure Proper (a : Automaton) : Prop where
  wellFormed : a.WellFormed
  truthful : a.Truthful

/-- A proper automaton of the language is the result. -/
def Computes (r : Except Fault Automaton) (l : Language Char) : Prop :=
  ∃ a, r = .ok a ∧ a.Proper ∧ a.language = l

variable {a : Automaton} {g h : Graph} {l : Language Char} {r : Except Fault Automaton} {w : Word}

@[simp] theorem mem_language_graph : w ∈ g.language ↔ g.Accepts w := Iff.rfl

theorem language_toGraph (a : Automaton) : a.toGraph.language = a.language := by
  ext w
  exact accepts_toGraph

theorem proper_singleton (w : Word) : (singleton w).Proper := ⟨trivial, trivial⟩

theorem Proper.toGraph_wellFormed (ha : a.Proper) : a.toGraph.WellFormed := ha.wellFormed.toGraph

theorem map_language_toGraph (as : List Automaton) :
    (as.map toGraph).map Graph.language = as.map language := by
  rw [List.map_map]
  exact List.map_congr_left fun a _ => language_toGraph a

theorem wellFormed_of_mem_map_toGraph {as : List Automaton} (has : ∀ a ∈ as, a.Proper) :
    ∀ h ∈ as.map toGraph, h.WellFormed := by
  intro h hh
  obtain ⟨a, ha, rfl⟩ := List.mem_map.1 hh
  exact (has a ha).toGraph_wellFormed

/-- A graph without the flag is proper as soon as it is well-formed. -/
theorem proper_of_flag_false (hg : g.WellFormed) (hf : g.deterministic = false) :
    (graph g).Proper :=
  ⟨hg, fun h => by rw [hf] at h; cases h⟩

theorem Computes.of_ok (ha : a.Proper) (hl : a.language = l) : Computes (.ok a) l :=
  ⟨a, rfl, ha, hl⟩

/-- Most operations end by compacting a graph whose flag was taken back. -/
theorem computes_compact (hl : g.language = l) :
    Computes (.ok (graph (g.setDeterministic false).compact)) l := by
  refine ⟨_, rfl, proper_of_flag_false (Graph.wellFormed_compact _) ?_, ?_⟩
  · rw [Graph.deterministic_compact]
    rfl
  · rw [← hl]
    ext w
    -- the flag has no part in what is accepted
    have hsame : ∀ q, (g.setDeterministic false).state q = g.state q := fun _ => rfl
    exact Graph.accepts_compact.trans (Graph.acceptsFrom_congr hsame)

theorem computes_empty : Computes (.ok empty) 0 := by
  refine ⟨_, rfl, ⟨⟨by decide, by decide⟩, fun _ => ?_⟩, ?_⟩
  · intro q _
    have hs : (({} : Graph).state q).transitions = [] := by
      match q with
      | 0 => rfl
      | q + 1 => rfl
    rw [State.Disjoint, hs]
    exact List.Pairwise.nil
  · ext w
    constructor
    · rintro ⟨r, hr, ha⟩
      exfalso
      cases w with
      | nil =>
        rw [← Graph.path_nil_iff.1 hr] at ha
        cases ha
      | cons c w =>
        obtain ⟨q, hq, _⟩ := Graph.path_cons_iff.1 hr
        cases hq
    · intro hw
      exact absurd hw (Language.notMem_zero w)

theorem language_eq_zero_iff : a.language = 0 ↔ ∀ w, ¬ a.Accepts w := by
  constructor
  · intro h w hw
    have hw' : w ∈ a.language := hw
    rw [h] at hw'
    exact Language.notMem_zero w hw'
  · intro hn
    ext w
    exact ⟨fun hw => absurd hw (hn w), fun hw => absurd hw (Language.notMem_zero w)⟩

/-- The test for emptiness decides it. -/
theorem Proper.isEmpty_eq (ha : a.Proper) [Decidable (a.language = 0)] :
    a.isEmpty = .ok (decide (a.language = 0)) := by
  cases a with
  | singleton w =>
    have hne : ¬ (singleton w).language = 0 := fun h => language_eq_zero_iff.1 h w rfl
    rw [decide_eq_false hne]
    rfl
  | graph g =>
    have heq : g.isEmpty = decide ((graph g).language = 0) := by
      rw [Bool.eq_iff_iff, decide_eq_true_iff, language_eq_zero_iff, Graph.isEmpty_iff]
      exact Iff.rfl
    rw [← heq]
    show g.ensureIntact.map _ = _
    rw [Graph.WellFormed.ensureIntact ha.wellFormed]
    rfl

end Automaton

end RegLang
