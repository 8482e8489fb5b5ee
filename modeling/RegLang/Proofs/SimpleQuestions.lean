import RegLang.Proofs.Chaining
import RegLang.Proofs.HashCodes
import RegLang.Proofs.Simulation
/-!
# No word, only the empty word, all words

The first two questions are answered by looking for live states, so dead ends and states out of
reach do not count.  The third one looks at the initial state alone.  That is enough on a minimal
graph: if all words are accepted then every reachable state accepts all of them, so there is but one,
and in normal form its transitions are a single one on all letters, the surrogates being no letters.
Refinement may leave a graph that is not in normal form, but then its initial state loops already.

* `Graph.isEmpty_iff`, `Graph.acceptsOnlyEmptyWord_iff`: live states tell no word from one.
* `Graph.Smallest.total_iff`: the shape of a minimal graph tells if it accepts all words.
* `Automaton.simpleQuestions_spec`: the three questions.
-/

namespace RegLang

namespace Graph

variable {g h : Graph} {q : Nat}

/-! ## The empty word alone -/

theorem acceptsOnlyEmptyWord_iff : g.acceptsOnlyEmptyWord = true ↔ ∀ w, g.Accepts w ↔ w = [] := by
  constructor
  · intro hone w
    rw [← Automaton.mem_language_graph, language_of_acceptsOnlyEmptyWord hone, Language.mem_one]
  · intro hone
    unfold acceptsOnlyEmptyWord
    rw [Bool.and_eq_true, List.all_eq_true]
    refine ⟨acceptsFrom_nil_iff.1 ((hone []).2 rfl), fun t ht => ?_⟩
    rw [Bool.not_eq_true', List.contains_eq_mem, decide_eq_false_iff_not, mem_live_iff]
    -- a live target would make a longer word
    rintro ⟨-, w, hw⟩
    have hlonger : g.Accepts (t.lo :: w) :=
      acceptsFrom_cons_iff.2 ⟨_, State.mem_stepAll.2 ⟨t, ht, t.contains_lo, rfl⟩, hw⟩
    exact List.cons_ne_nil _ _ ((hone _).1 hlonger)

/-! ## All words -/

/-- A smallest graph of all words has no state but the initial one. -/
theorem Smallest.eq_initial_of_total (hh : Smallest g h) (hall : ∀ w, h.Accepts w)
    (hq : h.IsReachable q) : q = h.initial := by
  apply hh.distinct q h.initial hq h.isReachable_initial
  obtain ⟨v, hv⟩ := hq
  exact fun w => iff_of_true ((hh.isDeterministic.acceptsFrom_iff hv).2 (hall (v ++ w))) (hall w)

/-- In normal form the transitions of a single state that steps on every letter are one. -/
theorem Trimmed.loopsOnAny_of_total (ht : h.Trimmed) (hall : ∀ w, h.Accepts w)
    (hone : ∀ q, h.IsReachable q → q = h.initial) : h.loopsOnAny = true := by
  have htransitions : (h.state h.initial).transitions = [Transition.onAny h.initial] := by
    apply (ht.normal _ ht.wellFormed.initial_lt).eq_of_reads (List.pairwise_singleton _ _)
    intro c q
    rw [← State.mem_stepAll_iff_reads]
    constructor
    · intro hq
      exact ⟨_, List.mem_singleton_self _, Transition.onAny_contains _ c,
        (Transition.between_target _ _ _).trans (hone q (h.isReachable_initial.stepAll hq)).symm⟩
    · rintro ⟨t, htmem, -, rfl⟩
      obtain ⟨p, hp, -⟩ := acceptsFrom_cons_iff.1 (hall [c])
      rw [List.mem_singleton.1 htmem, Transition.onAny, Transition.between_target]
      rwa [hone p (h.isReachable_initial.stepAll hp)] at hp
  refine loopsOnAny_iff.2 ⟨_, htransitions, Transition.between_target _ _ _, ?_, ?_⟩ <;>
    rw [Transition.onAny, Transition.between_of_le (Alphabet.first_le _)]

/-- A smallest graph that loops or is trimmed shows by its initial state if it accepts all words. -/
theorem Smallest.total_iff (hh : Smallest g h) (hshape : h.loopsOnAny = true ∨ h.Trimmed) :
    ((h.state h.initial).accept && h.loopsOnAny) = true ↔ ∀ w, h.Accepts w := by
  rw [Bool.and_eq_true]
  constructor
  · rintro ⟨ha, hl⟩ w
    exact (accepts_of_loopsOnAny hl).2 ha
  · intro hall
    refine ⟨acceptsFrom_nil_iff.1 (hall []), hshape.elim id fun ht => ?_⟩
    exact ht.loopsOnAny_of_total hall fun q hq => hh.eq_initial_of_total hall hq

end Graph

namespace Automaton

open RegLang.Graph (WellFormed)

variable {a : Automaton} {g : Graph}

theorem Proper.exists_isEmpty (ha : a.Proper) :
    ∃ b, a.isEmpty = .ok b ∧ (b = true ↔ ∀ w, ¬ a.Accepts w) := by
  cases a with
  | singleton v => exact ⟨false, rfl, nofun, fun hnone => absurd rfl (hnone v)⟩
  | graph g =>
    refine ⟨g.isEmpty, ?_, Graph.isEmpty_iff⟩
    rw [isEmpty, WellFormed.ensureIntact ha.wellFormed]
    rfl

theorem Proper.exists_isEmptyWord (ha : a.Proper) :
    ∃ b, a.isEmptyWord = .ok b ∧ (b = true ↔ ∀ w, a.Accepts w ↔ w = []) := by
  cases a with
  | singleton v =>
    refine ⟨v.isEmpty, rfl, ?_⟩
    rw [List.isEmpty_iff]
    constructor
    · rintro rfl w
      exact Iff.rfl
    · exact fun hone => (hone v).1 rfl
  | graph g =>
    refine ⟨g.acceptsOnlyEmptyWord, ?_, Graph.acceptsOnlyEmptyWord_iff⟩
    rw [isEmptyWord, WellFormed.ensureIntact ha.wellFormed]
    rfl

/-- A single word is left as it is, and there is always another word. -/
theorem Proper.exists_isTotal (ha : a.Proper) (m : Minimization) :
    ∃ c b, a.minimize m = .ok c ∧ c.isTotal = .ok b ∧ (b = true ↔ ∀ w, a.Accepts w) := by
  cases a with
  | singleton v =>
    refine ⟨singleton v, false, rfl, rfl, nofun, fun hall => ?_⟩
    have hlonger : 'a' :: v = v := hall ('a' :: v)
    exact absurd hlonger (List.cons_ne_self _ _)
  | graph g =>
    have hg : g.WellFormed := ha.wellFormed
    obtain ⟨h, hm, hh, hshape⟩ := Graph.exists_minimize_trimmed m hg ha.truthful
    refine ⟨graph h, (h.state h.initial).accept && h.loopsOnAny, ?_, ?_,
      (hh.total_iff hshape).trans (forall_congr' hh.accepts_iff)⟩
    · rw [minimize_graph m hg, hm]
      rfl
    · rw [isTotal, Graph.fetch_of_lt hh.wellFormed.initial_lt]
      rfl

/-- On a well-formed automaton with a truthful flag, the tests for no word and for the empty word
alone answer if these are what runs accept, whatever dead ends and unreachable states there are; and
once the automaton has been minimized, in any of the three ways, so does the test for all words. -/
theorem simpleQuestions_spec (ha : a.WellFormed) (ht : a.Truthful) (m : Minimization) :
    (∃ b, a.isEmpty = .ok b ∧ (b = true ↔ ∀ w, a.run w = .ok false)) ∧
    (∃ b, a.isEmptyWord = .ok b ∧ (b = true ↔ ∀ w, a.run w = .ok (decide (w = [])))) ∧
    ∃ c b, a.minimize m = .ok c ∧ c.isTotal = .ok b ∧ (b = true ↔ ∀ w, a.run w = .ok true) := by
  have hp : a.Proper := ⟨ha, ht⟩
  have hrun : ∀ (w : Word) (b : Bool), a.run w = .ok b ↔ (b = true ↔ a.Accepts w) := by
    intro w b
    refine ⟨fun hb => ?_, hp.run_eq⟩
    obtain ⟨b', hb', hiff⟩ := run_spec ha ht w
    obtain rfl : b = b' := Except.ok.inj (hb.symm.trans hb')
    exact hiff
  obtain ⟨x, hx, hnone⟩ := hp.exists_isEmpty
  obtain ⟨y, hy, hone⟩ := hp.exists_isEmptyWord
  obtain ⟨c, z, hc, hz, hall⟩ := hp.exists_isTotal m
  refine ⟨⟨x, hx, hnone.trans ?_⟩, ⟨y, hy, hone.trans ?_⟩, c, z, hc, hz, hall.trans ?_⟩ <;>
    refine forall_congr' fun w => ?_ <;> rw [hrun]
  · simp
  · rw [decide_eq_true_iff]
    exact iff_comm
  · simp

/-- All words are accepted by two states, which part the letters at the surrogates; there is a dead
end, and a state out of reach. -/
def halved : Graph where
  states := #[{ accept := true, transitions := [.between '\uE000' Alphabet.last 0,
      .between Alphabet.first '\uD7FF' 1, .onAny 2] },
    { accept := true, transitions := [.onAny 0] }, {}, { transitions := [.single 'a' 3] }]
  deterministic := false

theorem simpleQuestions_spec_halved : (graph halved).WellFormed ∧ (graph halved).Truthful ∧
    (∃ b, (graph halved).isEmpty = .ok b ∧
      (b = true ↔ ∀ w, (graph halved).run w = .ok false)) ∧
    (∃ b, (graph halved).isEmptyWord = .ok b ∧
      (b = true ↔ ∀ w, (graph halved).run w = .ok (decide (w = [])))) ∧
    ∃ c b, (graph halved).minimize .hopcroft = .ok c ∧ c.isTotal = .ok b ∧
      (b = true ↔ ∀ w, (graph halved).run w = .ok true) := by
  have hg : (graph halved).WellFormed := ⟨by decide, by decide⟩
  have ht : (graph halved).Truthful := fun h => by cases h
  exact ⟨hg, ht, simpleQuestions_spec hg ht .hopcroft⟩

end Automaton

end RegLang
