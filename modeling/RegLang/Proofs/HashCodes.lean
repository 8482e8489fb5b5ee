import RegLang.Proofs.Minimization
import RegLang.Proofs.Primitives
/-!
# Hash codes

The minimal graphs of a language in normal form differ in the numbering of their states alone, so
they have equally many states and equally many transitions, and the pair of these numbers is a code
of the language.  The hash code of a proper automaton is the code of its language, with one
exception: minimization leaves a graph alone whose initial state only loops on every letter, also
if that state rejects, and then counts a transition too many.

* `IsCode.unique`: a language has one code.
* `exists_withHashCode`: the hash code is the code of the language unless the graph is stuck.
* `hashCode_stuck`: two automata of the empty language with different hash codes.
-/

namespace RegLang

open Automaton (pair)

namespace Graph

variable {g h : Graph} {v w : Word} {q : Nat}

/-! ## Counts -/

theorem Trimmed.perm_reachable (hg : g.Trimmed) : g.reachable.Perm (List.range g.size) :=
  hg.wellFormed.perm_reachable hg.reachable

theorem Trimmed.stateCount_eq (hg : g.Trimmed) : g.stateCount = g.size :=
  hg.wellFormed.stateCount_eq hg.reachable

theorem Trimmed.transitionCount_eq (hg : g.Trimmed) : g.transitionCount =
    ((List.range g.size).map fun q => (g.state q).transitions.length).sum := by
  rw [transitionCount, List.length_flatMap, (hg.perm_reachable.map _).sum_nat]

/-! ## The code of a language -/

/-- The code of a language: the numbers of states and of transitions of a minimal graph. -/
def IsCode (l : Language Char) (code : Nat) : Prop :=
  ∃ h : Graph, h.Minimal ∧ h.Trimmed ∧ h.language = l ∧
    code = pair h.stateCount h.transitionCount

theorem IsCode.unique {l : Language Char} {m n : Nat} (hm : IsCode l m) (hn : IsCode l n) :
    m = n := by
  obtain ⟨g, hg, hgt, hgl, rfl⟩ := hm
  obtain ⟨h, hh, hht, hhl, rfl⟩ := hn
  have hl : ∀ w, g.Accepts w ↔ h.Accepts w := fun w =>
    Set.ext_iff.1 (hgl.trans hhl.symm) w
  obtain ⟨f, hf⟩ := hg.exists_isomorphism hh hgt hht hl
  have hstates : g.stateCount = h.stateCount := by
    rw [stateCount, stateCount, hf.perm_reachable.length_eq, List.length_map]
  rw [hstates, hf.transitionCount_eq]

/-! ## Words -/

theorem path_ofWord {i : Nat} (h : i ≤ v.length) : (ofWord v).Path 0 (v.take i) i := by
  induction i with
  | zero => exact .nil 0
  | succ i ih =>
    have hi : i < v.length := h
    rw [List.take_succ_eq_append_getElem hi]
    refine path_append_iff.2 ⟨i, ih (Nat.le_of_lt hi), path_cons_iff.2 ⟨i + 1, ?_, .nil _⟩⟩
    rw [state_ofWord_of_lt hi]
    exact State.mem_stepAll.2 ⟨_, List.mem_singleton_self _, single_contains_iff.2 rfl, rfl⟩

theorem trimmed_ofWord (v : Word) : (ofWord v).Trimmed where
  wellFormed := wellFormed_ofWord v
  initial_eq := rfl
  reachable q hq := by
    rw [size_ofWord] at hq
    exact ⟨_, path_ofWord (Nat.le_of_lt_succ hq)⟩
  live q hq t ht := by
    have hlt := (wellFormed_ofWord v).target_lt q hq t ht
    rw [size_ofWord] at hlt
    exact ⟨_, (acceptsFrom_ofWord (Nat.le_of_lt_succ hlt)).2 rfl⟩
  normal q hq := by
    rw [size_ofWord] at hq
    rcases Nat.lt_or_eq_of_le (Nat.le_of_lt_succ hq) with hq | rfl
    · rw [state_ofWord_of_lt hq]
      exact List.pairwise_singleton _ _
    · rw [state_ofWord_length]
      exact List.Pairwise.nil

/-- The places of the chain are told apart by the length of what they accept. -/
theorem minimal_ofWord (v : Word) : (ofWord v).Minimal where
  isDeterministic := isDeterministic_ofWord v
  noDeadEnds := (trimmed_ofWord v).noDeadEnds
  distinct p q hp hq h := by
    have hlt := (wellFormed_ofWord v).lt_of_isReachable hp
    have hlt' := (wellFormed_ofWord v).lt_of_isReachable hq
    rw [size_ofWord] at hlt hlt'
    have hdrop := (acceptsFrom_ofWord (Nat.le_of_lt_succ hlt')).1
      ((h _).1 ((acceptsFrom_ofWord (Nat.le_of_lt_succ hlt)).2 rfl))
    have hlen := congrArg List.length hdrop
    rw [List.length_drop, List.length_drop] at hlen
    omega

theorem transitionCount_ofWord (v : Word) : (ofWord v).transitionCount = v.length := by
  have hone : (List.range v.length).map (fun q => ((ofWord v).state q).transitions.length) =
      List.replicate v.length 1 := by
    refine List.eq_replicate_iff.2 ⟨by rw [List.length_map, List.length_range], ?_⟩
    intro n hn
    obtain ⟨q, hq, rfl⟩ := List.mem_map.1 hn
    rw [state_ofWord_of_lt (List.mem_range.1 hq)]
    rfl
  rw [(trimmed_ofWord v).transitionCount_eq, size_ofWord, List.range_succ, List.map_append, hone,
    List.sum_append, List.sum_replicate]
  simp [state_ofWord_length]

theorem isCode_singleton (v : Word) :
    IsCode (Automaton.singleton v).language (pair (v.length + 1) v.length) := by
  refine ⟨ofWord v, minimal_ofWord v, trimmed_ofWord v, ?_, ?_⟩
  · exact Automaton.language_toGraph (.singleton v)
  · rw [(trimmed_ofWord v).stateCount_eq, size_ofWord, transitionCount_ofWord]

/-! ## The single state that loops -/

theorem reachable_of_loopsOnAny (hl : g.loopsOnAny = true) : g.reachable = [g.initial] := by
  have hperm : g.reachable.Perm [g.initial] := by
    apply (List.perm_ext_iff_of_nodup g.nodup_reachable (List.nodup_singleton _)).2
    intro q
    rw [mem_reachable_iff, List.mem_singleton]
    exact ⟨eq_initial_of_loopsOnAny hl, fun hq => hq ▸ g.isReachable_initial⟩
  exact List.perm_singleton.1 hperm

theorem stateCount_of_loopsOnAny (hl : g.loopsOnAny = true) : g.stateCount = 1 := by
  rw [stateCount, reachable_of_loopsOnAny hl]
  rfl

theorem transitionCount_of_loopsOnAny (hl : g.loopsOnAny = true) : g.transitionCount = 1 := by
  obtain ⟨t, ht, -⟩ := loopsOnAny_iff.1 hl
  rw [transitionCount, reachable_of_loopsOnAny hl, List.flatMap_singleton, ht]
  rfl

/-- The single state loops and accepts, or it rejects. -/
theorem accepts_of_loopsOnAny (hl : g.loopsOnAny = true) :
    g.Accepts w ↔ (g.state g.initial).accept = true := by
  constructor
  · rintro ⟨r, hr, ha⟩
    rwa [eq_initial_of_loopsOnAny hl ⟨w, hr⟩] at ha
  · intro ha
    obtain ⟨t, ht, htarget, hlo, hhi⟩ := loopsOnAny_iff.1 hl
    unfold Accepts
    induction w with
    | nil => exact acceptsFrom_nil_iff.2 ha
    | cons c w ih =>
      refine acceptsFrom_cons_iff.2 ⟨g.initial, State.mem_stepAll.2 ⟨t, ?_, ?_, htarget⟩, ih⟩
      · rw [ht]
        exact List.mem_singleton_self t
      · rw [Transition.contains_iff, hlo, hhi]
        exact ⟨Alphabet.first_le c, Alphabet.le_last c⟩

theorem trimmed_anyGraph : Automaton.anyGraph.Trimmed where
  wellFormed := Automaton.wellFormed_anyGraph
  initial_eq := rfl
  reachable q hq := by
    obtain rfl : q = 0 := Nat.lt_one_iff.1 hq
    exact isReachable_initial _
  live q hq t ht := by
    obtain rfl : q = 0 := Nat.lt_one_iff.1 hq
    rw [Automaton.state_anyGraph, List.mem_singleton] at ht
    rw [ht]
    exact ⟨[], Automaton.acceptsFrom_anyGraph []⟩
  normal q hq := by
    obtain rfl : q = 0 := Nat.lt_one_iff.1 hq
    exact List.pairwise_singleton _ _

theorem loopsOnAny_anyGraph : Automaton.anyGraph.loopsOnAny = true := by decide

theorem minimal_anyGraph : Automaton.anyGraph.Minimal where
  isDeterministic q hq := by
    obtain rfl : q = 0 := eq_initial_of_loopsOnAny loopsOnAny_anyGraph hq
    exact List.pairwise_singleton _ _
  noDeadEnds := trimmed_anyGraph.noDeadEnds
  distinct _ _ hp hq _ := (eq_initial_of_loopsOnAny loopsOnAny_anyGraph hp).trans
    (eq_initial_of_loopsOnAny loopsOnAny_anyGraph hq).symm

/-- The code of a graph whose single state loops and accepts. -/
theorem isCode_of_loopsOnAny (hl : g.loopsOnAny = true) (ha : (g.state g.initial).accept = true) :
    IsCode g.language (pair g.stateCount g.transitionCount) := by
  refine ⟨Automaton.anyGraph, minimal_anyGraph, trimmed_anyGraph, ?_, ?_⟩
  · ext w
    exact (accepts_of_loopsOnAny loopsOnAny_anyGraph).trans
      (iff_of_true rfl ((accepts_of_loopsOnAny hl).2 ha))
  · rw [stateCount_of_loopsOnAny hl, transitionCount_of_loopsOnAny hl,
      stateCount_of_loopsOnAny loopsOnAny_anyGraph,
      transitionCount_of_loopsOnAny loopsOnAny_anyGraph]

/-- The initial state rejects and only loops on every letter. -/
def Stuck (g : Graph) : Prop := g.loopsOnAny = true ∧ (g.state g.initial).accept = false

/-- Without dead ends a state that loops can accept. -/
theorem Trimmed.not_stuck (hg : g.Trimmed) : ¬ g.Stuck := by
  rintro ⟨hl, ha⟩
  obtain ⟨t, ht, htarget, -⟩ := loopsOnAny_iff.1 hl
  obtain ⟨w, hw⟩ := hg.live _ hg.wellFormed.initial_lt t (ht ▸ List.mem_singleton_self t)
  rw [htarget] at hw
  rw [(accepts_of_loopsOnAny hl).1 hw] at ha
  cases ha

/-- Determinizing leaves a stuck graph only where it leaves the graph alone. -/
theorem Stuck.of_determinize (h : g.determinize.Stuck) : g.Stuck := by
  by_cases hd : g.deterministic = true
  · rwa [determinize_of_deterministic hd] at h
  · have htrimmed : g.determinize.Trimmed := by
      unfold determinize
      rw [if_neg hd]
      exact trimmed_trim _
    exact absurd h htrimmed.not_stuck

end Graph

namespace Automaton

open RegLang.Graph

variable {a b : Automaton} {g h : Graph} {code : Nat}

/-! ## Remembered codes -/

/-- The hash code that an automaton remembers. -/
def remembered? : Automaton → Option Nat
  | singleton _ => none
  | graph g => g.hashCode

/-- The graph of an automaton is stuck. -/
def Stuck : Automaton → Prop
  | singleton _ => False
  | graph g => g.Stuck

/-- A remembered hash code is the code of the language, unless the graph is stuck. -/
def Remembers (a : Automaton) : Prop :=
  ∀ code, a.remembered? = some code → IsCode a.language code ∨ a.Stuck

theorem remembers_of_none (h : a.remembered? = none) : a.Remembers := by
  intro code hcode
  rw [h] at hcode
  cases hcode

theorem language_graph_congr (hstate : ∀ q, g.state q = h.state q) (hi : g.initial = h.initial) :
    (graph g).language = (graph h).language := by
  ext w
  change g.AcceptsFrom g.initial w ↔ h.AcceptsFrom h.initial w
  rw [hi]
  exact acceptsFrom_congr hstate

/-- What is remembered has no part in what is accepted, nor in whether the graph is proper. -/
theorem Proper.remember (hh : (graph h).Proper) (known : Option Nat) :
    (graph { h with hashCode := known }).Proper := by
  have hwf : h.WellFormed := hh.wellFormed
  refine ⟨⟨hwf.initial_lt, hwf.target_lt⟩, fun hf q hq => ?_⟩
  have hsame : ∀ q, ({ h with hashCode := known } : Graph).state q = h.state q := fun _ => rfl
  exact hh.truthful hf q ((isReachable_congr hsame rfl).1 hq)

/-- A graph that is minimized has as many states and transitions as the code of its language
says, unless it is stuck. -/
theorem exists_minimize_code (hg : g.WellFormed) (ht : g.Truthful) :
    ∃ h : Graph, (graph g).minimize .hopcroft = .ok (graph h) ∧ (graph h).Proper ∧
      h.language = g.language ∧ (h.Stuck → g.Stuck) ∧
      (IsCode g.language (pair h.stateCount h.transitionCount) ∨ h.Stuck) := by
  obtain ⟨h, hm, hproper, hlang⟩ := computes_minimize .hopcroft (a := graph g) ⟨hg, ht⟩
  rw [minimize_graph _ hg] at hm ⊢
  by_cases hl : g.determinize.loopsOnAny = true
  · have hmin : g.minimize .hopcroft = .ok g.determinize := if_pos hl
    rw [hmin] at hm ⊢
    cases hm
    have hlang : g.determinize.language = g.language := hlang
    refine ⟨g.determinize, rfl, hproper, hlang, Stuck.of_determinize, ?_⟩
    cases ha : (g.determinize.state g.determinize.initial).accept with
    | false => exact .inr ⟨hl, ha⟩
    | true =>
      rw [← hlang]
      exact .inl (isCode_of_loopsOnAny hl ha)
  · rw [Graph.minimize_hopcroft hg ht (Bool.eq_false_iff.2 hl)] at hm ⊢
    cases hm
    have htrimmed := trimmed_quotient g.prepareTotal g.markedClasses
    have hcode : IsCode g.language _ := ⟨_, minimal_quotient hg ht, htrimmed, hlang, rfl⟩
    exact ⟨_, rfl, hproper, hlang, fun hs => absurd hs htrimmed.not_stuck, .inl hcode⟩

/-- The hash code of a proper automaton is the code of its language, unless its graph is stuck; what
is left is a proper automaton of the same language that remembers no other code. -/
theorem exists_withHashCode (ha : a.Proper) (hr : a.Remembers) :
    ∃ code b, a.withHashCode = .ok (code, b) ∧ b.Proper ∧ b.language = a.language ∧ b.Remembers ∧
      (IsCode a.language code ∨ a.Stuck) := by
  cases a with
  | singleton w =>
    exact ⟨_, _, rfl, ha, rfl, remembers_of_none rfl, .inl (isCode_singleton w)⟩
  | graph g =>
    have hg : g.WellFormed := ha.wellFormed
    cases hcode : g.hashCode with
    | some code =>
      refine ⟨code, graph g, ?_, ha, rfl, hr, hr code hcode⟩
      unfold withHashCode
      simp only [hcode]
      rfl
    | none =>
      obtain ⟨h, hm, hproper, hlang, hstuck, hcount⟩ := exists_minimize_code hg ha.truthful
      generalize hn : pair h.stateCount h.transitionCount = n at hcount
      have hsame : ∀ q, ({ h with hashCode := some n } : Graph).state q = h.state q :=
        fun _ => rfl
      have hlang' : (graph { h with hashCode := some n }).language = g.language :=
        (language_graph_congr hsame rfl).trans hlang
      refine ⟨n, graph { h with hashCode := some n }, ?_, hproper.remember _, hlang', ?_,
        hcount.imp id hstuck⟩
      · have hh : h.WellFormed := hproper.wellFormed
        unfold withHashCode
        simp only [hcode, hm]
        change ((h.ensureIntact.map fun _ => h.stateCount).bind fun m =>
          (h.ensureIntact.map fun _ => h.transitionCount).bind fun k =>
            .ok (pair m k, graph { h with hashCode := some (pair m k) })) = _
        rw [hh.ensureIntact]
        change Except.ok (pair h.stateCount h.transitionCount,
          graph { h with hashCode := some (pair h.stateCount h.transitionCount) }) = _
        rw [hn]
      · intro code hsome
        obtain rfl : n = code := Option.some.inj hsome
        rw [hlang']
        exact hcount

/-! ## Two codes for one language -/

/-- One state that rejects and loops on every letter. -/
def stuck : Graph where
  states := #[{ transitions := [.onAny 0] }]

theorem stuck_stuck : stuck.Stuck := ⟨by decide, by decide⟩

theorem proper_stuck : (graph stuck).Proper := by
  refine ⟨⟨by decide, by decide⟩, fun _ q hq => ?_⟩
  obtain rfl : q = 0 := eq_initial_of_loopsOnAny stuck_stuck.1 hq
  exact List.pairwise_singleton _ _

theorem language_stuck : (graph stuck).language = 0 := by
  apply language_eq_zero_iff.2
  intro w hw
  have ha := (accepts_of_loopsOnAny stuck_stuck.1).1 hw
  rw [stuck_stuck.2] at ha
  cases ha

/-- The loop of a state that rejects is counted, though no transition of a minimal graph of the
empty language is. -/
theorem hashCode_stuck : empty.Proper ∧ (graph stuck).Proper ∧
    empty.language = (graph stuck).language ∧
    empty.withHashCode.map Prod.fst = .ok 2 ∧ (graph stuck).withHashCode.map Prod.fst = .ok 3 :=
  ⟨proper_empty, proper_stuck, language_empty.trans language_stuck.symm, by decide +kernel,
    by decide⟩

end Automaton

end RegLang
