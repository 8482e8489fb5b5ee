import RegLang.Proofs.CheckedOperations
import RegLang.Proofs.Primitives
import RegLang.Proofs.Simulation
/-!
# Intersection, complement, difference and union as automata

What the results of the boolean operations are, apart from the words that they have: how they are
flagged, which states they keep, and how they are run.

    (a.intersection b).run w = a.run w && b.run w
    a.complement.run w = !a.run w
    (a.minus b).run w = a.run w && !b.run w
    (union as).run w = as.any (·.run w)
    a.optional.run w = a.run w || w = []

* `intersection_spec`: the product of two graphs claims to be deterministic exactly if both do.
* `complement_spec`: a complement is deterministic, and that of a complement has the old words.
* `union_spec`: a union of no automata has no words, and an option adds the empty word alone.
-/

namespace RegLang

namespace Graph

/-! ## Products -/

/-- A graph of the common words of two graphs, flagged exactly if both are, and rightly so.  Every
reachable state leads to acceptance, unless there is only an initial state that rejects. -/
structure Intersected (g h k : Graph) : Prop where
  accepts_iff : ∀ w, k.Accepts w ↔ g.Accepts w ∧ h.Accepts w
  flag_iff : k.deterministic = true ↔ g.deterministic = true ∧ h.deterministic = true
  truthful : k.Truthful
  live_or_barren : ∀ q, k.IsReachable q → (∃ w, k.AcceptsFrom q w) ∨ k.Barren

theorem intersected_product {g h : Graph} (hg : g.Truthful) (hh : h.Truthful) :
    Intersected g h (g.pairGraph h).trim where
  accepts_iff _ := accepts_trim.trans accepts_pairGraph
  flag_iff := by
    rw [deterministic_product]
    exact Bool.and_eq_true_iff
  truthful := truthful_product hg hh
  live_or_barren _ hq := (trimmed_trim _).noDeadEnds.live_or_barren hq

end Graph

namespace Automaton

open RegLang.Graph (Intersected)

variable {a b : Automaton}

/-! ## Intersection -/

/-- The intersection of two automata accepts what both accept: no check fails on the way, and runs
answer so.  That of two graphs is a graph without dead ends, flagged exactly if both graphs are. -/
theorem intersection_spec (ha : a.WellFormed) (ht : a.Truthful) (hb : b.WellFormed)
    (ht' : b.Truthful) :
    ∃ c, a.intersection b = .ok c ∧ Checked.intersection a b = .ok c ∧
      c.WellFormed ∧ c.Truthful ∧ (∀ w, c.Accepts w ↔ a.Accepts w ∧ b.Accepts w) ∧
      (∀ w, ∃ r s, a.run w = .ok r ∧ b.run w = .ok s ∧ c.run w = .ok (r && s)) ∧
      ∀ g h, a = graph g → b = graph h → ∃ k, c = graph k ∧ Intersected g h k := by
  have hpa : a.Proper := ⟨ha, ht⟩
  have hpb : b.Proper := ⟨hb, ht'⟩
  obtain ⟨c, hc, hpc, hl⟩ := computes_intersection hpa hpb
  have haccepts : ∀ w, c.Accepts w ↔ a.Accepts w ∧ b.Accepts w := by
    intro w
    rw [← mem_language, hl]
    exact Iff.rfl
  refine ⟨c, hc, (Checked.intersection_eq hpa hpb).trans hc, hpc.wellFormed, hpc.truthful,
    haccepts, fun w => ?_, ?_⟩
  · obtain ⟨r, hr, hra⟩ := run_spec ha ht w
    obtain ⟨s, hs, hsb⟩ := run_spec hb ht' w
    refine ⟨r, s, hr, hs, hpc.run_eq ?_⟩
    rw [Bool.and_eq_true, hra, hsb, haccepts]
  · rintro g h rfl rfl
    have hk := Except.ok.inj (hc.symm.trans (intersection_graph ha hb))
    exact ⟨_, hk, Graph.intersected_product ht ht'⟩

/-- A graph with overlapping transitions and a flagged one whose only overlap is out of reach. -/
theorem intersection_spec_forked_lopsided : (graph forked).WellFormed ∧ (graph forked).Truthful ∧
    (graph lopsided).WellFormed ∧ (graph lopsided).Truthful ∧
    ∃ k, (graph forked).intersection (graph lopsided) = .ok (graph k) ∧
      Intersected forked lopsided k ∧ k.deterministic = false := by
  obtain ⟨c, hc, _, _, _, _, _, hgraphs⟩ :=
    intersection_spec (a := graph forked) (b := graph lopsided) wellFormed_forked truthful_forked
      wellFormed_lopsided truthful_lopsided
  obtain ⟨k, rfl, hk⟩ := hgraphs forked lopsided rfl rfl
  refine ⟨wellFormed_forked, truthful_forked, wellFormed_lopsided, truthful_lopsided, k, hc, hk, ?_⟩
  rw [Bool.eq_false_iff]
  exact fun h => Bool.false_ne_true (hk.flag_iff.1 h).1

/-! ## Complement and difference -/

/-- A graph of the words that an automaton rejects, deterministic as it claims to be. -/
structure Complemented (a : Automaton) (k : Graph) : Prop where
  wellFormed : k.WellFormed
  flag : k.deterministic = true
  isDeterministic : k.IsDeterministic
  accepts_iff : ∀ w, k.Accepts w ↔ ¬ a.Accepts w

theorem Complemented.proper {k : Graph} (hk : Complemented a k) : (graph k).Proper :=
  ⟨hk.wellFormed, fun _ => hk.isDeterministic⟩

/-- A run of the complement answers the contrary. -/
theorem Complemented.exists_run {k : Graph} (hk : Complemented a k) (ha : a.Proper) (w : Word) :
    ∃ r, a.run w = .ok r ∧ (graph k).run w = .ok !r := by
  obtain ⟨r, hr, hiff⟩ := run_spec ha.wellFormed ha.truthful w
  refine ⟨r, hr, hk.proper.run_eq ?_⟩
  rw [Bool.not_eq_true', ← Bool.not_eq_true, hiff]
  exact (hk.accepts_iff w).symm

theorem complemented_complement (ha : a.Proper) : Complemented a a.toGraph.complemented where
  wellFormed := (Graph.trimmed_trim _).wellFormed
  flag := a.toGraph.deterministic_complemented
  isDeterministic := Graph.isDeterministic_complemented ha.wellFormed.toGraph ha.truthful.toGraph
  accepts_iff _ := (Graph.accepts_complemented ha.wellFormed.toGraph ha.truthful.toGraph).trans
    (not_congr accepts_toGraph)

/-- A word that the complement of the complement accepts was accepted at first. -/
theorem Complemented.accepts_complement {k m : Graph} (hk : Complemented a k)
    (hm : Complemented (graph k) m) (w : Word) : m.Accepts w ↔ a.Accepts w := by
  rw [hm.accepts_iff]
  exact (not_congr (hk.accepts_iff w)).trans not_not

theorem exists_minus (ha : a.Proper) (hb : b.Proper) :
    ∃ m, a.minus b = .ok m ∧ m.Proper ∧ ∀ w, m.Accepts w ↔ a.Accepts w ∧ ¬ b.Accepts w := by
  obtain ⟨m, hm, hpm, hl⟩ := computes_minus ha hb
  refine ⟨m, hm, hpm, fun w => ?_⟩
  rw [← mem_language, hl]
  exact Iff.rfl

/-- The complement of an automaton is a deterministic graph of the words that are rejected, and its
complement has the words of the automaton again; the difference of two automata has the words that
the first accepts and the second rejects.  No check fails on the way, and runs answer so. -/
theorem complement_spec (ha : a.WellFormed) (ht : a.Truthful) (hb : b.WellFormed)
    (ht' : b.Truthful) :
    (∃ c, a.complement = .ok (graph c) ∧ Checked.complement a = .ok (graph c) ∧
      Complemented a c ∧ (∀ w, ∃ r, a.run w = .ok r ∧ (graph c).run w = .ok !r) ∧
      ∃ d, (graph c).complement = .ok (graph d) ∧ Checked.complement (graph c) = .ok (graph d) ∧
        (∀ w, d.Accepts w ↔ a.Accepts w) ∧ ∀ w, (graph d).run w = a.run w) ∧
    ∃ m, a.minus b = .ok m ∧ Checked.minus a b = .ok m ∧ m.WellFormed ∧ m.Truthful ∧
      (∀ w, m.Accepts w ↔ a.Accepts w ∧ ¬ b.Accepts w) ∧
      ∀ w, ∃ r s, a.run w = .ok r ∧ b.run w = .ok s ∧ m.run w = .ok (r && !s) := by
  have hpa : a.Proper := ⟨ha, ht⟩
  have hpb : b.Proper := ⟨hb, ht'⟩
  constructor
  · have hc := complemented_complement hpa
    have hd := complemented_complement hc.proper
    have heq := complement_eq ha
    have heq' := complement_eq hc.proper.wellFormed
    refine ⟨_, heq, (Checked.complement_eq hpa).trans heq, hc, hc.exists_run hpa, _, heq',
      (Checked.complement_eq hc.proper).trans heq', hc.accepts_complement hd, fun w => ?_⟩
    exact hpa.run_congr hd.proper (hc.accepts_complement hd w)
  · obtain ⟨m, hm, hpm, haccepts⟩ := exists_minus hpa hpb
    refine ⟨m, hm, (Checked.minus_eq hpa hpb).trans hm, hpm.wellFormed, hpm.truthful, haccepts,
      fun w => ?_⟩
    obtain ⟨r, hr, hra⟩ := run_spec ha ht w
    obtain ⟨s, hs, hsb⟩ := run_spec hb ht' w
    refine ⟨r, s, hr, hs, hpm.run_eq ?_⟩
    rw [Bool.and_eq_true, Bool.not_eq_true', ← Bool.not_eq_true, hra, hsb, haccepts]

theorem complement_spec_lopsided : (graph lopsided).WellFormed ∧ (graph lopsided).Truthful ∧
    (graph forked).WellFormed ∧ (graph forked).Truthful ∧
    (∃ c, (graph lopsided).complement = .ok (graph c) ∧ Complemented (graph lopsided) c) ∧
    ∃ m, (graph lopsided).minus (graph forked) = .ok m ∧
      ∀ w, m.Accepts w ↔ lopsided.Accepts w ∧ ¬ forked.Accepts w := by
  obtain ⟨⟨c, hc, _, hspec, _⟩, m, hm, _, _, _, haccepts, _⟩ :=
    complement_spec (a := graph lopsided) (b := graph forked) wellFormed_lopsided
      truthful_lopsided wellFormed_forked truthful_forked
  exact ⟨wellFormed_lopsided, truthful_lopsided, wellFormed_forked, truthful_forked,
    ⟨c, hc, hspec⟩, m, hm, haccepts⟩

/-! ## Union and option -/

/-- A word of a sum of languages is one of some of them. -/
theorem mem_sum_iff {ls : List (Language Char)} {w : Word} : w ∈ ls.sum ↔ ∃ l ∈ ls, w ∈ l := by
  induction ls with
  | nil => simp [Language.notMem_zero]
  | cons l ls ih => rw [List.sum_cons, Language.mem_add, ih, List.exists_mem_cons_iff]

/-- The union of any automata has the words that at least one of them has, none if there are no
automata; an option has the words of the automaton and the empty word.  No check fails on the way,
and runs answer so. -/
theorem union_spec {as : List Automaton} (has : ∀ a ∈ as, a.WellFormed ∧ a.Truthful)
    (hb : b.WellFormed) (ht : b.Truthful) :
    (∃ c, union as = .ok c ∧ Checked.union as = .ok c ∧ c.WellFormed ∧ c.Truthful ∧
      (∀ w, c.Accepts w ↔ ∃ a ∈ as, a.Accepts w) ∧
      (∀ w, ∃ r, c.run w = .ok r ∧ (r = true ↔ ∃ a ∈ as, a.run w = .ok true)) ∧
      (as = [] → ∀ w, ¬ c.Accepts w)) ∧
    ∃ c, b.optional = .ok c ∧ Checked.optional b = .ok c ∧ c.WellFormed ∧ c.Truthful ∧
      (∀ w, c.Accepts w ↔ b.Accepts w ∨ w = []) ∧
      ∀ w, ∃ r, c.run w = .ok r ∧ (r = true ↔ b.run w = .ok true ∨ w = []) := by
  have hproper : ∀ a ∈ as, a.Proper := fun a ha => ⟨(has a ha).1, (has a ha).2⟩
  have hpb : b.Proper := ⟨hb, ht⟩
  constructor
  · have hmem : ∀ w, w ∈ (as.map language).sum ↔ ∃ a ∈ as, a.Accepts w := by
      intro w
      simp [mem_sum_iff]
    have hruns : ∀ w, (∃ a ∈ as, a.run w = .ok true) ↔ ∃ a ∈ as, a.Accepts w := fun w =>
      exists_congr fun a => and_congr_right fun ha => (hproper a ha).run_eq_true_iff
    obtain ⟨c, hc, hwf, htr, haccepts, hrun⟩ := (computes_union hproper).answers hmem hruns
    refine ⟨c, hc, (Checked.union_eq hproper).trans hc, hwf, htr, haccepts, hrun, ?_⟩
    rintro rfl w hw
    obtain ⟨a, ha, -⟩ := (haccepts w).1 hw
    cases ha
  · obtain ⟨c, hc, hspec⟩ := (computes_optional hpb).answers (P := fun w => b.Accepts w ∨ w = [])
      (fun w => Iff.rfl) fun w => or_congr_left hpb.run_eq_true_iff
    exact ⟨c, hc, (Checked.optional_eq hpb).trans hc, hspec⟩

/-- A graph with a loop at its initial state, a graph without words and a word twice. -/
theorem union_spec_forked :
    (∀ a ∈ [graph forked, empty, singleton ['b'], singleton ['b']], a.WellFormed ∧ a.Truthful) ∧
    (graph forked).WellFormed ∧ (graph forked).Truthful ∧
    (∃ c, union [graph forked, empty, singleton ['b'], singleton ['b']] = .ok c ∧
      ∀ w, c.Accepts w ↔
        ∃ a ∈ [graph forked, empty, singleton ['b'], singleton ['b']], a.Accepts w) ∧
    ∃ c, (graph forked).optional = .ok c ∧ ∀ w, c.Accepts w ↔ forked.Accepts w ∨ w = [] := by
  have hword : (singleton ['b']).WellFormed ∧ (singleton ['b']).Truthful := ⟨trivial, trivial⟩
  have has : ∀ a ∈ [graph forked, empty, singleton ['b'], singleton ['b']],
      a.WellFormed ∧ a.Truthful := by
    simp only [List.forall_mem_cons]
    exact ⟨⟨wellFormed_forked, truthful_forked⟩, ⟨proper_empty.wellFormed, proper_empty.truthful⟩,
      hword, hword, fun _ h => absurd h List.not_mem_nil⟩
  obtain ⟨⟨c, hc, _, _, _, hunion, _⟩, d, hd, _, _, _, hoption, _⟩ :=
    union_spec (b := graph forked) has wellFormed_forked truthful_forked
  exact ⟨has, wellFormed_forked, truthful_forked, ⟨c, hc, hunion⟩, d, hd, hoption⟩

end Automaton

end RegLang
