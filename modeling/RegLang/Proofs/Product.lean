import Mathlib.Data.List.ProdSigma
import Mathlib.Order.ConditionallyCompleteLattice.Basic
import RegLang.Automaton.Product
import RegLang.Proofs.Overlaps
import RegLang.Proofs.Proper
import RegLang.Proofs.Subsets
/-!
# Intersection, complement and difference

Pairs of states step where both of their states do, so a pair accepts what both accept.  In a
deterministic and total graph every word leads to exactly one state, so to turn the accept flags
round is to turn acceptance round.

* `accepts_pairs`: what a pair of states accepts.
* `acceptsFrom_flipAccept`: what a state accepts once the flags are turned round.
* `accepts_complemented`: the words of the graph that complementing makes.
* `computes_intersection`, `computes_complement`, `computes_minus`.
-/

namespace RegLang

namespace Graph

variable {g h : Graph} {p q r : Nat} {c : Char} {w : Word}

/-! ## Pairs of states -/

/-- The row of a pair of states. -/
def pairRow (g h : Graph) : StatePair → List (Char × Char × Nat × Nat) :=
  meetsAt g.sortedTable h.sortedTable

theorem getD_sortedTable (g : Graph) (q : Nat) :
    g.sortedTable.getD q [] = Transition.sortByLower (g.state q).transitions := by
  rw [state_eq_getElem?]
  show (g.states.map _).getD q [] = _
  rw [Array.getD_eq_getD_getElem?, Array.getElem?_map]
  cases g.states[q]? with
  | none => exact List.mergeSort_nil.symm
  | some s => rfl

theorem mem_pairRow {x : StatePair} {e : Char × Char × Nat × Nat} : e ∈ g.pairRow h x ↔
    ∃ t ∈ (g.state x.1).transitions, ∃ u ∈ (h.state x.2).transitions,
      Transition.Meet t u ∧ Transition.common t u = e := by
  unfold pairRow meetsAt
  rw [getD_sortedTable, getD_sortedTable, Transition.mem_meets
    (Transition.pairwise_sortByLower _) (Transition.pairwise_sortByLower _)]
  simp only [Transition.mem_sortByLower]

theorem ordered_pairRow (g h : Graph) : Ordered (g.pairRow h) := by
  intro x e he
  obtain ⟨t, _, u, _, hm, rfl⟩ := mem_pairRow.1 he
  exact hm.common_le

/-- Whether both states of a pair accept. -/
def acceptsBoth (g h : Graph) (x : StatePair) : Bool := (g.state x.1).accept && (h.state x.2).accept

/-- The pairs of states of two graphs. -/
abbrev pairs (g h : Graph) : Machine StatePair := .ofRows (g.acceptsBoth h) (g.pairRow h)

/-- A pair steps where both of its states do. -/
theorem pairs_step_iff {x y : StatePair} : (g.pairs h).step x c y ↔
    y.1 ∈ (g.state x.1).stepAll c ∧ y.2 ∈ (h.state x.2).stepAll c := by
  constructor
  · rintro ⟨e, he, hc, rfl⟩
    obtain ⟨t, ht, u, hu, _, rfl⟩ := mem_pairRow.1 he
    obtain ⟨hct, hcu⟩ := Transition.mem_common_iff.1 hc
    exact ⟨State.mem_stepAll.2 ⟨t, ht, hct, rfl⟩, State.mem_stepAll.2 ⟨u, hu, hcu, rfl⟩⟩
  · rintro ⟨h1, h2⟩
    obtain ⟨t, ht, hct, ht'⟩ := State.mem_stepAll.1 h1
    obtain ⟨u, hu, hcu, hu'⟩ := State.mem_stepAll.1 h2
    have hm : Transition.Meet t u := Transition.meet_iff.2 ⟨c, hct, hcu⟩
    exact ⟨_, mem_pairRow.2 ⟨t, ht, u, hu, hm, rfl⟩, Transition.mem_common_iff.2 ⟨hct, hcu⟩,
      Prod.ext ht' hu'⟩

theorem accepts_pairs {x : StatePair} :
    (g.pairs h).Accepts x w ↔ g.AcceptsFrom x.1 w ∧ h.AcceptsFrom x.2 w := by
  induction w generalizing x with
  | nil =>
    rw [Machine.accepts_nil_iff, acceptsFrom_nil_iff, acceptsFrom_nil_iff]
    exact Bool.and_eq_true _ _ ▸ Iff.rfl
  | cons c w ih =>
    rw [Machine.accepts_cons_iff, acceptsFrom_cons_iff, acceptsFrom_cons_iff]
    constructor
    · rintro ⟨y, hy, hw⟩
      obtain ⟨h1, h2⟩ := pairs_step_iff.1 hy
      obtain ⟨hw1, hw2⟩ := ih.1 hw
      exact ⟨⟨y.1, h1, hw1⟩, y.2, h2, hw2⟩
    · rintro ⟨⟨p, hp, hw1⟩, q, hq, hw2⟩
      exact ⟨(p, q), pairs_step_iff.2 ⟨hp, hq⟩, ih.2 ⟨hw1, hw2⟩⟩

/-! ## Discovered pairs -/

/-- Pairs of places that are mentioned lead to such pairs. -/
theorem closedUnder_mentioned (g h : Graph) :
    ClosedUnder (g.pairRow h) (g.mentioned ×ˢ h.mentioned) := by
  intro x _ e he
  obtain ⟨t, ht, u, hu, _, rfl⟩ := mem_pairRow.1 he
  exact List.mem_product.2
    ⟨g.targets_subset_mentioned x.1 (State.mem_targets.2 ⟨t, ht, rfl⟩),
      h.targets_subset_mentioned x.2 (State.mem_targets.2 ⟨u, hu, rfl⟩)⟩

theorem initial_mem_mentioned (g h : Graph) :
    (g.initial, h.initial) ∈ g.mentioned ×ˢ h.mentioned :=
  List.mem_product.2 ⟨List.mem_cons_self, List.mem_cons_self⟩

theorem length_mentioned_product (g h : Graph) :
    (g.mentioned ×ˢ h.mentioned).length ≤ (g.edgeCount + 1) * (h.edgeCount + 1) := by
  rw [List.length_product, length_mentioned, length_mentioned]

/-- Both states of a discovered pair are reachable. -/
theorem isReachable_of_mem_productPairs {x : StatePair} (hx : x ∈ g.productPairs h) :
    g.IsReachable x.1 ∧ h.IsReachable x.2 := by
  refine (discovered_of_mem_explore hx).induct
    (P := fun x => g.IsReachable x.1 ∧ h.IsReachable x.2) ?_ ?_
  · intro s hs
    rw [List.mem_singleton.1 hs]
    exact ⟨g.isReachable_initial, h.isReachable_initial⟩
  · rintro x y ⟨h1, h2⟩ hy
    obtain ⟨e, he, rfl⟩ := List.mem_map.1 hy
    obtain ⟨t, ht, u, hu, _, rfl⟩ := mem_pairRow.1 he
    exact ⟨h1.target (State.mem_targets.2 ⟨t, ht, rfl⟩),
      h2.target (State.mem_targets.2 ⟨u, hu, rfl⟩)⟩

theorem inside_productPairs (hg : g.WellFormed) (hh : h.WellFormed) :
    ((g.productPairs h).all fun p => p.1 < g.size && p.2 < h.size) = true := by
  rw [List.all_eq_true]
  intro x hx
  obtain ⟨h1, h2⟩ := isReachable_of_mem_productPairs hx
  rw [Bool.and_eq_true]
  exact ⟨decide_eq_true (hg.lt_of_isReachable h1), decide_eq_true (hh.lt_of_isReachable h2)⟩

/-- The graph of the discovered pairs before it is trimmed. -/
def pairGraph (g h : Graph) : Graph :=
  (unfold (g.acceptsBoth h) (g.pairRow h) ((g.edgeCount + 1) * (h.edgeCount + 1))
    (g.initial, h.initial)).setDeterministic (g.deterministic && h.deterministic)

theorem productOn_eq (g h : Graph) : g.productOn h (g.productPairs h) = (g.pairGraph h).trim := rfl

theorem accepts_pairGraph : (g.pairGraph h).Accepts w ↔ g.Accepts w ∧ h.Accepts w := by
  unfold pairGraph
  refine (acceptsFrom_congr fun _ => state_setDeterministic _ _ _).trans ?_
  refine (accepts_unfold (ordered_pairRow g h) (initial_mem_mentioned g h)
    (closedUnder_mentioned g h) (length_mentioned_product g h)).trans ?_
  exact accepts_pairs

/-- The pairs of two deterministic graphs make a deterministic graph. -/
theorem isDeterministic_pairGraph (hg : g.IsDeterministic) (hh : h.IsDeterministic) :
    (g.pairGraph h).IsDeterministic := by
  intro q hq
  rw [pairGraph, isReachable_congr (fun _ => state_setDeterministic _ _ _) rfl] at hq
  refine isDeterministic_unfold (ordered_pairRow g h) (initial_mem_mentioned g h)
    (closedUnder_mentioned g h) (length_mentioned_product g h) ?_ q hq
  intro x hx
  obtain ⟨h1, h2⟩ := isReachable_of_mem_productPairs hx
  unfold pairRow meetsAt
  rw [getD_sortedTable, getD_sortedTable]
  exact (Transition.pairwise_meets (Transition.ascending_sortByLower (hg x.1 h1))
    (Transition.ascending_sortByLower (hh x.2 h2))).imp .inl

/-- The product is flagged if both graphs are. -/
theorem deterministic_product (g h : Graph) :
    (g.pairGraph h).trim.deterministic = (g.deterministic && h.deterministic) :=
  deterministic_trim _

theorem truthful_product (hg : g.Truthful) (hh : h.Truthful) : (g.pairGraph h).trim.Truthful := by
  intro hflag
  rw [deterministic_product] at hflag
  obtain ⟨h1, h2⟩ := Bool.and_eq_true_iff.1 hflag
  exact (isDeterministic_pairGraph (hg h1) (hh h2)).trim

/-! ## Accept flags turned round -/

theorem state_flipAccept (hq : g.IsReachable q) (hlt : q < g.size) :
    g.flipAccept.state q = { g.state q with accept := !(g.state q).accept } := by
  unfold flipAccept
  rw [state_modifyAll_of_lt hlt, if_pos (mem_reachable_iff.2 hq)]

theorem stepAll_flipAccept (hg : g.WellFormed) (hq : g.IsReachable q) :
    (g.flipAccept.state q).stepAll c = (g.state q).stepAll c := by
  rw [state_flipAccept hq (hg.lt_of_isReachable hq)]
  rfl

/-- Where every letter leads on to exactly one state, to turn the flags round is to turn
acceptance round. -/
theorem acceptsFrom_flipAccept (hg : g.WellFormed) (hd : g.IsDeterministic)
    (htotal : ∀ q, g.IsReachable q → ∀ c, ∃ r, r ∈ (g.state q).stepAll c) (hq : g.IsReachable q) :
    g.flipAccept.AcceptsFrom q w ↔ ¬ g.AcceptsFrom q w := by
  induction w generalizing q with
  | nil =>
    rw [acceptsFrom_nil_iff, acceptsFrom_nil_iff, state_flipAccept hq (hg.lt_of_isReachable hq)]
    simp
  | cons c w ih =>
    obtain ⟨r, hr⟩ := htotal q hq c
    rw [hd.acceptsFrom_cons_iff hq hr, ← ih (hq.stepAll hr), acceptsFrom_cons_iff,
      stepAll_flipAccept hg hq]
    constructor
    · rintro ⟨r', hr', hw⟩
      rwa [(hd q hq).stepAll_unique hr hr']
    · exact fun hw => ⟨r, hr, hw⟩

theorem isReachable_of_flipAccept (hg : g.WellFormed) (hq : g.flipAccept.IsReachable q) :
    g.IsReachable q := by
  refine hq.induct (P := g.IsReachable) g.isReachable_initial ?_
  intro p c r _ hp hr
  rw [stepAll_flipAccept hg hp] at hr
  exact hp.stepAll hr

theorem IsDeterministic.flipAccept (hg : g.WellFormed) (hd : g.IsDeterministic) :
    g.flipAccept.IsDeterministic := by
  intro q hq
  have hreach := isReachable_of_flipAccept hg hq
  rw [state_flipAccept hreach (hg.lt_of_isReachable hreach)]
  exact hd q hreach

/-- The graph of all other words. -/
def complemented (g : Graph) : Graph := g.determinize.totalize.flipAccept.trim

theorem deterministic_complemented (g : Graph) : g.complemented.deterministic = true := by
  unfold complemented
  rw [deterministic_trim]
  exact g.deterministic_determinize

theorem isDeterministic_complemented (hg : g.WellFormed) (ht : g.Truthful) :
    g.complemented.IsDeterministic := by
  have htotal := (isDeterministic_determinize ht).totalize hg.determinize
  exact (htotal.flipAccept hg.determinize.totalize).trim

theorem accepts_complemented (hg : g.WellFormed) (ht : g.Truthful) :
    g.complemented.Accepts w ↔ ¬ g.Accepts w := by
  have hd := hg.determinize
  have htotal := (isDeterministic_determinize ht).totalize hd
  have hstep : ∀ q, g.determinize.totalize.IsReachable q → ∀ c,
      ∃ r, r ∈ (g.determinize.totalize.state q).stepAll c :=
    fun q hq c => exists_step_totalize hd hq c
  calc g.complemented.Accepts w
      ↔ g.determinize.totalize.flipAccept.Accepts w := accepts_trim
    _ ↔ ¬ g.determinize.totalize.Accepts w :=
      acceptsFrom_flipAccept hd.totalize htotal hstep g.determinize.totalize.isReachable_initial
    _ ↔ ¬ g.determinize.Accepts w :=
      not_congr (acceptsFrom_totalize hd g.determinize.isReachable_initial)
    _ ↔ ¬ g.Accepts w := not_congr (accepts_determinize hg)

end Graph

namespace Automaton

variable {a b : Automaton} {w : Word}

/-! ## Intersection -/

/-- A word that is kept exactly if it is in a language is all they have in common. -/
theorem computes_kept {l : Language Char} {p : Prop} [Decidable p] (hp : p ↔ w ∈ l) :
    Computes (.ok (if p then singleton w else empty)) ((singleton w).language ⊓ l) := by
  by_cases h : p
  · have hsub : (singleton w).language ≤ l := by
      rintro v rfl
      exact hp.1 h
    rw [if_pos h, inf_eq_left.2 hsub]
    exact Computes.of_ok (proper_singleton w) rfl
  · have hnone : (singleton w).language ⊓ l = 0 := by
      ext v
      constructor
      · rintro ⟨rfl, hv⟩
        exact absurd (hp.2 hv) h
      · exact fun hv => absurd hv (Language.notMem_zero v)
    rw [if_neg h, hnone]
    exact computes_empty

theorem computes_keepWord (ha : a.Proper) (w : Word) :
    Computes (keepWord w a) ((singleton w).language ⊓ a.language) := by
  obtain ⟨r, hr, hiff⟩ := run_spec ha.wellFormed ha.truthful w
  unfold keepWord
  rw [hr]
  exact computes_kept hiff

/-- The product of graphs whose places are in their arenas is the trimmed graph of the discovered
pairs. -/
theorem intersection_graph {g h : Graph} (hg : g.WellFormed) (hh : h.WellFormed) :
    (graph g).intersection (graph h) = .ok (.graph (g.pairGraph h).trim) := by
  unfold intersection
  dsimp only
  rw [if_pos (Graph.inside_productPairs hg hh), Graph.productOn_eq]

/-- The words of two proper automata. -/
theorem computes_intersection (ha : a.Proper) (hb : b.Proper) :
    Computes (a.intersection b) (a.language ⊓ b.language) := by
  match a, b, ha, hb with
  | .singleton w, b, _, hb => exact computes_keepWord hb w
  | .graph g, .singleton w, ha, _ =>
    rw [inf_comm]
    exact computes_keepWord ha w
  | .graph g, .graph h, ha, hb =>
    rw [intersection_graph ha.wellFormed hb.wellFormed]
    refine Computes.of_ok
      ⟨(Graph.trimmed_trim _).wellFormed, Graph.truthful_product ha.truthful hb.truthful⟩ ?_
    ext w
    exact Graph.accepts_trim.trans Graph.accepts_pairGraph

/-! ## Complement -/

theorem determinize_graph {g : Graph} (hg : g.WellFormed) :
    (graph g).determinize = .ok (.graph g.determinize) := by
  unfold determinize
  by_cases hd : g.deterministic = true
  · rw [Graph.determinize_of_deterministic hd]
    exact if_pos hd
  · show (if g.deterministic = true then _ else mapGraph Graph.determinize (.graph g)) = _
    rw [if_neg hd]
    unfold mapGraph
    dsimp only
    rw [hg.ensureIntact]
    rfl

/-- Determinizing an automaton determinizes its graph; that of a single word stays as it is. -/
theorem exists_determinize (ha : a.WellFormed) :
    ∃ d, a.determinize = .ok d ∧ d.toGraph = a.toGraph.determinize := by
  cases a with
  | singleton w => exact ⟨.singleton w, rfl, (Graph.determinize_of_deterministic rfl).symm⟩
  | graph g => exact ⟨.graph g.determinize, determinize_graph ha, rfl⟩

theorem totalize_eq_ok (ha : a.toGraph.WellFormed) :
    a.totalize = .ok (.graph a.toGraph.totalize) := by
  show (a.toGraph.ensureIntact.map fun _ => graph a.toGraph.totalize) = _
  rw [ha.ensureIntact]
  rfl

theorem complement_eq (ha : a.WellFormed) :
    a.complement = .ok (.graph a.toGraph.complemented) := by
  obtain ⟨d, hd, he⟩ := exists_determinize ha
  have htotalize : d.totalize = .ok (.graph a.toGraph.determinize.totalize) := by
    rw [totalize_eq_ok (he ▸ ha.toGraph.determinize), he]
  unfold complement
  rw [hd]
  show (d.totalize.bind _) = _
  rw [htotalize]
  rfl

/-- The words that are not accepted by a proper automaton. -/
theorem computes_complement (ha : a.Proper) : Computes a.complement a.languageᶜ := by
  have hg := ha.wellFormed.toGraph
  have ht := ha.truthful.toGraph
  rw [complement_eq ha.wellFormed]
  refine Computes.of_ok
    ⟨(Graph.trimmed_trim _).wellFormed, fun _ => Graph.isDeterministic_complemented hg ht⟩ ?_
  ext w
  exact (Graph.accepts_complemented hg ht).trans (not_congr accepts_toGraph)

/-! ## Difference -/

open Classical in
/-- The words of one proper automaton that are not words of another. -/
theorem computes_minus (ha : a.Proper) (hb : b.Proper) :
    Computes (a.minus b) (a.language ⊓ b.languageᶜ) := by
  unfold minus
  rw [ha.isEmpty_eq, hb.isEmpty_eq]
  by_cases hempty : a.language = 0
  · have hzero : a.language ⊓ b.languageᶜ = 0 := by
      rw [hempty]
      exact bot_inf_eq _
    rw [hzero, decide_eq_true hempty]
    exact computes_empty
  rw [decide_eq_false hempty]
  by_cases hempty' : b.language = 0
  · have hall : a.language ⊓ b.languageᶜ = a.language := by
      rw [hempty']
      exact inf_eq_left.2 fun w _ => Language.notMem_zero w
    rw [hall, decide_eq_true hempty']
    exact Computes.of_ok ha rfl
  rw [decide_eq_false hempty']
  cases a with
  | singleton w =>
    obtain ⟨r, hr, hiff⟩ := run_spec hb.wellFormed hb.truthful w
    change Computes ((b.run w).bind fun accepted =>
      .ok (if accepted = true then empty else singleton w)) _
    rw [hr]
    change Computes (.ok (if r = true then empty else singleton w)) _
    rw [← ite_not]
    exact computes_kept (not_congr hiff)
  | graph g =>
    obtain ⟨c, hc, hproper, hl⟩ := computes_complement hb
    change Computes (b.complement.bind fun c => (graph g).intersection c) _
    rw [hc, ← hl]
    exact computes_intersection ha hproper

end Automaton

end RegLang
