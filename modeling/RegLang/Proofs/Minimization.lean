import RegLang.Minimize.Algorithm
import RegLang.Proofs.Canonical
import RegLang.Proofs.Endings
import RegLang.Proofs.MarkedClasses
import RegLang.Proofs.Proper
/-!
# Minimization

Refinement and marking end with faithful classes of one prepared graph, so they make the same
quotient; two reversals make a canonical graph.  Refinement leaves a graph alone whose initial
state only loops on every letter: it has a single state, which need not lead to acceptance.

* `Automaton.minimize_spec`: each way to minimize makes the smallest deterministic graph of the
  language.
* `Automaton.minimize_agree`: refinement and marking make one graph, reversals one like it.
* `Automaton.minimize_canonical`: reversals make one graph for one language.
-/

namespace RegLang

namespace Graph

variable {g h : Graph} {q : Nat} {w : Word}

/-! ## Smallest graphs -/

/-- A deterministic graph of the language of `g` in which all states but the initial one can
accept, and no two accept the same words. -/
structure Smallest (g h : Graph) : Prop where
  wellFormed : h.WellFormed
  accepts_iff : ∀ w, h.Accepts w ↔ g.Accepts w
  flag : h.deterministic = true
  isDeterministic : h.IsDeterministic
  live : ∀ q, h.IsReachable q → q = h.initial ∨ ∃ w, h.AcceptsFrom q w
  distinct : h.Distinct

theorem Smallest.of_minimal (hh : h.Minimal) (ht : h.Trimmed) (hf : h.deterministic = true)
    (hl : ∀ w, h.Accepts w ↔ g.Accepts w) : Smallest g h where
  wellFormed := ht.wellFormed
  accepts_iff := hl
  flag := hf
  isDeterministic := hh.isDeterministic
  live _ hq := hh.noDeadEnds.eq_initial_or hq
  distinct := hh.distinct

theorem Smallest.stateCount_le (hh : Smallest g h) {k : Graph} (hk : k.IsDeterministic)
    (hl : ∀ w, k.Accepts w ↔ g.Accepts w) : h.stateCount ≤ k.stateCount :=
  hh.distinct.stateCount_le hh.isDeterministic hh.live hk fun w =>
    (hh.accepts_iff w).trans (hl w).symm

/-- A smallest graph that accepts a word has no state that leads nowhere. -/
theorem Smallest.smallestOf {P : Word → Prop} (hh : Smallest g h) (hl : ∀ w, g.Accepts w ↔ P w)
    (hne : ∃ w, P w) : SmallestOf P h := by
  have hlh : ∀ w, h.Accepts w ↔ P w := fun w => (hh.accepts_iff w).trans (hl w)
  have hsome : ∃ w, h.Accepts w := hne.imp fun w hw => (hlh w).2 hw
  exact hh.distinct.smallestOf hh.wellFormed hh.flag hh.isDeterministic hlh fun q hq =>
    live_of_accepts hsome (hh.live q hq)

/-! ## The single state that loops -/

theorem loopsOnAny_iff : g.loopsOnAny = true ↔ ∃ t, (g.state g.initial).transitions = [t] ∧
    t.target = g.initial ∧ t.lo = Alphabet.first ∧ t.hi = Alphabet.last := by
  unfold loopsOnAny
  split
  · next t ht =>
    rw [ht]
    simp [and_assoc]
  · next hne =>
    constructor
    · intro h
      cases h
    · rintro ⟨t, ht, _⟩
      exact absurd ht (hne t)

theorem eq_initial_of_loopsOnAny (hl : g.loopsOnAny = true) (hq : g.IsReachable q) :
    q = g.initial := by
  obtain ⟨t, ht, htarget, _⟩ := loopsOnAny_iff.1 hl
  refine hq.induct (P := fun q => q = g.initial) rfl ?_
  rintro p c r _ rfl hr
  obtain ⟨u, hu, _, rfl⟩ := State.mem_stepAll.1 hr
  rw [ht, List.mem_singleton] at hu
  rw [hu, htarget]

theorem smallest_of_loopsOnAny (hg : g.WellFormed) (ht : g.Truthful)
    (hl : g.determinize.loopsOnAny = true) : Smallest g g.determinize where
  wellFormed := hg.determinize
  accepts_iff _ := accepts_determinize hg
  flag := g.deterministic_determinize
  isDeterministic := isDeterministic_determinize ht
  live _ hq := .inl (eq_initial_of_loopsOnAny hl hq)
  distinct _ _ hp hq _ :=
    (eq_initial_of_loopsOnAny hl hp).trans (eq_initial_of_loopsOnAny hl hq).symm

/-! ## Quotients -/

theorem trimmed_quotient (t : Graph) (k : Classes) : (t.quotient k).Trimmed :=
  trimmed_trim _

theorem flag_quotient (t : Graph) (k : Classes) : (t.quotient k).deterministic = true :=
  deterministic_trim _

/-- The classes of the prepared graph that marking finds. -/
def markedClasses (g : Graph) : Classes :=
  Marking.classes g.prepareTotal (Marking.marks g.prepareTotal)

theorem faithful_markedClasses (hg : g.WellFormed) (ht : g.Truthful) :
    g.markedClasses.Faithful g.prepareTotal :=
  Marking.faithful_classes (prepared_prepareTotal hg ht)

theorem minimal_quotient (hg : g.WellFormed) (ht : g.Truthful) :
    (g.prepareTotal.quotient g.markedClasses).Minimal :=
  (faithful_markedClasses hg ht).minimal_quotient (prepared_prepareTotal hg ht)

theorem accepts_quotient (hg : g.WellFormed) (ht : g.Truthful) :
    (g.prepareTotal.quotient g.markedClasses).Accepts w ↔ g.Accepts w :=
  ((faithful_markedClasses hg ht).accepts_quotient (prepared_prepareTotal hg ht)).trans
    (accepts_prepareTotal hg)

theorem smallest_quotient (hg : g.WellFormed) (ht : g.Truthful) :
    Smallest g (g.prepareTotal.quotient g.markedClasses) :=
  .of_minimal (minimal_quotient hg ht) (trimmed_quotient _ _) (flag_quotient _ _) fun _ =>
    accepts_quotient hg ht

/-- Refinement makes the quotient that marking makes, unless the graph is left alone. -/
theorem minimize_hopcroft (hg : g.WellFormed) (ht : g.Truthful)
    (hl : g.determinize.loopsOnAny = false) :
    g.minimize .hopcroft = .ok (g.prepareTotal.quotient g.markedClasses) := by
  have hprep := prepared_prepareTotal hg ht
  obtain ⟨p, hp, hex, hun, hiff⟩ := Refinement.exists_partition hprep
  have hclasses : Refinement.classes g.prepareTotal p = g.markedClasses :=
    (Refinement.faithful_classes hprep hex hun hiff).unique (faithful_markedClasses hg ht)
  show Refinement.minimize g = _
  unfold Refinement.minimize
  dsimp only
  rw [if_neg (by rw [hl]; exact Bool.false_ne_true), prepareTotal_determinize, hp, ← hclasses]
  rfl

theorem trimmed_reverse_reverse (g : Graph) : g.reverseDeterminize.reverseDeterminize.Trimmed :=
  trimmed_trim g.reverseDeterminize.reversedSubsets

theorem smallest_reverse_reverse (hg : g.WellFormed) :
    Smallest g g.reverseDeterminize.reverseDeterminize :=
  .of_minimal g.minimal_reverse_reverse g.trimmed_reverse_reverse (deterministic_trim _) fun _ =>
    accepts_reverse_reverse hg

/-- Each way to minimize ends with a smallest graph, which is trimmed unless refinement left it alone
because its initial state only loops on every letter. -/
theorem exists_minimize_trimmed (m : Minimization) (hg : g.WellFormed) (ht : g.Truthful) :
    ∃ h, g.minimize m = .ok h ∧ Smallest g h ∧ (h.loopsOnAny = true ∨ h.Trimmed) := by
  have hquotient := trimmed_quotient g.prepareTotal g.markedClasses
  cases m with
  | hopcroft =>
    cases hl : g.determinize.loopsOnAny with
    | true =>
      refine ⟨g.determinize, ?_, smallest_of_loopsOnAny hg ht hl, .inl hl⟩
      show Refinement.minimize g = _
      unfold Refinement.minimize
      dsimp only
      rw [if_pos hl]
    | false => exact ⟨_, minimize_hopcroft hg ht hl, smallest_quotient hg ht, .inr hquotient⟩
  | brzozowski => exact ⟨_, rfl, smallest_reverse_reverse hg, .inr g.trimmed_reverse_reverse⟩
  | huffman => exact ⟨_, rfl, smallest_quotient hg ht, .inr hquotient⟩

/-- Each way to minimize ends with a smallest graph. -/
theorem exists_minimize (m : Minimization) (hg : g.WellFormed) (ht : g.Truthful) :
    ∃ h, g.minimize m = .ok h ∧ Smallest g h := by
  obtain ⟨h, hm, hh, -⟩ := exists_minimize_trimmed m hg ht
  exact ⟨h, hm, hh⟩

end Graph

namespace Automaton

open RegLang.Graph (Isomorphism)

variable {a : Automaton} {g h : Graph}

theorem minimize_graph (m : Minimization) (hg : g.WellFormed) :
    (graph g).minimize m = (g.minimize m).map graph := by
  show (g.ensureIntact.bind fun _ => (g.minimize m).map graph) = _
  rw [hg.ensureIntact]
  rfl

/-- Each way to minimize keeps the language. -/
theorem computes_minimize (m : Minimization) (ha : a.Proper) :
    Computes (a.minimize m) a.language := by
  cases a with
  | singleton w => exact Computes.of_ok ha rfl
  | graph g =>
    have hg : g.WellFormed := ha.wellFormed
    obtain ⟨h, hm, hh⟩ := Graph.exists_minimize m hg ha.truthful
    rw [minimize_graph m hg, hm]
    refine Computes.of_ok (a := .graph h) ⟨hh.wellFormed, fun _ => hh.isDeterministic⟩ ?_
    ext w
    exact hh.accepts_iff w

/-! ## What minimization makes -/

/-- Each way to minimize ends with a deterministic graph of the same language, without states from
which acceptance is unreachable other than the initial one and without two states that accept the
same words; so no deterministic graph of the language has fewer reachable states.  Even if nothing
bounds the loops of the minimization, they end, with this graph and no other. -/
theorem minimize_spec (m : Minimization) (hg : g.WellFormed) (ht : g.Truthful) :
    ∃ h : Graph, (graph g).minimize m = .ok (.graph h) ∧
      (∀ w, (graph h).run w = (graph g).run w) ∧ (∀ w, h.Accepts w ↔ g.Accepts w) ∧
      h.deterministic = true ∧ h.IsDeterministic ∧
      (∀ q, h.IsReachable q → q = h.initial ∨ ∃ w, h.AcceptsFrom q w) ∧
      (∀ p q, h.IsReachable p → h.IsReachable q →
        (∀ w, h.AcceptsFrom p w ↔ h.AcceptsFrom q w) → p = q) ∧
      (∀ k : Graph, k.IsDeterministic → (∀ w, k.Accepts w ↔ g.Accepts w) →
        h.stateCount ≤ k.stateCount) ∧
      ∀ k, g.MinimizesTo m k ↔ k = h := by
  obtain ⟨h, hm, hh⟩ := Graph.exists_minimize m hg ht
  refine ⟨h, ?_, ?_, hh.accepts_iff, hh.flag, hh.isDeterministic, hh.live, hh.distinct,
    fun k hk hl => hh.stateCount_le hk hl, fun k => Graph.minimizesTo_iff hg ht hm⟩
  · rw [minimize_graph m hg, hm]
    rfl
  · intro w
    obtain ⟨b, hb, hbw⟩ := Graph.run_spec hg ht w
    obtain ⟨b', hb', hbw'⟩ := Graph.run_spec hh.wellFormed (fun _ => hh.isDeterministic) w
    have he : b' = b := by
      rw [Bool.eq_iff_iff, hbw, hbw', hh.accepts_iff]
    show h.run w = g.run w
    rw [hb, hb', he]

/-- Two overlapping transitions of one state, and a state that nothing leads to. -/
def forked : Graph where
  states := #[{ transitions := [.single 'a' 0, .between 'a' 'b' 1] }, { accept := true },
    { accept := true, transitions := [.onAny 2] }]
  deterministic := false

theorem wellFormed_forked : forked.WellFormed := ⟨by decide, by decide⟩

theorem truthful_forked : forked.Truthful := fun h => by cases h

theorem minimize_spec_forked : forked.WellFormed ∧ forked.Truthful ∧
    ∃ h : Graph, (graph forked).minimize .hopcroft = .ok (.graph h) ∧
      (∀ w, (graph h).run w = (graph forked).run w) ∧
      (∀ k : Graph, k.IsDeterministic → (∀ w, k.Accepts w ↔ forked.Accepts w) →
        h.stateCount ≤ k.stateCount) ∧
      ∀ k, forked.MinimizesTo .hopcroft k ↔ k = h := by
  have ht : forked.Truthful := fun h => by cases h
  obtain ⟨h, hm, hr, _, _, _, _, _, hk, hends⟩ := minimize_spec .hopcroft wellFormed_forked ht
  exact ⟨wellFormed_forked, ht, h, hm, hr, hk, hends⟩

/-- Unless the determinized initial state only loops on every letter, refinement and marking make
one and the same graph, and reversals a graph that differs in numbering alone. -/
theorem minimize_agree (hg : g.WellFormed) (ht : g.Truthful)
    (hl : g.determinize.loopsOnAny = false) :
    ∃ h k : Graph, (graph g).minimize .hopcroft = .ok (.graph h) ∧
      (graph g).minimize .huffman = .ok (.graph h) ∧
      (graph g).minimize .brzozowski = .ok (.graph k) ∧
      (∀ q < h.size, h.IsReachable q) ∧ (∀ q < k.size, k.IsReachable q) ∧
      (∃ f, Isomorphism f h k) ∧ h.transitionCount = k.transitionCount := by
  have hquotient := Graph.trimmed_quotient g.prepareTotal g.markedClasses
  have hreverse := Graph.trimmed_trim g.reverseDeterminize.reversedSubsets
  obtain ⟨f, hf⟩ := (Graph.minimal_quotient hg ht).exists_isomorphism g.minimal_reverse_reverse
    hquotient hreverse fun w =>
      (Graph.accepts_quotient hg ht).trans (Graph.accepts_reverse_reverse hg).symm
  refine ⟨_, g.reverseDeterminize.reverseDeterminize, ?_, ?_, ?_, hquotient.reachable,
    hreverse.reachable, ⟨f, hf⟩, hf.transitionCount_eq⟩
  · rw [minimize_graph _ hg, Graph.minimize_hopcroft hg ht hl]
    rfl
  · rw [minimize_graph _ hg]
    rfl
  · rw [minimize_graph _ hg]
    rfl

theorem minimize_agree_ofWord : (Graph.ofWord ['a']).WellFormed ∧ (Graph.ofWord ['a']).Truthful ∧
    (Graph.ofWord ['a']).determinize.loopsOnAny = false ∧
      ∃ h : Graph, (graph (.ofWord ['a'])).minimize .hopcroft = .ok (.graph h) ∧
        (graph (.ofWord ['a'])).minimize .huffman = .ok (.graph h) := by
  have hg := Graph.wellFormed_ofWord ['a']
  have ht : (Graph.ofWord ['a']).Truthful := fun _ => Graph.isDeterministic_ofWord ['a']
  have hl : (Graph.ofWord ['a']).determinize.loopsOnAny = false := by decide
  obtain ⟨h, _, h1, h2, _⟩ := minimize_agree hg ht hl
  exact ⟨hg, ht, hl, h, h1, h2⟩

/-- Reversals make one and the same graph of all graphs of one language. -/
theorem minimize_canonical (hg : g.WellFormed) (hh : h.WellFormed)
    (hl : ∀ w, g.Accepts w ↔ h.Accepts w) :
    ∃ m : Graph, (graph g).minimize .brzozowski = .ok (.graph m) ∧
      (graph h).minimize .brzozowski = .ok (.graph m) ∧ m.initial = 0 := by
  refine ⟨g.reverseDeterminize.reverseDeterminize, ?_, ?_, ?_⟩
  · rw [minimize_graph _ hg]
    rfl
  · rw [minimize_graph _ hh, Graph.reverse_reverse_eq hg hh hl]
    rfl
  · exact (Graph.trimmed_trim g.reverseDeterminize.reversedSubsets).initial_eq

theorem minimize_canonical_totalize : (Graph.ofWord ['a']).WellFormed ∧
    (Graph.ofWord ['a']).totalize.WellFormed ∧
      (∀ w, (Graph.ofWord ['a']).Accepts w ↔ (Graph.ofWord ['a']).totalize.Accepts w) ∧
      ∃ m : Graph, (graph (.ofWord ['a'])).minimize .brzozowski = .ok (.graph m) ∧
        (graph (Graph.ofWord ['a']).totalize).minimize .brzozowski = .ok (.graph m) := by
  have hg := Graph.wellFormed_ofWord ['a']
  have hl : ∀ w, (Graph.ofWord ['a']).Accepts w ↔ (Graph.ofWord ['a']).totalize.Accepts w :=
    fun w => (Graph.acceptsFrom_totalize hg (Graph.isReachable_initial _)).symm
  obtain ⟨m, h1, h2, _⟩ := minimize_canonical hg hg.totalize hl
  exact ⟨hg, hg.totalize, hl, m, h1, h2⟩

end Automaton

end RegLang
