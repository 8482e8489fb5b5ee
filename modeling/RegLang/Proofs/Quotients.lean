import RegLang.Minimize.Quotient
import RegLang.Proofs.Minimality
import RegLang.Proofs.Subsets
/-!
# Quotients

Classes are faithful if they hold together exactly the states that accept the same words and are
numbered in the order of their first states.  That leaves one choice only, and the quotient by
faithful classes is the minimal graph.

* `Faithful.unique`: faithful classes of one graph are equal.
* `Faithful.minimal_quotient`, `Faithful.accepts_quotient`: what the quotient is.
-/

namespace RegLang

open RegLang.Graph (Alike)

/-! ## Prepared graphs -/

/-- A deterministic graph with a step on every letter from every place of its arena, all of them
reachable and the initial one first. -/
structure Graph.Prepared (t : Graph) : Prop where
  wellFormed : t.WellFormed
  initial_eq : t.initial = 0
  reachable : ∀ q < t.size, t.IsReachable q
  isDeterministic : t.IsDeterministic
  total : ∀ q < t.size, ∀ c, ∃ p, p ∈ (t.state q).stepAll c

namespace Graph

variable {g t : Graph} {p q : Nat} {c : Char} {w : Word}

theorem prepared_prepareTotal (hg : g.WellFormed) (ht : g.Truthful) : g.prepareTotal.Prepared where
  wellFormed := wellFormed_compact _
  initial_eq := initial_compact _
  reachable _ hq := isReachable_compact hq
  isDeterministic := ((isDeterministic_determinize ht).totalize hg.determinize).compact
  total q hq c := by
    obtain ⟨p, hp, rfl⟩ := exists_idxOf_eq hq
    obtain ⟨r, hr⟩ := exists_step_totalize hg.determinize hp c
    exact ⟨_, (g.determinize.totalize.covers_compact.step hp).2 ⟨r, hr, rfl⟩⟩

theorem accepts_prepareTotal (hg : g.WellFormed) : g.prepareTotal.Accepts w ↔ g.Accepts w := by
  have hd := hg.determinize
  exact accepts_compact.trans
    ((acceptsFrom_totalize hd g.determinize.isReachable_initial).trans (accepts_determinize hg))

namespace Prepared

theorem disjoint (ht : t.Prepared) (hq : q < t.size) : (t.state q).Disjoint :=
  ht.isDeterministic q (ht.reachable q hq)

theorem lt_of_mem_stepAll (ht : t.Prepared) (hq : q < t.size) (hp : p ∈ (t.state q).stepAll c) :
    p < t.size := ht.wellFormed.lt_of_mem_stepAll hq hp

theorem acceptsFrom_cons_iff (ht : t.Prepared) (hq : q < t.size)
    (hp : p ∈ (t.state q).stepAll c) : t.AcceptsFrom q (c :: w) ↔ t.AcceptsFrom p w :=
  ht.isDeterministic.acceptsFrom_cons_iff (ht.reachable q hq) hp

/-- Steps on one letter from states that accept the same words lead to such states. -/
theorem alike_of_step (ht : t.Prepared) (hp : p < t.size) (hq : q < t.size)
    (hpq : Alike t t p q) {r s : Nat} (hr : r ∈ (t.state p).stepAll c)
    (hs : s ∈ (t.state q).stepAll c) : Alike t t r s := by
  intro w
  rw [← ht.acceptsFrom_cons_iff hp hr, ← ht.acceptsFrom_cons_iff hq hs]
  exact hpq (c :: w)

theorem accept_eq (hpq : Alike t t p q) : (t.state p).accept = (t.state q).accept := by
  rw [Bool.eq_iff_iff, ← acceptsFrom_nil_iff, ← acceptsFrom_nil_iff]
  exact hpq []

/-- States are alike under a relation that respects acceptance and steps. -/
theorem alike_of_respects (ht : t.Prepared) {R : Nat → Nat → Prop}
    (accept : ∀ p q, R p q → (t.state p).accept = (t.state q).accept)
    (step : ∀ p q, R p q → ∀ c r s, r ∈ (t.state p).stepAll c → s ∈ (t.state q).stepAll c → R r s)
    (hp : p < t.size) (hq : q < t.size) (hpq : R p q) : Alike t t p q := by
  intro w
  induction w generalizing p q with
  | nil => rw [acceptsFrom_nil_iff, acceptsFrom_nil_iff, accept p q hpq]
  | cons c w ih =>
    obtain ⟨r, hr⟩ := ht.total p hp c
    obtain ⟨s, hs⟩ := ht.total q hq c
    rw [ht.acceptsFrom_cons_iff hp hr, ht.acceptsFrom_cons_iff hq hs]
    exact ih (ht.lt_of_mem_stepAll hp hr) (ht.lt_of_mem_stepAll hq hs) (step p q hpq c r s hr hs)

end Prepared

end Graph

namespace Classes

/-! ## Faithful classes -/

/-- States have one class exactly if they accept the same words; classes are numbered in the order
of their first states. -/
structure Faithful (t : Graph) (k : Classes) : Prop where
  size_eq : k.classOf.size = t.size
  get_eq_iff : ∀ p < t.size, ∀ q < t.size, k.get p = k.get q ↔ Alike t t p q
  get_lt : ∀ q < t.size, k.get q < k.count
  exists_get : ∀ c < k.count, ∃ q < t.size, k.get q = c
  earlier : ∀ q < t.size, ∀ c < k.get q, ∃ p < q, k.get p = c

variable {t : Graph} {k l : Classes} {p q : Nat} {c : Char} {w : Word}

theorem Faithful.get_eq (hk : k.Faithful t) (hl : l.Faithful t) (hq : q < t.size) :
    k.get q = l.get q := by
  induction q using Nat.strongRecOn with
  | _ q ih =>
    -- a state has the class of an earlier state under one exactly if it has under the other
    have mem_iff : ∀ p < q, k.get p = k.get q ↔ l.get p = l.get q := by
      intro p hp
      rw [hk.get_eq_iff p (Nat.lt_trans hp hq) q hq, hl.get_eq_iff p (Nat.lt_trans hp hq) q hq]
    rcases Nat.lt_trichotomy (k.get q) (l.get q) with hlt | heq | hlt
    · obtain ⟨p, hp, he⟩ := hl.earlier q hq _ hlt
      rw [← ih p hp (Nat.lt_trans hp hq)] at he
      rw [← he, ih p hp (Nat.lt_trans hp hq)]
      exact (mem_iff p hp).1 he
    · exact heq
    · obtain ⟨p, hp, he⟩ := hk.earlier q hq _ hlt
      rw [ih p hp (Nat.lt_trans hp hq)] at he
      rw [← he, ← ih p hp (Nat.lt_trans hp hq)]
      exact ((mem_iff p hp).2 he).symm

/-- Faithful classes of one graph are equal. -/
theorem Faithful.unique (hk : k.Faithful t) (hl : l.Faithful t) : k = l := by
  have hget : ∀ q < t.size, k.get q = l.get q := fun q hq => hk.get_eq hl hq
  have hclasses : k.classOf = l.classOf := by
    apply Array.ext (hk.size_eq.trans hl.size_eq.symm)
    intro i h1 h2
    have h := hget i (hk.size_eq ▸ h1)
    simpa [get, Array.getD, h1, h2] using h
  have hcount : k.count = l.count := by
    apply Nat.le_antisymm
    · apply Nat.le_of_not_lt
      intro hlt
      obtain ⟨q, hq, he⟩ := hk.exists_get _ hlt
      have := hl.get_lt q hq
      rw [← hget q hq, he] at this
      exact Nat.lt_irrefl _ this
    · apply Nat.le_of_not_lt
      intro hlt
      obtain ⟨q, hq, he⟩ := hl.exists_get _ hlt
      have := hk.get_lt q hq
      rw [hget q hq, he] at this
      exact Nat.lt_irrefl _ this
  obtain ⟨a, n⟩ := k
  obtain ⟨b, m⟩ := l
  simp only at hclasses hcount
  rw [hclasses, hcount]

theorem Faithful.representative (hk : k.Faithful t) (hq : q < t.size) :
    ∃ p < t.size, k.representative? (k.get q) = some p ∧ k.get p = k.get q := by
  have hsome : (k.representative? (k.get q)).isSome = true := by
    apply List.find?_isSome.2
    exact ⟨q, List.mem_range.2 (hk.size_eq ▸ hq), decide_eq_true rfl⟩
  obtain ⟨p, hp⟩ := Option.isSome_iff_exists.1 hsome
  have hlt := List.mem_range.1 (List.mem_of_find?_eq_some hp)
  have hclass := List.find?_some hp
  exact ⟨p, hk.size_eq ▸ hlt, hp, of_decide_eq_true hclass⟩

/-! ## The quotient -/

/-- The state of a class: its first member with classes for targets. -/
def toState (t : Graph) (k : Classes) (i : Nat) : State :=
  match k.representative? i with
  | some q => (t.state q).mapTargets k.get
  | none => {}

/-- The graph of the classes, before it is trimmed. -/
def graph (t : Graph) (k : Classes) : Graph where
  states := ((List.range k.count).map (toState t k)).toArray
  initial := k.get t.initial

theorem quotient_eq (t : Graph) (k : Classes) : t.quotient k = (graph t k).trim := rfl

/-- A class has the state of one of its members. -/
theorem Faithful.exists_state (hk : k.Faithful t) (hq : q < t.size) :
    ∃ p < t.size, k.get p = k.get q ∧
      (graph t k).state (k.get q) = (t.state p).mapTargets k.get := by
  obtain ⟨p, hp, hr, he⟩ := hk.representative hq
  refine ⟨p, hp, he, ?_⟩
  have hlt := hk.get_lt q hq
  have hstate : (graph t k).state (k.get q) = toState t k (k.get q) := by
    simp [graph, Graph.state, Array.getD, hlt]
  rw [hstate, toState, hr]

/-- The classes cover the states. -/
theorem Faithful.covers (hk : k.Faithful t) (ht : t.Prepared) :
    Graph.Covers k.get (· < t.size) t (graph t k) where
  closed hp hq := ht.lt_of_mem_stepAll hp hq
  accept {q} hq := by
    obtain ⟨p, hp, he, hs⟩ := hk.exists_state hq
    show ((graph t k).state (k.get q)).accept = true ↔ (t.state q).accept = true
    rw [hs, ← Graph.Prepared.accept_eq ((hk.get_eq_iff p hp q hq).1 he)]
    exact Iff.rfl
  step {q c r} hq := by
    obtain ⟨p, hp, he, hs⟩ := hk.exists_state hq
    have halike := (hk.get_eq_iff p hp q hq).1 he
    show r ∈ ((graph t k).state (k.get q)).stepAll c ↔
      ∃ s, s ∈ (t.state q).stepAll c ∧ k.get s = r
    rw [hs, State.mem_stepAll_mapTargets]
    -- what the member steps to has the class of what `q` steps to
    have hclass : ∀ {a b u v}, a < t.size → b < t.size → Alike t t a b →
        u ∈ (t.state a).stepAll c → v ∈ (t.state b).stepAll c → k.get u = k.get v := by
      intro a b u v ha hb hab hu hv
      exact (hk.get_eq_iff u (ht.lt_of_mem_stepAll ha hu) v (ht.lt_of_mem_stepAll hb hv)).2
        (ht.alike_of_step ha hb hab hu hv)
    constructor
    · rintro ⟨s, hs, rfl⟩
      obtain ⟨v, hv⟩ := ht.total q hq c
      exact ⟨v, hv, (hclass hp hq halike hs hv).symm⟩
    · rintro ⟨s, hs, rfl⟩
      obtain ⟨v, hv⟩ := ht.total p hp c
      exact ⟨v, hv, hclass hp hq halike hv hs⟩

theorem Faithful.acceptsFrom_graph (hk : k.Faithful t) (ht : t.Prepared) (hq : q < t.size) :
    (graph t k).AcceptsFrom (k.get q) w ↔ t.AcceptsFrom q w :=
  (hk.covers ht).acceptsFrom_iff hq

theorem Faithful.isReachable_graph (hk : k.Faithful t) (ht : t.Prepared) {i : Nat}
    (hi : (graph t k).IsReachable i) : ∃ q < t.size, k.get q = i := by
  obtain ⟨q, hq, rfl⟩ := ((hk.covers ht).isReachable_iff ht.wellFormed.initial_lt rfl).1 hi
  exact ⟨q, ht.wellFormed.lt_of_isReachable hq, rfl⟩

theorem Faithful.isDeterministic_graph (hk : k.Faithful t) (ht : t.Prepared) :
    (graph t k).IsDeterministic := by
  intro i hi
  obtain ⟨q, hq, rfl⟩ := hk.isReachable_graph ht hi
  obtain ⟨p, hp, _, hs⟩ := hk.exists_state hq
  rw [hs]
  exact (ht.disjoint hp).mapTargets _

theorem Faithful.distinct_graph (hk : k.Faithful t) (ht : t.Prepared) : (graph t k).Distinct := by
  intro i j hi hj hij
  obtain ⟨p, hp, rfl⟩ := hk.isReachable_graph ht hi
  obtain ⟨q, hq, rfl⟩ := hk.isReachable_graph ht hj
  apply (hk.get_eq_iff p hp q hq).2
  intro w
  rw [← hk.acceptsFrom_graph ht hp, ← hk.acceptsFrom_graph ht hq]
  exact hij w

theorem Faithful.minimal_quotient (hk : k.Faithful t) (ht : t.Prepared) :
    (t.quotient k).Minimal :=
  (hk.distinct_graph ht).minimal_trim (hk.isDeterministic_graph ht)

theorem Faithful.accepts_quotient (hk : k.Faithful t) (ht : t.Prepared) :
    (t.quotient k).Accepts w ↔ t.Accepts w := by
  rw [quotient_eq, Graph.accepts_trim]
  exact hk.acceptsFrom_graph ht ht.wellFormed.initial_lt

end Classes

end RegLang
