import RegLang.Primitive.Digits
import RegLang.Proofs.Intervals
import RegLang.Proofs.Iteration
import RegLang.Proofs.Primitives
import RegLang.Proofs.Product
import RegLang.Proofs.Sessions
/-!
# Operations on proper automata

Every operation on proper automata succeeds, keeps the places in the arena, and sets the flag only
where it is true; its result has the language that it should have:

    (∀ a ∈ op.operands, a.Proper) → Computes op.run op.language      (computes_run)

Primitive automata are proper, too, and so are compiled ones.  Hence whatever is made of primitive
automata in any number of steps is proper.

* `History.proper`: all automata of a history of primitive automata and operations.
-/

namespace RegLang

open Computability

namespace Automaton

variable {a b : Automaton} {l : Language Char} {r : Except Fault Automaton} {lo hi digits : Nat}

theorem Computes.proper (h : Computes r l) (hr : r = .ok a) : a.Proper := by
  obtain ⟨b, hb, hproper, -⟩ := h
  cases hr.symm.trans hb
  exact hproper

/-! ## Changes of form -/

/-- A change of form keeps the places in the arena, sets no flag and disjoint transitions disjoint,
and does not change what is accepted. -/
structure Reforms (f : Graph → Graph) : Prop where
  wellFormed : ∀ g : Graph, g.WellFormed → (f g).WellFormed
  flag : ∀ g : Graph, (f g).deterministic = g.deterministic
  isDeterministic : ∀ g : Graph, g.WellFormed → g.IsDeterministic → (f g).IsDeterministic
  accepts_iff : ∀ g : Graph, g.WellFormed → ∀ w, (f g).Accepts w ↔ g.Accepts w

theorem reforms_reduce : Reforms Graph.reduce where
  wellFormed _ hg := hg.reduce
  flag _ := rfl
  isDeterministic _ _ hd := hd.reduce
  accepts_iff _ _ _ := Graph.acceptsFrom_reduce

theorem reforms_compact : Reforms Graph.compact where
  wellFormed g _ := g.wellFormed_compact
  flag := Graph.deterministic_compact
  isDeterministic _ _ hd := hd.compact
  accepts_iff _ _ _ := Graph.accepts_compact

theorem reforms_trim : Reforms Graph.trim where
  wellFormed g _ := g.trimmed_trim.wellFormed
  flag := Graph.deterministic_trim
  isDeterministic _ _ hd := hd.trim
  accepts_iff _ _ _ := Graph.accepts_trim

theorem reforms_totalize : Reforms Graph.totalize where
  wellFormed _ hg := hg.totalize
  flag := Graph.deterministic_totalize
  isDeterministic _ hg hd := hd.totalize hg
  accepts_iff g hg _ := Graph.acceptsFrom_totalize hg g.isReachable_initial

theorem computes_mapGraph {f : Graph → Graph} (hf : Reforms f) (ha : a.Proper) :
    Computes (mapGraph f a) a.language := by
  cases a with
  | singleton w => exact Computes.of_ok ha rfl
  | graph g =>
    have hg : g.WellFormed := ha.wellFormed
    change Computes (g.ensureIntact.map fun _ => graph (f g)) _
    rw [hg.ensureIntact]
    refine Computes.of_ok (a := graph (f g)) ⟨hf.wellFormed g hg, fun h => ?_⟩ ?_
    · rw [hf.flag] at h
      exact hf.isDeterministic g hg (ha.truthful h)
    · ext w
      exact hf.accepts_iff g hg w

theorem computes_expand (ha : a.Proper) : Computes (.ok a.expand) a.language :=
  .of_ok ⟨ha.toGraph_wellFormed, ha.truthful.toGraph⟩ (language_toGraph a)

theorem computes_determinize (ha : a.Proper) : Computes a.determinize a.language := by
  cases a with
  | singleton w => exact Computes.of_ok ha rfl
  | graph g =>
    have hg : g.WellFormed := ha.wellFormed
    rw [determinize_graph hg]
    refine Computes.of_ok
      ⟨hg.determinize, fun _ => Graph.isDeterministic_determinize ha.truthful⟩ ?_
    ext w
    exact Graph.accepts_determinize hg

end Automaton

/-! ## Operations -/

open Automaton

/-- The words that the result of an operation should have. -/
def Operation.language : Operation → Language Char
  | union as => (as.map Automaton.language).sum
  | concatenate as => (as.map Automaton.language).prod
  | intersection a b => a.language ⊓ b.language
  | minus a b => a.language ⊓ b.languageᶜ
  | complement a => a.languageᶜ
  | optional a => a.language + 1
  | star a => a.language∗
  | atLeast a n => a.language ^ n * a.language∗
  | repeated a lo hi => powersBetween a.language lo hi
  | determinize a | minimize _ a | reduce a | totalize a | trim a | compact a | expand a =>
    a.language

/-- Operations on proper automata succeed with a proper automaton of the right language. -/
theorem Operation.computes_run (op : Operation) (h : ∀ a ∈ op.operands, a.Proper) :
    Computes op.run op.language := by
  cases op with
  | union as => exact computes_union h
  | concatenate as => exact computes_concatenate h
  | intersection a b =>
    exact computes_intersection (h a List.mem_cons_self)
      (h b (List.mem_cons_of_mem _ (List.mem_singleton_self b)))
  | minus a b =>
    exact computes_minus (h a List.mem_cons_self)
      (h b (List.mem_cons_of_mem _ (List.mem_singleton_self b)))
  | complement a => exact computes_complement (h a (List.mem_singleton_self a))
  | optional a => exact computes_optional (h a (List.mem_singleton_self a))
  | star a => exact computes_star (h a (List.mem_singleton_self a))
  | atLeast a n => exact computes_atLeast (h a (List.mem_singleton_self a)) n
  | repeated a lo hi => exact computes_repeated (h a (List.mem_singleton_self a)) lo hi
  | determinize a => exact computes_determinize (h a (List.mem_singleton_self a))
  | minimize m a => exact computes_minimize m (h a (List.mem_singleton_self a))
  | reduce a => exact computes_mapGraph reforms_reduce (h a (List.mem_singleton_self a))
  | totalize a =>
    have hexpand : a.expand.Proper := (computes_expand (h a (List.mem_singleton_self a))).proper rfl
    have hl : a.expand.language = a.language := language_toGraph a
    rw [Operation.language, ← hl]
    exact computes_mapGraph reforms_totalize hexpand
  | trim a => exact computes_mapGraph reforms_trim (h a (List.mem_singleton_self a))
  | compact a => exact computes_mapGraph reforms_compact (h a (List.mem_singleton_self a))
  | expand a => exact computes_expand (h a (List.mem_singleton_self a))

/-! ## Primitive automata -/

theorem Automaton.proper_of_ofInterval {a : Automaton} {lo hi digits : Nat}
    (h : ofInterval lo hi digits = .ok a) : a.Proper := by
  have hbounds : lo ≤ hi ∧ (digits = 0 ∨ (Numeral.decimal hi).length ≤ digits) := by
    unfold ofInterval at h
    split at h
    · cases h
    · split at h
      · cases h
      · next hle hfits =>
        rw [Bool.and_eq_true, decide_eq_true_iff, decide_eq_true_iff] at hfits
        omega
  exact (computes_ofInterval hbounds.1 hbounds.2).proper h

theorem Primitive.proper_make (p : Primitive) {a : Automaton} (h : p.make = .ok a) : a.Proper := by
  cases p with
  | interval lo hi digits => exact proper_of_ofInterval h
  | empty =>
    cases h
    exact proper_empty
  | word w =>
    cases h
    exact proper_singleton w
  | letter c =>
    cases h
    exact proper_singleton [c]
  | range c d =>
    cases h
    exact proper_ofRange c d
  | letters cs =>
    cases h
    exact proper_ofLetters cs
  | anyLetter =>
    cases h
    exact proper_ofRange _ _
  | anyWord =>
    cases h
    exact proper_anyWord
  | containing w =>
    cases h
    exact proper_containing w

theorem inherited_proper : Inherited Proper where
  primitive p _ h := p.proper_make h
  operation op _ hop h := (op.computes_run hop).proper h

/-! ## Histories -/

/-- What can be made from automata in one step: a primitive automaton, a format of decimal numbers,
or the result of an operation on some of them. -/
inductive Combines (as : List Automaton) : Automaton → Prop
  | primitive (p : Primitive) {a : Automaton} (h : p.make = .ok a) : Combines as a
  | totalDigits (i : Nat) {a : Automaton} (h : totalDigits i = .ok a) : Combines as a
  | fractionDigits (i : Nat) {a : Automaton} (h : fractionDigits i = .ok a) : Combines as a
  | operation (op : Operation) {a : Automaton} (hop : ∀ b ∈ op.operands, b ∈ as)
    (h : op.run = .ok a) : Combines as a

theorem Combines.proper {as : List Automaton} {a : Automaton} (has : ∀ b ∈ as, b.Proper)
    (h : Combines as a) : a.Proper := by
  cases h with
  | primitive p h => exact p.proper_make h
  | totalDigits i h =>
    exact inherited_proper.compileWith (fun x hx => absurd hx List.not_mem_nil) h
  | fractionDigits i h =>
    exact inherited_proper.compileWith (fun x hx => absurd hx List.not_mem_nil) h
  | operation op hop h => exact (op.computes_run fun b hb => has b (hop b hb)).proper h

/-- What is made in any number of steps is proper. -/
theorem History.proper {as : List Automaton} (h : History Combines as) : ∀ a ∈ as, a.Proper :=
  h.forall fun _ _ has hstep => hstep.proper has

/-- However a graph was made, its places are in the arena and its intervals in order, and if it is
flagged, no two transitions of a reachable state overlap. -/
theorem History.flag_disjoint {as : List Automaton} (h : History Combines as) {g : Graph}
    (hg : graph g ∈ as) :
    g.initial < g.size ∧
    (∀ q < g.size, ∀ t ∈ (g.state q).transitions, t.target < g.size ∧ t.lo ≤ t.hi) ∧
    (g.deterministic = true → ∀ q, g.IsReachable q → (g.state q).transitions.Pairwise
      fun t u => ∀ c, ¬ (t.contains c = true ∧ u.contains c = true)) := by
  obtain ⟨hwf, ht⟩ := h.proper _ hg
  exact ⟨hwf.initial_lt, fun q hq t htq => ⟨hwf.target_lt q hq t htq, t.lo_le_hi⟩, ht⟩

/-- A range made total, flagged all along. -/
theorem History.flag_disjoint_totalize :
    History Combines [graph (rangeGraph 'a' 'c').totalize, ofRange 'a' 'c'] ∧
    ∀ q, (rangeGraph 'a' 'c').totalize.IsReachable q →
      ((rangeGraph 'a' 'c').totalize.state q).transitions.Pairwise
        fun t u => ∀ c, ¬ (t.contains c = true ∧ u.contains c = true) := by
  have hrange : History Combines [ofRange 'a' 'c'] := .next .start (.primitive (.range 'a' 'c') rfl)
  have h : History Combines [graph (rangeGraph 'a' 'c').totalize, ofRange 'a' 'c'] :=
    .next hrange (.operation (.totalize (ofRange 'a' 'c')) (fun _ hb => hb) rfl)
  exact ⟨h, (h.flag_disjoint List.mem_cons_self).2.2 rfl⟩

end RegLang
