import RegLang.Proofs.BreadthFirst
import RegLang.Proofs.CheckedSubsets
import RegLang.Proofs.Minimization
import RegLang.Proofs.Product
import RegLang.Proofs.Simulation
/-!
# Determinizing

The loop that makes a graph deterministic takes one set of states after the other from a worklist
and offers the sets that the classes of letters lead to.  All of them are sets of one capacity, told
apart by their members, and there are `2 ^ capacity` such sets: after as many turns nothing waits.
Trimming leaves the places of the sets that lead to acceptance, numbered breadth first.

* `queue_setsMet`: the loop ends.
* `determinize_eq_trim`: more turns would change nothing.
* `Automaton.determinize_spec`: what determinizing makes.
-/

namespace RegLang

namespace Graph

variable {g h : Graph} {p q n : Nat} {w : Word}

/-! ## The loop -/

/-- The set of the initial state alone, with room for every state. -/
def startSet (g : Graph) : StateSet := .ofList g.size [g.initial]

/-- The worklist of sets after at most `n` turns of the loop. -/
def setsMet (g : Graph) (n : Nat) : Worklist StateSet :=
  (({} : Worklist StateSet).offerAll [g.startSet]).drain g.nextSets n

/-- The graph of sets that have been met after at most `n` turns of the loop, the first of them
initial. -/
def setGraph (g : Graph) (n : Nat) : Graph :=
  ofItems g.acceptsAny (g.subsetRow (classes g.startPoints)) (g.setsMet n).seen.reverse

theorem startSet_subset (g : Graph) : [g.startSet] ⊆ StateSet.all g.size :=
  List.cons_subset.2 ⟨StateSet.ofList_mem_all _ _, List.nil_subset _⟩

/-- After as many turns as there are sets nothing waits. -/
theorem queue_setsMet (hn : 2 ^ g.startSet.capacity ≤ n) : (g.setsMet n).queue = [] :=
  g.queue_drain_sets [g.initial] (by rwa [Nat.one_shiftLeft])

/-- No later turn changes the graph. -/
theorem determinize_eq_trim (hd : g.deterministic = false) (hn : 2 ^ g.startSet.capacity ≤ n) :
    g.determinize = (g.setGraph n).trim := by
  have hitems : explore g.nextSets n [g.startSet] =
      explore g.nextSets (1 <<< g.startSet.capacity) [g.startSet] := by
    apply explore_eq_of_le g.startSet_subset g.nextSets_subset (length_all_le _ _)
    rwa [Nat.one_shiftLeft]
  unfold determinize
  rw [if_neg (by rw [hd]; exact Bool.false_ne_true)]
  show (ofItems _ _ (explore g.nextSets _ [g.startSet])).trim =
    (ofItems _ _ (explore g.nextSets n [g.startSet])).trim
  rw [hitems]
  rfl

/-! ## What determinizing makes -/

/-- A graph of the language of `g` that is deterministic and says so.  Every state but the initial
one leads to acceptance; the arena holds what is reachable, numbered breadth first from `0`. -/
structure Determinized (g h : Graph) : Prop where
  accepts_iff : ∀ w, h.Accepts w ↔ g.Accepts w
  flag : h.deterministic = true
  disjoint : ∀ q < h.size, (h.state q).Disjoint
  live : ∀ q < h.size, q = h.initial ∨ ∃ w, h.AcceptsFrom q w
  initial_eq : h.initial = 0
  isReachable_iff : ∀ q, h.IsReachable q ↔ q < h.size
  numbered : h.reachable = List.range h.size
  /-- No state is further from the initial one than a later state. -/
  order : ∀ p q w, p ≤ q → q < h.size → h.Path h.initial w q →
    ∃ v : Word, v.length ≤ w.length ∧ h.Path h.initial v p

theorem determinized_determinize (hg : g.WellFormed) (hd : g.deterministic = false) :
    Determinized g g.determinize := by
  have ht : g.Truthful := fun h => by rw [hd] at h; cases h
  have heq := determinize_eq_trim hd (Nat.le_refl _)
  have htrimmed : g.determinize.Trimmed := heq ▸ trimmed_trim _
  have hnumbered : g.determinize.reachable = List.range g.determinize.size :=
    heq ▸ reachable_trim _
  exact {
    accepts_iff := fun _ => accepts_determinize hg
    flag := g.deterministic_determinize
    disjoint := fun q hq => isDeterministic_determinize ht q (htrimmed.reachable q hq)
    live := fun q hq => htrimmed.noDeadEnds.eq_initial_or (htrimmed.reachable q hq)
    initial_eq := htrimmed.initial_eq
    isReachable_iff := fun q => ⟨hg.determinize.lt_of_isReachable, htrimmed.reachable q⟩
    numbered := hnumbered
    order := fun p q w hpq hq hw => exists_path_le hnumbered hpq hq hw }

end Graph

namespace Automaton

open RegLang.Graph (Determinized)

variable {g : Graph}

/-- Determinizing a graph that does not claim to be deterministic makes a graph of the same
language that does so rightly, trimmed and numbered breadth first.  No check fails on the way, and
the worklist of sets ends: from some number of turns on nothing waits, and the graph is what has
been met by then. -/
theorem determinize_spec (hg : g.WellFormed) (hd : g.deterministic = false) :
    ∃ h : Graph, (graph g).determinize = .ok (.graph h) ∧ Checked.determinize g = .ok h ∧
      Determinized g h ∧ (∀ w, (graph h).run w = (graph g).run w) ∧
      ∀ n, 2 ^ g.startSet.capacity ≤ n →
        (g.setsMet n).queue = [] ∧ h = (g.setGraph n).trim := by
  have hproper : (graph g).Proper := proper_of_flag_false hg hd
  have hspec := Graph.determinized_determinize hg hd
  have hproper' : (graph g.determinize).Proper :=
    ⟨hg.determinize, fun _ => Graph.isDeterministic_determinize hproper.truthful⟩
  exact ⟨g.determinize, determinize_graph hg, Checked.determinize_eq hg, hspec,
    fun w => hproper.run_congr hproper' (hspec.accepts_iff w),
    fun n hn => ⟨Graph.queue_setsMet hn, Graph.determinize_eq_trim hd hn⟩⟩

theorem determinize_spec_forked : forked.WellFormed ∧ forked.deterministic = false ∧
    ∃ h : Graph, (graph forked).determinize = .ok (.graph h) ∧ Determinized forked h ∧
      ∀ w, (graph h).run w = (graph forked).run w := by
  obtain ⟨h, hh, _, hspec, hr, _⟩ := determinize_spec wellFormed_forked rfl
  exact ⟨wellFormed_forked, rfl, h, hh, hspec, hr⟩

end Automaton

end RegLang
