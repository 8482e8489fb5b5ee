import RegLang.Checked.Comparison
import RegLang.Proofs.BreadthFirst
import RegLang.Proofs.CheckedOperations
import RegLang.Proofs.Covering
import RegLang.Proofs.Minimization
import RegLang.Proofs.Simulation
/-!
# Inclusion

A pair of states is below if the second accepts all that the first accepts.  In a deterministic
graph this is passed on by every step that both take, and a pair that is below is in order: the
second state accepts where the first does and follows it on every letter to a live state.  Turned
round, if all pairs that are met are in order then they are below, word by word.  So inclusion is
decided by looking at the pairs, and the first that is out of order decides it alone.

* `Below.inOrder`, `below_of_inOrder`: pairs that are met and pairs that are in order.
* `includedIn_spec`: inclusion in a deterministic graph is decided.
* `Checked.includedIn_eq`: the loop with its early end comes to the same.
* `Automaton.subsetOf_spec`: both comparisons are what they say.
-/

namespace RegLang

namespace Graph

variable {g h : Graph} {q : Nat} {t : Transition} {x y : StatePair} {c : Char} {w : Word}

/-! ## Transitions to live states -/

/-- The sorted transitions of a state that lead to live states. -/
def sortedLive (g : Graph) (q : Nat) : List Transition :=
  (Transition.sortByLower (g.state q).transitions).filter fun t => g.live.contains t.target

theorem getD_sortedLiveTable (g : Graph) (q : Nat) :
    g.sortedLiveTable.getD q [] = g.sortedLive q := by
  unfold sortedLive
  rw [← getD_sortedTable]
  show (g.sortedTable.map _).getD q [] = _
  rw [Array.getD_eq_getD_getElem?, Array.getD_eq_getD_getElem?, Array.getElem?_map]
  cases g.sortedTable[q]? <;> rfl

theorem mem_sortedLive :
    t ∈ g.sortedLive q ↔ t ∈ (g.state q).transitions ∧ g.IsLive t.target := by
  rw [sortedLive, List.mem_filter, Transition.mem_sortByLower, List.contains_iff_mem,
    mem_live_iff]

theorem pairwise_sortedLive (g : Graph) (q : Nat) :
    (g.sortedLive q).Pairwise fun t u => t.lo ≤ u.lo :=
  (Transition.pairwise_sortByLower _).sublist List.filter_sublist

/-! ## Pairs that are met -/

/-- The pairs of states that a pair leads to. -/
def pairSuccessors (g h : Graph) (x : StatePair) : List StatePair :=
  Transition.pairTargets (g.sortedLiveTable.getD x.1 []) (h.sortedTable.getD x.2 [])

/-- The pairs of states that are met, in order of discovery. -/
def metPairs (g h : Graph) : List StatePair :=
  explore (g.pairSuccessors h) ((g.edgeCount + 1) * (h.edgeCount + 1)) [(g.initial, h.initial)]

theorem targets_of_mem_pairSuccessors (hy : y ∈ g.pairSuccessors h x) :
    y.1 ∈ (g.state x.1).targets ∧ y.2 ∈ (h.state x.2).targets := by
  unfold pairSuccessors at hy
  rw [getD_sortedLiveTable, getD_sortedTable,
    Transition.mem_pairTargets_iff_span (g.pairwise_sortedLive x.1)] at hy
  obtain ⟨t, ht, u, hu, rfl⟩ := hy
  have hu' := Transition.mem_sortByLower.1 (Transition.span_subset t _ hu)
  exact ⟨State.mem_targets.2 ⟨t, (mem_sortedLive.1 ht).1, rfl⟩,
    State.mem_targets.2 ⟨u, hu', rfl⟩⟩

/-- A pair leads to the pairs that one letter leads to, if the first state of them is live. -/
theorem mem_pairSuccessors (hx : (h.state x.2).Disjoint) : y ∈ g.pairSuccessors h x ↔
    g.IsLive y.1 ∧ ∃ c, y.1 ∈ (g.state x.1).stepAll c ∧ y.2 ∈ (h.state x.2).stepAll c := by
  unfold pairSuccessors
  rw [getD_sortedLiveTable, getD_sortedTable, Transition.mem_pairTargets
    (g.pairwise_sortedLive x.1) (Transition.ascending_sortByLower hx)]
  simp only [Transition.Meeting, mem_sortedLive, Transition.mem_sortByLower,
    Transition.meet_iff, State.mem_stepAll]
  constructor
  · rintro ⟨t, ⟨ht, hl⟩, u, hu, ⟨c, hc, hc'⟩, rfl⟩
    exact ⟨hl, c, ⟨t, ht, hc, rfl⟩, ⟨u, hu, hc', rfl⟩⟩
  · rintro ⟨hl, c, ⟨t, ht, hc, h1⟩, ⟨u, hu, hc', h2⟩⟩
    exact ⟨t, ⟨ht, h1 ▸ hl⟩, u, hu, ⟨c, hc, hc'⟩, Prod.ext h1 h2⟩

theorem pairSuccessors_subset (g h : Graph) :
    ∀ x ∈ g.mentioned ×ˢ h.mentioned, g.pairSuccessors h x ⊆ g.mentioned ×ˢ h.mentioned := by
  intro x _ y hy
  obtain ⟨h1, h2⟩ := targets_of_mem_pairSuccessors hy
  exact List.mem_product.2
    ⟨g.targets_subset_mentioned x.1 h1, h.targets_subset_mentioned x.2 h2⟩

theorem mem_metPairs_iff :
    x ∈ g.metPairs h ↔ Discovered (g.pairSuccessors h) [(g.initial, h.initial)] x :=
  mem_explore_iff (List.cons_subset.2 ⟨initial_mem_mentioned g h, List.nil_subset _⟩)
    (pairSuccessors_subset g h) (length_mentioned_product g h)

theorem initial_mem_metPairs : (g.initial, h.initial) ∈ g.metPairs h :=
  mem_metPairs_iff.2 (.start List.mem_cons_self)

/-- What holds of the initial states and is passed on from pair to pair holds of all pairs that are
met. -/
theorem metPairs_induct {P : StatePair → Prop} (hx : x ∈ g.metPairs h)
    (init : P (g.initial, h.initial)) (step : ∀ x y, P x → y ∈ g.pairSuccessors h x → P y) :
    P x :=
  (mem_metPairs_iff.1 hx).induct (fun _ hs => List.mem_singleton.1 hs ▸ init) step

theorem isReachable_of_mem_metPairs (hx : x ∈ g.metPairs h) :
    g.IsReachable x.1 ∧ h.IsReachable x.2 := by
  refine metPairs_induct (P := fun x => g.IsReachable x.1 ∧ h.IsReachable x.2) hx
    ⟨g.isReachable_initial, h.isReachable_initial⟩ ?_
  rintro x y ⟨h1, h2⟩ hy
  obtain ⟨ht1, ht2⟩ := targets_of_mem_pairSuccessors hy
  exact ⟨h1.target ht1, h2.target ht2⟩

/-! ## Pairs in order -/

/-- The second state accepts where the first does, and follows it on every letter to a live
state. -/
structure InOrder (g h : Graph) (x : StatePair) : Prop where
  accept : (g.state x.1).accept = true → (h.state x.2).accept = true
  step : ∀ c r, r ∈ (g.state x.1).stepAll c → g.IsLive r → ∃ s, s ∈ (h.state x.2).stepAll c

/-- Whether a pair is found to be in order. -/
def simulates (g h : Graph) (x : StatePair) : Bool :=
  !((g.state x.1).accept && !(h.state x.2).accept) &&
    Transition.coveredBy (g.sortedLive x.1) (h.sortedTable.getD x.2 [])

theorem simulates_iff (hx : (h.state x.2).Disjoint) : g.simulates h x = true ↔ g.InOrder h x := by
  have hcovered : Transition.coveredBy (g.sortedLive x.1) (h.sortedTable.getD x.2 []) = true ↔
      ∀ c r, r ∈ (g.state x.1).stepAll c → g.IsLive r → ∃ s, s ∈ (h.state x.2).stepAll c := by
    rw [getD_sortedTable, Transition.coveredBy_iff (g.pairwise_sortedLive x.1)
      (Transition.ascending_sortByLower hx)]
    simp only [mem_sortedLive, Transition.mem_sortByLower, State.mem_stepAll]
    constructor
    · rintro h c _ ⟨t, ht, hc, rfl⟩ hl
      obtain ⟨u, hu, hcu⟩ := h t ⟨ht, hl⟩ c hc
      exact ⟨u.target, u, hu, hcu, rfl⟩
    · rintro h t ⟨ht, hl⟩ c hc
      obtain ⟨_, u, hu, hcu, _⟩ := h c t.target ⟨t, ht, hc, rfl⟩ hl
      exact ⟨u, hu, hcu⟩
  unfold simulates
  rw [Bool.and_eq_true, hcovered]
  constructor
  · rintro ⟨ha, hs⟩
    exact ⟨fun hacc => by simpa [hacc] using ha, hs⟩
  · rintro ⟨ha, hs⟩
    refine ⟨?_, hs⟩
    cases hacc : (g.state x.1).accept with
    | true => simp [ha hacc]
    | false => rfl

theorem simulatesAt_eq (h1 : x.1 < g.size) (h2 : x.2 < h.size) :
    g.simulatesAt h g.sortedLiveTable h.sortedTable x = .ok (g.simulates h x) := by
  unfold simulatesAt simulates
  rw [fetch_of_lt h1, ok_bind, fetch_of_lt h2, ok_bind, getD_sortedLiveTable]
  cases (g.state x.1).accept && !(h.state x.2).accept <;> rfl

/-! ## Pairs below -/

/-- The second state of a pair accepts all that the first accepts. -/
def Below (g h : Graph) (x : StatePair) : Prop := ∀ w, g.AcceptsFrom x.1 w → h.AcceptsFrom x.2 w

/-- Pairs below are in order. -/
theorem Below.inOrder (hx : g.Below h x) : g.InOrder h x where
  accept ha := acceptsFrom_nil_iff.1 (hx [] (acceptsFrom_nil_iff.2 ha))
  step c r hr hl := by
    obtain ⟨w, hw⟩ := hl.2
    obtain ⟨s, hs, _⟩ := acceptsFrom_cons_iff.1 (hx (c :: w) (acceptsFrom_cons_iff.2 ⟨r, hr, hw⟩))
    exact ⟨s, hs⟩

/-- A step of both states leads from pairs below to such pairs, as the second state has no
choice. -/
theorem Below.step (hx : g.Below h x) (hd : h.IsDeterministic) (hq : h.IsReachable x.2)
    (h1 : y.1 ∈ (g.state x.1).stepAll c) (h2 : y.2 ∈ (h.state x.2).stepAll c) : g.Below h y := by
  intro w hw
  exact (hd.acceptsFrom_cons_iff hq h2).1 (hx (c :: w) (acceptsFrom_cons_iff.2 ⟨y.1, h1, hw⟩))

/-- If the initial states are below, then so are all pairs that are met. -/
theorem below_of_mem_metPairs (hd : h.IsDeterministic) (hl : ∀ w, g.Accepts w → h.Accepts w)
    (hx : x ∈ g.metPairs h) : g.Below h x := by
  refine (metPairs_induct (P := fun x => h.IsReachable x.2 ∧ g.Below h x) hx
    ⟨h.isReachable_initial, hl⟩ ?_).2
  rintro x y ⟨hq, hx⟩ hy
  obtain ⟨_, c, h1, h2⟩ := (mem_pairSuccessors (hd x.2 hq)).1 hy
  exact ⟨hq.stepAll h2, hx.step hd hq h1 h2⟩

/-- If all pairs that are met are in order, then they are below. -/
theorem below_of_inOrder (hd : h.IsDeterministic) (hall : ∀ x ∈ g.metPairs h, g.InOrder h x)
    (hx : x ∈ g.metPairs h) : g.Below h x := by
  intro w
  induction w generalizing x with
  | nil =>
    rw [acceptsFrom_nil_iff, acceptsFrom_nil_iff]
    exact (hall x hx).accept
  | cons c w ih =>
    intro hw
    obtain ⟨r, hr, hw⟩ := acceptsFrom_cons_iff.1 hw
    obtain ⟨hp, hq⟩ := isReachable_of_mem_metPairs hx
    have hl : g.IsLive r := ⟨hp.stepAll hr, w, hw⟩
    obtain ⟨s, hs⟩ := (hall x hx).step c r hr hl
    have hmet : (r, s) ∈ g.metPairs h := mem_metPairs_iff.2
      ((mem_metPairs_iff.1 hx).step ((mem_pairSuccessors (hd x.2 hq)).2 ⟨hl, c, hr, hs⟩))
    exact acceptsFrom_cons_iff.2 ⟨s, hs, ih hmet hw⟩

theorem all_simulates_iff (hd : h.IsDeterministic) :
    (g.metPairs h).all (g.simulates h) = true ↔ ∀ w, g.Accepts w → h.Accepts w := by
  have hiff : (g.metPairs h).all (g.simulates h) = true ↔ ∀ x ∈ g.metPairs h, g.InOrder h x := by
    rw [List.all_eq_true]
    apply forall_congr'
    intro x
    apply imp_congr_right
    intro hx
    exact simulates_iff (hd x.2 (isReachable_of_mem_metPairs hx).2)
  rw [hiff]
  constructor
  · exact fun hall => below_of_inOrder hd hall initial_mem_metPairs
  · exact fun hl x hx => (below_of_mem_metPairs hd hl hx).inOrder

theorem includedIn_eq (hg : g.WellFormed) (hh : h.WellFormed) :
    g.includedIn h = .ok ((g.metPairs h).all (g.simulates h)) := by
  apply allM_eq_ok
  intro x hx
  obtain ⟨h1, h2⟩ := isReachable_of_mem_metPairs hx
  exact simulatesAt_eq (hg.lt_of_isReachable h1) (hh.lt_of_isReachable h2)

/-- Inclusion in a deterministic graph is decided. -/
theorem includedIn_spec (hg : g.WellFormed) (hh : h.WellFormed) (hd : h.IsDeterministic) :
    ∃ b, g.includedIn h = .ok b ∧ (b = true ↔ ∀ w, g.Accepts w → h.Accepts w) :=
  ⟨_, includedIn_eq hg hh, all_simulates_iff hd⟩

end Graph

/-! ## The loop -/

namespace Worklist

variable {α : Type} [DecidableEq α] {test : α → Except Fault Bool} {passes : α → Bool}
  {succM : α → Except Fault (List α)} {succ : α → List α} {P : α → Prop} {starts done : List α}

/-- What was seen stays first, with what waits behind what is done. -/
theorem exists_reverse_seen_drain (succ : α → List α) (fuel : Nat) {w : Worklist α}
    (hseen : w.seen.reverse = done ++ w.queue) :
    ∃ rest, (w.drain succ fuel).seen.reverse = done ++ (w.queue ++ rest) := by
  obtain ⟨l, hl⟩ := exists_seen_drain succ fuel w
  refine ⟨l.reverse, ?_⟩
  rw [hl, List.reverse_append, hseen, List.append_assoc]

/-- Nothing is tested any more once nothing waits. -/
theorem drainWhile_done {fuel : Nat} {w : Worklist α} (hseen : w.seen.reverse = done ++ w.queue)
    (hq : w.queue = []) : w.drainWhile test succM fuel =
      .ok (((w.drain succ fuel).seen.reverse.drop done.length).all passes) := by
  obtain ⟨queue, seen⟩ := w
  replace hq : queue = [] := hq
  subst hq
  have hdone : seen.reverse = done := by simpa using hseen
  rw [drain_of_queue_eq_nil succ fuel rfl, hdone, List.drop_length]
  cases fuel <;> rfl

/-- If nothing waits in the end, then what was waiting and what was met later has been tested, up
to the first item that fails. -/
theorem drainWhile_eq (htest : ∀ x, P x → test x = .ok (passes x))
    (hsucc : ∀ x, P x → succM x = .ok (succ x)) (hP : ∀ x y, P x → y ∈ succ x → P y) (fuel : Nat)
    {w : Worklist α} (h : Levelled succ starts done w) (hw : ∀ x ∈ w.seen, P x)
    (hend : (w.drain succ fuel).queue = []) :
    w.drainWhile test succM fuel =
      .ok (((w.drain succ fuel).seen.reverse.drop done.length).all passes) := by
  induction fuel generalizing w done with
  | zero => exact drainWhile_done h.seen_eq hend
  | succ fuel ih =>
    obtain ⟨queue, seen⟩ := w
    cases queue with
    | nil => exact drainWhile_done h.seen_eq rfl
    | cons x queue =>
      have hx : P x := hw x (h.mem_seen.2 (.inr List.mem_cons_self))
      have hmem : ∀ y ∈ (offerAll ⟨queue, seen⟩ (succ x)).seen, P y := by
        intro y hy
        rcases mem_offerAll.1 hy with hy | hy
        · exact hP x y hx hy
        · exact hw y hy
      have hrest := ih h.step hmem hend
      obtain ⟨rest, hlast⟩ := exists_reverse_seen_drain succ fuel h.step.seen_eq
      show (test x >>= fun b => if b = true then _ else _) = .ok
        ((((offerAll ⟨queue, seen⟩ (succ x)).drain succ fuel).seen.reverse.drop done.length).all
          passes)
      rw [htest x hx, ok_bind]
      rw [hlast, List.drop_left] at hrest
      rw [hlast, List.append_assoc, List.drop_left, List.singleton_append, List.all_cons]
      cases passes x with
      | false => rfl
      | true =>
        rw [if_pos rfl, hsucc x hx, ok_bind, hrest]
        rfl

/-- The loop over all that is discovered, up to the first item that fails. -/
theorem drainWhile_start (htest : ∀ x, P x → test x = .ok (passes x))
    (hsucc : ∀ x, P x → succM x = .ok (succ x)) (hP : ∀ x y, P x → y ∈ succ x → P y) {fuel : Nat}
    {start : α} (hs : P start) {all : List α} (hstart : start ∈ all)
    (hall : ∀ x ∈ all, succ x ⊆ all) (hf : all.length ≤ fuel) :
    (({} : Worklist α).offer start).drainWhile test succM fuel =
      .ok ((explore succ fuel [start]).all passes) := by
  refine drainWhile_eq htest hsucc hP fuel (levelled_start [start]) ?_ ?_
  · exact fun x hx => List.mem_singleton.1 hx ▸ hs
  · apply queue_drain_eq_nil hall fuel (split_start [start])
    · exact fun x hx => List.mem_singleton.1 hx ▸ hstart
    · simpa using hf

end Worklist

namespace Checked

open Table

variable {g h : Graph} {a b : Automaton}

theorem sortedLiveTable_eq (hg : g.WellFormed) : sortedLiveTable g = .ok g.sortedLiveTable := by
  rw [sortedLiveTable, live_eq hg, ok_bind, sortedTable_eq, ok_bind]
  rfl

theorem read_row {table : Array (List Transition)} {q : Nat} (hq : q < table.size) :
    read table q = .ok (table.getD q []) := by
  apply read_eq_ok
  simp [Array.getD, hq]

/-- The loop that ends with the first pair out of order finds what looking at all pairs finds. -/
theorem includedIn_eq (hg : g.WellFormed) (hh : h.WellFormed) :
    includedIn g h = g.includedIn h := by
  have hleft : ∀ q < g.size, read g.sortedLiveTable q = .ok (g.sortedLiveTable.getD q []) :=
    fun q hq => read_row (by simpa [Graph.sortedLiveTable, Graph.sortedTable, Graph.size] using hq)
  have hright : ∀ q < h.size, read h.sortedTable q = .ok (h.sortedTable.getD q []) :=
    fun q hq => read_row (by simpa [Graph.sortedTable, Graph.size] using hq)
  have htest : ∀ x : StatePair, x.1 < g.size ∧ x.2 < h.size →
      simulatesAt g h g.sortedLiveTable h.sortedTable x = .ok (g.simulates h x) := by
    rintro x ⟨h1, h2⟩
    rw [← Graph.simulatesAt_eq h1 h2]
    unfold simulatesAt Graph.simulatesAt
    rw [hleft x.1 h1, hright x.2 h2]
    rfl
  have hsucc : ∀ x : StatePair, x.1 < g.size ∧ x.2 < h.size →
      pairSuccessors g.sortedLiveTable h.sortedTable x = .ok (g.pairSuccessors h x) := by
    rintro x ⟨h1, h2⟩
    unfold pairSuccessors
    rw [hleft x.1 h1, hright x.2 h2]
    rfl
  have hinside : ∀ x y : StatePair, x.1 < g.size ∧ x.2 < h.size → y ∈ g.pairSuccessors h x →
      y.1 < g.size ∧ y.2 < h.size := by
    rintro x y ⟨h1, h2⟩ hy
    obtain ⟨ht1, ht2⟩ := Graph.targets_of_mem_pairSuccessors hy
    exact ⟨hg.lt_of_mem_targets h1 ht1, hh.lt_of_mem_targets h2 ht2⟩
  rw [includedIn, sortedLiveTable_eq hg, ok_bind, sortedTable_eq, ok_bind,
    Graph.includedIn_eq hg hh]
  exact Worklist.drainWhile_start htest hsucc hinside ⟨hg.initial_lt, hh.initial_lt⟩
    (Graph.initial_mem_mentioned g h) (Graph.pairSuccessors_subset g h)
    (Graph.length_mentioned_product g h)

end Checked

namespace Automaton

variable {a b : Automaton}

/-! ## Comparing automata -/

theorem subsetOf_graph {g : Graph} (hg : g.WellFormed) (hb : b.WellFormed) :
    (graph g).subsetOf b = g.includedIn b.toGraph.determinize := by
  obtain ⟨d, hd, he⟩ := exists_determinize hb
  show (b.determinize >>= fun d => g.ensureIntact >>= fun _ => g.includedIn d.toGraph) = _
  rw [hd, ok_bind, hg.ensureIntact, ok_bind, he]

/-- The loop with its early end comes to the same as looking at all pairs. -/
theorem checked_subsetOf_eq (ha : a.WellFormed) (hb : b.WellFormed) :
    Checked.subsetOf a b = a.subsetOf b := by
  cases a with
  | singleton w =>
    cases b with
    | singleton v => rfl
    | graph h => exact Checked.run_eq h w
  | graph g =>
    rw [subsetOf_graph ha hb]
    show (Checked.toGraph b >>= fun h => Checked.determinize h >>= Checked.includedIn g) = _
    rw [Checked.toGraph_eq, ok_bind, Checked.determinize_eq hb.toGraph, ok_bind,
      Checked.includedIn_eq ha hb.toGraph.determinize]

/-- Two words are compared at once, but that comes to the same as two inclusions. -/
theorem sameLanguage_eq (a b : Automaton) : a.sameLanguage b =
    a.subsetOf b >>= fun r => if r = true then b.subsetOf a else .ok false := by
  cases a with
  | graph g => rfl
  | singleton v =>
    cases b with
    | graph h => rfl
    | singleton w =>
      show Except.ok (decide (v = w)) =
        if decide (w = v) = true then Except.ok (decide (v = w)) else .ok false
      by_cases h : v = w
      · rw [if_pos (decide_eq_true h.symm)]
      · rw [if_neg (by simpa using Ne.symm h), decide_eq_false h]

theorem checked_sameLanguage_eq (ha : a.WellFormed) (hb : b.WellFormed) :
    Checked.sameLanguage a b = a.sameLanguage b := by
  have hunfold : ∀ g h : Automaton, g.WellFormed → h.WellFormed →
      (Checked.subsetOf g h >>= fun r => if r = true then Checked.subsetOf h g else .ok false) =
        g.sameLanguage h := by
    intro g h hg hh
    rw [sameLanguage_eq, checked_subsetOf_eq hg hh, checked_subsetOf_eq hh hg]
  cases a with
  | graph g => exact hunfold _ _ ha hb
  | singleton v =>
    cases b with
    | graph h => exact hunfold _ _ ha hb
    | singleton w => rfl

theorem decides_subsetOf (ha : a.WellFormed) (hb : b.Proper) :
    ∃ r, a.subsetOf b = .ok r ∧ (r = true ↔ ∀ w, a.Accepts w → b.Accepts w) := by
  cases a with
  | singleton w =>
    obtain ⟨r, hr, hiff⟩ := run_spec hb.wellFormed hb.truthful w
    refine ⟨r, hr, hiff.trans ?_⟩
    exact ⟨fun hw v hv => hv ▸ hw, fun h => h w rfl⟩
  | graph g =>
    have hh := hb.wellFormed.toGraph
    obtain ⟨r, hr, hiff⟩ := Graph.includedIn_spec ha hh.determinize
      (Graph.isDeterministic_determinize hb.truthful.toGraph)
    refine ⟨r, (subsetOf_graph ha hb.wellFormed).trans hr, hiff.trans ?_⟩
    simp only [Graph.accepts_determinize hh, accepts_toGraph]
    exact Iff.rfl

theorem decides_sameLanguage (ha : a.Proper) (hb : b.Proper) :
    ∃ r, a.sameLanguage b = .ok r ∧ (r = true ↔ ∀ w, a.Accepts w ↔ b.Accepts w) := by
  obtain ⟨r, hr, hab⟩ := decides_subsetOf ha.wellFormed hb
  obtain ⟨s, hs, hba⟩ := decides_subsetOf hb.wellFormed ha
  rw [sameLanguage_eq, hr, ok_bind]
  cases r with
  | false =>
    refine ⟨false, rfl, iff_of_false Bool.false_ne_true fun h => ?_⟩
    exact Bool.false_ne_true (hab.2 fun w => (h w).1)
  | true =>
    refine ⟨s, hs, hba.trans ?_⟩
    have hle := hab.1 rfl
    exact ⟨fun h w => ⟨hle w, h w⟩, fun h w => (h w).2⟩

/-- Inclusion and equality of languages are decided, for words and graphs with any states and flags
that are not set in vain: no check fails on the way, and the answer is what it says. -/
theorem subsetOf_spec (ha : a.WellFormed) (ht : a.Truthful) (hb : b.WellFormed)
    (ht' : b.Truthful) :
    (∃ r, a.subsetOf b = .ok r ∧ Checked.subsetOf a b = .ok r ∧
      (r = true ↔ ∀ w, a.Accepts w → b.Accepts w)) ∧
    ∃ r, a.sameLanguage b = .ok r ∧ Checked.sameLanguage a b = .ok r ∧
      (r = true ↔ ∀ w, a.Accepts w ↔ b.Accepts w) := by
  constructor
  · obtain ⟨r, hr, hiff⟩ := decides_subsetOf ha ⟨hb, ht'⟩
    exact ⟨r, hr, (checked_subsetOf_eq ha hb).trans hr, hiff⟩
  · obtain ⟨r, hr, hiff⟩ := decides_sameLanguage ⟨ha, ht⟩ ⟨hb, ht'⟩
    exact ⟨r, hr, (checked_sameLanguage_eq ha hb).trans hr, hiff⟩

theorem subsetOf_spec_forked : (graph forked).WellFormed ∧ (graph forked).Truthful ∧
    (singleton ['a', 'b']).WellFormed ∧ (singleton ['a', 'b']).Truthful ∧
    ∃ r, (graph forked).subsetOf (singleton ['a', 'b']) = .ok r ∧
      (r = true ↔ ∀ w, (graph forked).Accepts w → w = ['a', 'b']) := by
  have ht : (graph forked).Truthful := fun h => by cases h
  obtain ⟨⟨r, hr, _, hiff⟩, _⟩ := subsetOf_spec (a := graph forked) (b := singleton ['a', 'b'])
    wellFormed_forked ht trivial trivial
  exact ⟨wellFormed_forked, ht, trivial, trivial, r, hr, hiff⟩

end Automaton

end RegLang
