import Mathlib.Algebra.BigOperators.Ring.Finset
import Mathlib.Data.Set.Card
import RegLang.Proofs.Product
import RegLang.Query.Count
import RegLang.Semantics.Words
/-!
# Counting words

Counts are passed on from letter to letter, but the words that are to be counted are described from
their first letter on.  Both agree because passing counts on is adjoint to summing over
transitions: with every weight `f` of the states,

    weigh next f = weigh counts (g.spread f)

where `spread f` gives a state the weights of its targets, once for every letter.  Spreading the
weight of acceptance `n` times gives every state the number of its words of `n` letters.

* `countPaths_eq`: on any well-formed graph the paths along words of a length are counted.
* `Automaton.countWords_spec`: on a deterministic one these are the words.
-/

namespace RegLang

namespace Graph

variable {g : Graph} {counts next : Array Nat} {f : Nat → Nat} {n q : Nat}

/-! ## Weights -/

/-- The sum of all counts, each times the weight of its state. -/
def weigh (counts : Array Nat) (f : Nat → Nat) : Nat :=
  ∑ q ∈ Finset.range counts.size, counts.getD q 0 * f q

/-- The weights of the targets of a state, once for every letter. -/
def spread (g : Graph) (f : Nat → Nat) (q : Nat) : Nat :=
  ((g.state q).transitions.map fun t => Alphabet.count t.lo t.hi * f t.target).sum

/-- States that accept weigh one, others nothing. -/
def acceptWeight (g : Graph) (q : Nat) : Nat := if (g.state q).accept then 1 else 0

theorem weigh_replicate (n : Nat) (f : Nat → Nat) : weigh (Array.replicate n 0) f = 0 := by
  refine Finset.sum_eq_zero fun q _ => ?_
  simp [Array.getD]

theorem getD_modify_add (hq : q < counts.size) (n p : Nat) :
    (counts.modify q (· + n)).getD p 0 = counts.getD p 0 + if p = q then n else 0 := by
  rw [Array.getD_eq_getD_getElem?, Array.getD_eq_getD_getElem?, Array.getElem?_modify]
  by_cases hp : p = q
  · subst hp
    simp [hq]
  · simp [hp, Ne.symm hp]

/-- Adding to one count adds that much times the weight of the state. -/
theorem succeeds_addCount (hq : q < counts.size) (n : Nat) :
    Succeeds (addCount counts q n) fun next =>
      next.size = counts.size ∧ ∀ f, weigh next f = weigh counts f + n * f q := by
  refine .of_eq (if_pos hq) ⟨Array.size_modify, fun f => ?_⟩
  have hsize : (counts.modify q (· + n)).size = counts.size := Array.size_modify
  simp only [weigh, hsize, getD_modify_add hq, Nat.add_mul, Finset.sum_add_distrib, ite_mul,
    Nat.zero_mul]
  rw [Finset.sum_ite_eq', if_pos (Finset.mem_range.2 hq)]

/-! ## From letter to letter -/

/-- The count of one state is passed on to its targets. -/
theorem succeeds_passState (ts : List Transition) (hts : ∀ t ∈ ts, t.target < next.size) (n : Nat) :
    Succeeds (ts.foldlM (fun next t => addCount next t.target (n * Alphabet.count t.lo t.hi)) next)
      fun last => last.size = next.size ∧ ∀ f, weigh last f =
        weigh next f + n * (ts.map fun t => Alphabet.count t.lo t.hi * f t.target).sum := by
  refine succeeds_foldlM (I := fun (done : List Transition) last => last.size = next.size ∧
    ∀ f, weigh last f =
      weigh next f + n * (done.map fun t => Alphabet.count t.lo t.hi * f t.target).sum) ?_ ?_
  · exact ⟨rfl, fun f => rfl⟩
  · rintro done t ht - last ⟨hsize, hlast⟩
    have hin : t.target < last.size := hsize ▸ hts t ht
    refine (succeeds_addCount hin _).mono fun last' h => ⟨h.1.trans hsize, fun f => ?_⟩
    rw [h.2, hlast, List.map_append, List.sum_append, List.map_singleton, List.sum_singleton,
      Nat.mul_add, Nat.mul_assoc, Nat.add_assoc]

theorem succeeds_passCounts (hg : g.WellFormed) (hsize : counts.size = g.size) :
    Succeeds (g.passCounts counts) fun next =>
      next.size = g.size ∧ ∀ f, weigh next f = weigh counts (g.spread f) := by
  have hsum : ∀ f, weigh counts (g.spread f) =
      ((List.range g.size).map fun q => counts.getD q 0 * g.spread f q).sum := by
    intro f
    rw [weigh, hsize]
    rfl
  simp only [hsum]
  refine succeeds_foldlM (I := fun done next => next.size = g.size ∧ ∀ f, weigh next f =
    (done.map fun q => counts.getD q 0 * g.spread f q).sum) ?_ ?_
  · exact ⟨Array.size_replicate, fun f => weigh_replicate _ f⟩
  · rintro done q hq - next ⟨hnext, hweigh⟩
    simp only [List.map_append, List.sum_append, List.map_singleton, List.sum_singleton]
    by_cases hn : counts.getD q 0 = 0
    · refine .of_eq (if_pos hn) ⟨hnext, fun f => ?_⟩
      rw [hweigh, hn, Nat.zero_mul, Nat.add_zero]
    · have hts : ∀ t ∈ (g.state q).transitions, t.target < next.size := by
        intro t ht
        rw [hnext]
        exact hg.target_lt q (List.mem_range.1 hq) t ht
      have hpass := succeeds_passState _ hts (counts.getD q 0)
      rw [if_neg hn]
      refine hpass.mono fun last h => ⟨h.1.trans hnext, fun f => ?_⟩
      rw [h.2, hweigh]
      rfl

theorem succeeds_passMany (hg : g.WellFormed) (n : Nat) (hsize : counts.size = g.size) :
    Succeeds (g.passMany n counts) fun last =>
      last.size = g.size ∧ ∀ f, weigh last f = weigh counts (g.spread^[n] f) := by
  induction n generalizing counts with
  | zero => exact .pure ⟨hsize, fun f => rfl⟩
  | succ n ih =>
    refine (succeeds_passCounts hg hsize).bind fun next hnext => ?_
    refine (ih hnext.1).mono fun last hlast => ⟨hlast.1, fun f => ?_⟩
    rw [hlast.2, hnext.2, Function.iterate_succ_apply']

/-! ## What is counted -/

theorem acceptedCount_eq (hsize : counts.size = g.size) :
    g.acceptedCount counts = weigh counts g.acceptWeight := by
  have aux : ∀ (qs : List Nat) (total : Nat),
      qs.foldl (fun total q => if (g.state q).accept then total + counts.getD q 0 else total)
        total = total + (qs.map fun q => counts.getD q 0 * g.acceptWeight q).sum := by
    intro qs
    induction qs with
    | nil => exact fun total => rfl
    | cons q qs ih =>
      intro total
      rw [List.foldl_cons, ih, List.map_cons, List.sum_cons, acceptWeight]
      split <;> omega
  rw [acceptedCount, aux, weigh, hsize, Nat.zero_add]
  rfl

/-- Spreading the weight of acceptance counts the words of a length. -/
theorem length_words (g : Graph) (n q : Nat) :
    (g.words n q).length = g.spread^[n] g.acceptWeight q := by
  induction n generalizing q with
  | zero =>
    rw [words, Function.iterate_zero_apply, acceptWeight]
    split <;> rfl
  | succ n ih =>
    rw [words, Function.iterate_succ_apply', spread, List.length_flatMap]
    congr 1
    refine List.map_congr_left fun t _ => ?_
    simp only [List.length_flatMap, List.length_map, List.map_const', List.sum_replicate,
      Alphabet.length_between, ih, Nat.nsmul_eq_mul]

/-- The paths along words of a length are counted. -/
theorem countPaths_eq (hg : g.WellFormed) (n : Nat) :
    g.countPaths n = .ok (g.words n g.initial).length := by
  have hin : g.initial < (Array.replicate g.size 0).size := by
    rw [Array.size_replicate]
    exact hg.initial_lt
  apply Succeeds.eq_ok
  refine (succeeds_addCount hin 1).bind fun start hstart => ?_
  have hsize : start.size = g.size := by rw [hstart.1, Array.size_replicate]
  obtain ⟨last, hlast, hlsize, hweigh⟩ := succeeds_passMany hg n hsize
  refine .of_eq (map_eq_ok.2 ⟨last, hlast, rfl⟩) ?_
  rw [acceptedCount_eq hlsize, hweigh, hstart.2, weigh_replicate, length_words, Nat.one_mul,
    Nat.zero_add]

end Graph

namespace Automaton

variable {a : Automaton}

/-- The number of accepted words of a length is counted exactly: no check fails on the way, and
there are so many different words. -/
theorem countWords_spec (ha : a.WellFormed) (ht : a.Truthful) (n : Nat) :
    {w | a.Accepts w ∧ w.length = n}.Finite ∧
    a.countWords n = .ok {w | a.Accepts w ∧ w.length = n}.ncard := by
  cases a with
  | singleton v =>
    have hmem : ∀ w, w ∈ (if v.length = n then [v] else []) ↔
        (singleton v).Accepts w ∧ w.length = n := by
      intro w
      split
      · next hv =>
        rw [List.mem_singleton]
        exact ⟨fun h => ⟨h, h ▸ hv⟩, And.left⟩
      · next hv =>
        refine iff_of_false List.not_mem_nil ?_
        rintro ⟨rfl, h⟩
        exact hv h
    have hnodup : (if v.length = n then [v] else []).Nodup := by
      split
      · exact List.nodup_singleton v
      · exact List.nodup_nil
    obtain ⟨hfin, hcard⟩ := ncard_eq_length hnodup hmem
    refine ⟨hfin, ?_⟩
    rw [hcard, countWords]
    split <;> rfl
  | graph g =>
    have hg : g.WellFormed := ha
    have hdet := Graph.isDeterministic_determinize ht
    have hmem : ∀ w, w ∈ g.determinize.words n g.determinize.initial ↔
        (graph g).Accepts w ∧ w.length = n := fun w =>
      Graph.mem_words_iff.trans (and_congr_left' (Graph.accepts_determinize hg))
    obtain ⟨hfin, hcard⟩ :=
      ncard_eq_length (hdet.nodup_words g.determinize.isReachable_initial) hmem
    refine ⟨hfin, ?_⟩
    rw [hcard, countWords, determinize_graph hg]
    exact Graph.countPaths_eq hg.determinize n

/-- Two transitions that overlap, each of three letters across the surrogate gap. -/
def crossing : Graph where
  states := #[{ transitions := [.between '\uD7FE' '\uE000' 1, .between '\uD7FF' '\uE001' 1] },
    { accept := true }]
  deterministic := false

theorem countWords_spec_crossing : (graph crossing).WellFormed ∧ (graph crossing).Truthful ∧
    (graph crossing).countWords 1 = .ok 4 ∧
    {w | crossing.Accepts w ∧ w.length = 1}.ncard = 4 := by
  have hwf : (graph crossing).WellFormed := ⟨by decide, by decide⟩
  have ht : (graph crossing).Truthful := fun h => by cases h
  have hmem : ∀ w, w ∈ (crossing.words 1 crossing.initial).dedup ↔
      crossing.Accepts w ∧ w.length = 1 := fun w => List.mem_dedup.trans Graph.mem_words_iff
  have hfour : {w | crossing.Accepts w ∧ w.length = 1}.ncard = 4 :=
    (ncard_eq_length (List.nodup_dedup _) hmem).2.trans (by decide)
  have hcount := (countWords_spec hwf ht 1).2
  exact ⟨hwf, ht, hcount.trans (congrArg Except.ok hfour), hfour⟩

end Automaton

end RegLang
