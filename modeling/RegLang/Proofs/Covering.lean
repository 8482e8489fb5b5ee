import RegLang.Proofs.Overlaps
/-!
# Windows and coverage

The transitions of two states are compared with one cursor into the second list, which only moves
on.  As lower bounds ascend, no transition misses what the cursor has passed: each has the window
that it would have alone, which holds what it shares a letter with.  A window that begins late, ends
early or has a gap leaves a letter uncovered, and every letter does that is uncovered by it.

* `sweep_eq`: each transition has its own window.
* `mem_pairTargets`: the pairs of targets that one letter leads to.
* `covers_iff`, `coveredBy_iff`: what it means that no letter is left.
-/

namespace RegLang

/-- Position of the next letter to be covered; none is past the last one. -/
def Alphabet.rankFrom (n : Option Char) : Nat := n.elim size rank

theorem Alphabet.rankFrom_next (c : Char) : rankFrom (next? c) = rank c + 1 := by
  cases hn : next? c with
  | some d => exact next?_eq_some_iff.1 hn
  | none =>
    rw [next?_eq_none_iff.1 hn]
    exact rank_last.symm

namespace Transition

open Alphabet (rank rankFrom rankFrom_next)

variable {ts us : List Transition} {t u : Transition}

/-! ## Windows -/

/-- What a transition is compared with: the part of a list between what ends before it and what
begins after it. -/
def span (t : Transition) (us : List Transition) : List Transition :=
  (dropBefore t us).takeWhile fun u => u.lo ≤ t.hi

theorem span_subset (t : Transition) (us : List Transition) : span t us ⊆ us :=
  ((List.takeWhile_sublist _).trans (List.dropWhile_sublist _)).subset

/-- What was dropped for a transition would be dropped for a later one. -/
theorem dropBefore_dropBefore {t' : Transition} (h : t.lo ≤ t'.lo) (us : List Transition) :
    dropBefore t' (dropBefore t us) = dropBefore t' us := by
  induction us with
  | nil => rfl
  | cons u us ih =>
    by_cases hu : u.hi < t.lo
    · have hu' : u.hi < t'.lo := Alphabet.lt_iff_rank.2
        (Nat.lt_of_lt_of_le (Alphabet.lt_iff_rank.1 hu) (Alphabet.le_iff_rank.1 h))
      have hdrop : dropBefore t (u :: us) = dropBefore t us :=
        List.dropWhile_cons_of_pos (decide_eq_true hu)
      have hdrop' : dropBefore t' (u :: us) = dropBefore t' us :=
        List.dropWhile_cons_of_pos (decide_eq_true hu')
      rw [hdrop, hdrop', ih]
    · have hkeep : dropBefore t (u :: us) = u :: us :=
        List.dropWhile_cons_of_neg (by simpa using hu)
      rw [hkeep]

/-- The cursor that the transitions share leaves each of them the window it would have alone. -/
theorem sweep_eq (hts : ts.Pairwise fun t u => t.lo ≤ u.lo) :
    sweep ts us = ts.map fun t => (t, span t us) := by
  induction ts generalizing us with
  | nil => rfl
  | cons t ts ih =>
    obtain ⟨ht, hts'⟩ := List.pairwise_cons.1 hts
    have hrest : (ts.map fun t' => (t', span t' (dropBefore t us))) =
        ts.map fun t' => (t', span t' us) := by
      apply List.map_congr_left
      intro t' ht'
      unfold span
      rw [dropBefore_dropBefore (ht t' ht')]
    show (t, span t us) :: sweep ts (dropBefore t us) = _
    rw [ih hts', hrest]
    rfl

/-- In ascending order what follows a transition that ends late enough does so as well. -/
theorem le_hi_of_mem_dropBefore (hus : Ascending us) (hu : u ∈ dropBefore t us) : t.lo ≤ u.hi := by
  induction us with
  | nil => cases hu
  | cons v us ih =>
    obtain ⟨hv, hus'⟩ := List.pairwise_cons.1 hus
    by_cases hlt : v.hi < t.lo
    · have hdrop : dropBefore t (v :: us) = dropBefore t us :=
        List.dropWhile_cons_of_pos (decide_eq_true hlt)
      exact ih hus' (hdrop ▸ hu)
    · have hkeep : dropBefore t (v :: us) = v :: us :=
        List.dropWhile_cons_of_neg (by simpa using hlt)
      rw [hkeep] at hu
      rw [Alphabet.lt_iff_rank] at hlt
      rw [Alphabet.le_iff_rank]
      rcases List.mem_cons.1 hu with rfl | hu
      · omega
      · have hlo := hv u hu
        have hu := u.rank_lo_le_hi
        omega

/-- A window holds what the transition shares a letter with. -/
theorem mem_span (hus : Ascending us) : u ∈ span t us ↔ u ∈ us ∧ Meet t u := by
  have hrest : (dropBefore t us).Sublist us := List.dropWhile_sublist _
  have hwindow : span t us = window t (dropBefore t us) := by
    symm
    apply List.filter_eq_self.2
    intro v hv
    exact decide_eq_true (le_hi_of_mem_dropBefore hus ((List.takeWhile_sublist _).subset hv))
  rw [hwindow, mem_window (Ascending.pairwise_lo (hus.sublist hrest))]
  constructor
  · exact fun h => ⟨hrest.subset h.1, h.2⟩
  · exact fun h => ⟨mem_dropBefore_of_le h.1 (Alphabet.le_iff_rank.2 h.2.1), h.2⟩

/-! ## Pairs of targets -/

theorem mem_pairTargets_iff_span (hts : ts.Pairwise fun t u => t.lo ≤ u.lo) {p : StatePair} :
    p ∈ pairTargets ts us ↔ ∃ t ∈ ts, ∃ u ∈ span t us, (t.target, u.target) = p := by
  unfold pairTargets
  rw [sweep_eq hts, List.mem_flatMap]
  simp only [List.mem_map, exists_exists_and_eq_and]

theorem mem_pairTargets (hts : ts.Pairwise fun t u => t.lo ≤ u.lo) (hus : Ascending us)
    {p : StatePair} : p ∈ pairTargets ts us ↔ Meeting ts us p := by
  rw [mem_pairTargets_iff_span hts]
  simp only [Meeting, mem_span hus, and_assoc]

/-! ## Coverage -/

/-- The letters from a place on up to a bound are letters of some transition of a list. -/
def Covered (us : List Transition) (n : Nat) (hi : Char) : Prop :=
  ∀ c, n ≤ rank c → c ≤ hi → ∃ u ∈ us, u.contains c = true

/-- What begins in time covers up to its end, and the rest must cover what is behind. -/
theorem covered_cons_iff {n : Nat} {hi : Char} (hus : Ascending (u :: us)) (hn : n ≤ rank u.hi)
    (hlo : u.lo ≤ hi) :
    Covered (u :: us) n hi ↔ rank u.lo ≤ n ∧ Covered us (rank u.hi + 1) hi := by
  obtain ⟨hu, _⟩ := List.pairwise_cons.1 hus
  rw [Alphabet.le_iff_rank] at hlo
  constructor
  · intro h
    constructor
    · -- the letter at `n` can be covered by nothing else
      apply Nat.le_of_not_lt
      intro hlt
      have hrank := Alphabet.rank_ofRank (Nat.lt_of_le_of_lt hn (Alphabet.rank_lt_size u.hi))
      obtain ⟨v, hv, hc⟩ := h (Alphabet.ofRank n) (Nat.le_of_eq hrank.symm)
        (Alphabet.le_iff_rank.2 (by omega))
      rw [contains_iff_rank, hrank] at hc
      rcases List.mem_cons.1 hv with rfl | hv
      · omega
      · have hlo' := hu v hv
        omega
    · intro c hc hle
      obtain ⟨v, hv, hcv⟩ := h c (by omega) hle
      rcases List.mem_cons.1 hv with rfl | hv
      · rw [contains_iff_rank] at hcv
        omega
      · exact ⟨v, hv, hcv⟩
  · rintro ⟨hbegin, h⟩ c hc hle
    by_cases hend : rank c ≤ rank u.hi
    · exact ⟨u, List.mem_cons_self, contains_iff_rank.2 ⟨by omega, hend⟩⟩
    · obtain ⟨v, hv, hcv⟩ := h c (by omega) hle
      exact ⟨v, List.mem_cons_of_mem u hv, hcv⟩

/-- The test for coverage decides it, for transitions that end in time and begin in time. -/
theorem covers_iff {n : Option Char} {hi : Char} (hus : Ascending us)
    (hn : ∀ u ∈ us, rankFrom n ≤ rank u.hi) (hlo : ∀ u ∈ us, u.lo ≤ hi) :
    covers hi n us = true ↔ Covered us (rankFrom n) hi := by
  induction us generalizing n with
  | nil =>
    cases n with
    | none =>
      refine iff_of_true rfl fun c hc _ => ?_
      have hlt := Alphabet.rank_lt_size c
      exact absurd hc (Nat.not_le_of_lt hlt)
    | some m =>
      show decide (hi < m) = true ↔ _
      rw [decide_eq_true_iff]
      constructor
      · intro hlt c hc hle
        have hmc : rank m ≤ rank c := hc
        rw [Alphabet.lt_iff_rank] at hlt
        rw [Alphabet.le_iff_rank] at hle
        omega
      · intro h
        rw [Alphabet.lt_iff_rank]
        apply Nat.lt_of_not_le
        intro hle
        obtain ⟨u, hu, _⟩ := h m (Nat.le_refl _) (Alphabet.le_iff_rank.2 hle)
        cases hu
  | cons u us ih =>
    obtain ⟨hu, hus'⟩ := List.pairwise_cons.1 hus
    have hrest : covers hi (Alphabet.next? u.hi) us = true ↔ Covered us (rank u.hi + 1) hi := by
      rw [← rankFrom_next]
      apply ih hus'
      · intro v hv
        have hlt := hu v hv
        have hv := v.rank_lo_le_hi
        rw [rankFrom_next]
        omega
      · exact fun v hv => hlo v (List.mem_cons_of_mem u hv)
    have hnu := hn u List.mem_cons_self
    rw [covered_cons_iff hus hnu (hlo u List.mem_cons_self), ← hrest]
    cases n with
    | none => exact absurd hnu (Nat.not_le_of_lt (Alphabet.rank_lt_size u.hi))
    | some m =>
      show (!decide (m < u.lo) && covers hi (Alphabet.next? u.hi) us) = true ↔ _
      rw [Bool.and_eq_true, Bool.not_eq_true', decide_eq_false_iff_not, Alphabet.lt_iff_rank,
        Nat.not_lt]
      exact Iff.rfl

/-- A window covers a transition if the whole list does. -/
theorem covered_span_iff (hus : Ascending us) : Covered (span t us) (rank t.lo) t.hi ↔
    ∀ c, t.contains c = true → ∃ u ∈ us, u.contains c = true := by
  constructor
  · intro h c hc
    have hbounds := contains_iff_rank.1 hc
    obtain ⟨u, hu, hcu⟩ := h c hbounds.1 (Alphabet.le_iff_rank.2 hbounds.2)
    exact ⟨u, span_subset t us hu, hcu⟩
  · intro h c hlo hhi
    have hc : t.contains c = true := contains_iff_rank.2 ⟨hlo, Alphabet.le_iff_rank.1 hhi⟩
    obtain ⟨u, hu, hcu⟩ := h c hc
    exact ⟨u, (mem_span hus).2 ⟨hu, meet_iff.2 ⟨c, hc, hcu⟩⟩, hcu⟩

/-- The test for coverage of a list decides whether each of its letters is covered. -/
theorem coveredBy_iff (hts : ts.Pairwise fun t u => t.lo ≤ u.lo) (hus : Ascending us) :
    coveredBy ts us = true ↔
      ∀ t ∈ ts, ∀ c, t.contains c = true → ∃ u ∈ us, u.contains c = true := by
  unfold coveredBy
  rw [sweep_eq hts, List.all_map, List.all_eq_true]
  apply forall_congr'
  intro t
  apply imp_congr_right
  intro _
  have hspan : Ascending (span t us) :=
    hus.sublist ((List.takeWhile_sublist _).trans (List.dropWhile_sublist _))
  have hmeet : ∀ u ∈ span t us, Meet t u := fun u hu => ((mem_span hus).1 hu).2
  show covers t.hi (some t.lo) (span t us) = true ↔ _
  rw [← covered_span_iff hus]
  exact covers_iff hspan (fun u hu => (hmeet u hu).1) fun u hu =>
    Alphabet.le_iff_rank.2 (hmeet u hu).2

end Transition

end RegLang
