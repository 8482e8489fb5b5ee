import Mathlib.Data.List.TakeWhile
import RegLang.Minimize.Marking
import RegLang.Overlap
import RegLang.Proofs.Determinism
import RegLang.Proofs.Merging
/-!
# Overlapping transitions

Two states are walked through side by side, interval by interval.  What the walk finds are the
pairs of targets that one letter leads to.

* `mem_overlapTargets`: for disjoint transitions.
* `mem_meets`: with the intervals they share, for any transitions in order of their lower bounds.
-/

namespace RegLang.Transition

open Alphabet (rank)

variable {ts us : List Transition} {t u : Transition}

/-- Two transitions share a letter. -/
def Meet (t u : Transition) : Prop := rank t.lo ≤ rank u.hi ∧ rank u.lo ≤ rank t.hi

theorem meet_iff : Meet t u ↔ ∃ c, t.contains c = true ∧ u.contains c = true := by
  have ht := t.rank_lo_le_hi
  have hu := u.rank_lo_le_hi
  unfold Meet
  constructor
  · intro h
    rcases Nat.le_total (rank t.lo) (rank u.lo) with hle | hle
    · exact ⟨u.lo, contains_iff_rank.2 (by omega), u.contains_lo⟩
    · exact ⟨t.lo, t.contains_lo, contains_iff_rank.2 (by omega)⟩
  · rintro ⟨c, h1, h2⟩
    rw [contains_iff_rank] at h1 h2
    omega

/-- Disjoint transitions are ascending once they are sorted by lower bounds. -/
theorem ascending_sortByLower {s : State} (h : s.Disjoint) :
    Ascending (sortByLower s.transitions) := by
  have hsymm : ∀ {t u : Transition}, (∀ c, ¬ (t.contains c = true ∧ u.contains c = true)) →
      ∀ c, ¬ (u.contains c = true ∧ t.contains c = true) := fun h c hc => h c hc.symm
  have hperm : (sortByLower s.transitions).Perm s.transitions := List.mergeSort_perm _ _
  have hdisj := (hperm.pairwise_iff hsymm).2 h
  apply ((pairwise_sortByLower s.transitions).and hdisj).imp
  rintro t u ⟨hle, hc⟩
  rw [Alphabet.le_iff_rank] at hle
  have hu := u.rank_lo_le_hi
  apply Nat.lt_of_not_le
  intro hge
  exact hc u.lo ⟨contains_iff_rank.2 ⟨hle, hge⟩, u.contains_lo⟩

/-! ## Disjoint transitions -/

/-- A transition that ends before another begins meets nothing after that one. -/
theorem not_meet_of_hi_lt (hus : Ascending (u :: us)) (hlt : rank t.hi < rank u.lo) :
    ∀ v ∈ u :: us, ¬ Meet t v := by
  have hu := u.rank_lo_le_hi
  intro v hv hm
  unfold Meet at hm
  rcases List.mem_cons.1 hv with rfl | hv
  · omega
  · have h := (List.pairwise_cons.1 hus).1 v hv
    omega

/-- One that ends no later than another meets nothing after that one. -/
theorem not_meet_of_hi_le (hus : Ascending (u :: us)) (hle : rank t.hi ≤ rank u.hi) :
    ∀ v ∈ us, ¬ Meet t v := by
  intro v hv hm
  have h := (List.pairwise_cons.1 hus).1 v hv
  unfold Meet at hm
  omega

theorem Meet.symm (h : Meet t u) : Meet u t := ⟨h.2, h.1⟩

/-- Some transitions of two lists that share a letter have the given targets. -/
def Meeting (ts us : List Transition) (p : StatePair) : Prop :=
  ∃ t ∈ ts, ∃ u ∈ us, Meet t u ∧ (t.target, u.target) = p

theorem meeting_cons_left {p : StatePair} : Meeting (t :: ts) us p ↔
    (∃ u ∈ us, Meet t u ∧ (t.target, u.target) = p) ∨ Meeting ts us p := by
  simp [Meeting]

theorem meeting_cons_right {p : StatePair} : Meeting ts (u :: us) p ↔
    (∃ t ∈ ts, Meet t u ∧ (t.target, u.target) = p) ∨ Meeting ts us p := by
  constructor
  · rintro ⟨a, ha, b, hb, h⟩
    rcases List.mem_cons.1 hb with rfl | hb
    · exact .inl ⟨a, ha, h⟩
    · exact .inr ⟨a, ha, b, hb, h⟩
  · rintro (⟨a, ha, h⟩ | ⟨a, ha, b, hb, h⟩)
    · exact ⟨a, ha, u, List.mem_cons_self, h⟩
    · exact ⟨a, ha, b, List.mem_cons_of_mem _ hb, h⟩

theorem mem_overlapTargets (hts : Ascending ts) (hus : Ascending us) {p : StatePair} :
    p ∈ Marking.overlapTargets ts us ↔ Meeting ts us p := by
  induction ts, us using Marking.overlapTargets.induct with
  | case1 us => simp [Marking.overlapTargets, Meeting]
  | case2 ts _ => cases ts <;> simp [Marking.overlapTargets, Meeting]
  | case3 t ts u us hlt ih =>
    have hnone := not_meet_of_hi_lt hus (Alphabet.lt_iff_rank.1 hlt)
    rw [Marking.overlapTargets, if_pos hlt, ih (List.pairwise_cons.1 hts).2 hus, meeting_cons_left]
    exact (or_iff_right fun ⟨v, hv, hm, _⟩ => hnone v hv hm).symm
  | case4 t ts u us hlt hlt' ih =>
    have hnone := not_meet_of_hi_lt hts (Alphabet.lt_iff_rank.1 hlt')
    rw [Marking.overlapTargets, if_neg hlt, if_pos hlt', ih hts (List.pairwise_cons.1 hus).2,
      meeting_cons_right]
    exact (or_iff_right fun ⟨v, hv, hm, _⟩ => hnone v hv hm.symm).symm
  | case5 t ts u us hlt hlt' ih ih' =>
    have hmeet : Meet t u := by
      rw [Alphabet.lt_iff_rank] at hlt hlt'
      exact ⟨Nat.le_of_not_lt hlt', Nat.le_of_not_lt hlt⟩
    rw [Marking.overlapTargets, if_neg hlt, if_neg hlt', List.mem_cons]
    -- the transition that ends first meets nothing else
    by_cases hhi : t.hi < u.hi
    · have hnone := not_meet_of_hi_le hus (Nat.le_of_lt (Alphabet.lt_iff_rank.1 hhi))
      rw [if_pos hhi, ih (List.pairwise_cons.1 hts).2 hus, meeting_cons_left]
      apply or_congr_left
      constructor
      · rintro rfl
        exact ⟨u, List.mem_cons_self, hmeet, rfl⟩
      · rintro ⟨v, hv, hm, rfl⟩
        rcases List.mem_cons.1 hv with rfl | hv
        · rfl
        · exact absurd hm (hnone v hv)
    · have hle : rank u.hi ≤ rank t.hi := by
        rw [Alphabet.lt_iff_rank] at hhi
        omega
      have hnone := not_meet_of_hi_le hts hle
      rw [if_neg hhi, ih' hts (List.pairwise_cons.1 hus).2, meeting_cons_right]
      apply or_congr_left
      constructor
      · rintro rfl
        exact ⟨t, List.mem_cons_self, hmeet, rfl⟩
      · rintro ⟨v, hv, hm, rfl⟩
        rcases List.mem_cons.1 hv with rfl | hv
        · rfl
        · exact absurd hm.symm (hnone v hv)

theorem length_overlapTargets_le (ts us : List Transition) :
    (Marking.overlapTargets ts us).length ≤ ts.length + us.length := by
  induction ts, us using Marking.overlapTargets.induct with
  | case1 us => simp [Marking.overlapTargets]
  | case2 ts _ => cases ts <;> simp [Marking.overlapTargets]
  | case3 t ts u us hlt ih =>
    rw [Marking.overlapTargets, if_pos hlt, List.length_cons]
    omega
  | case4 t ts u us hlt hlt' ih =>
    rw [Marking.overlapTargets, if_neg hlt, if_pos hlt']
    simp only [List.length_cons] at ih ⊢
    omega
  | case5 t ts u us hlt hlt' ih ih' =>
    rw [Marking.overlapTargets, if_neg hlt, if_neg hlt']
    split <;> simp only [List.length_cons] at ih ih' ⊢ <;> omega

/-- One letter leads disjoint transitions to the pairs of targets that are found. -/
theorem mem_overlapTargets_iff_stepAll {s s' : State} (h : s.Disjoint) (h' : s'.Disjoint)
    {p : StatePair} :
    p ∈ Marking.overlapTargets (sortByLower s.transitions) (sortByLower s'.transitions) ↔
      ∃ c, p.1 ∈ s.stepAll c ∧ p.2 ∈ s'.stepAll c := by
  rw [mem_overlapTargets (ascending_sortByLower h) (ascending_sortByLower h')]
  simp only [Meeting, mem_sortByLower, meet_iff, State.mem_stepAll]
  constructor
  · rintro ⟨t, ht, u, hu, ⟨c, hc, hc'⟩, rfl⟩
    exact ⟨c, ⟨t, ht, hc, rfl⟩, ⟨u, hu, hc', rfl⟩⟩
  · rintro ⟨c, ⟨t, ht, hc, h1⟩, ⟨u, hu, hc', h2⟩⟩
    exact ⟨t, ht, u, hu, ⟨c, hc, hc'⟩, Prod.ext h1 h2⟩

/-! ## Common intervals -/

/-- The interval that two transitions share, with both targets. -/
def common (t u : Transition) : Char × Char × Nat × Nat :=
  (Alphabet.upper t.lo u.lo, Alphabet.lower t.hi u.hi, t.target, u.target)

theorem rank_common_lo : rank (common t u).1 = max (rank t.lo) (rank u.lo) := by
  show rank (Alphabet.upper t.lo u.lo) = _
  unfold Alphabet.upper
  split
  · next h =>
    rw [Alphabet.lt_iff_rank] at h
    omega
  · next h =>
    rw [Alphabet.lt_iff_rank] at h
    omega

theorem rank_common_hi : rank (common t u).2.1 = min (rank t.hi) (rank u.hi) := by
  show rank (Alphabet.lower t.hi u.hi) = _
  unfold Alphabet.lower
  split
  · next h =>
    rw [Alphabet.lt_iff_rank] at h
    omega
  · next h =>
    rw [Alphabet.lt_iff_rank] at h
    omega

theorem mem_common_iff {c : Char} : (common t u).1 ≤ c ∧ c ≤ (common t u).2.1 ↔
    t.contains c = true ∧ u.contains c = true := by
  rw [contains_iff_rank, contains_iff_rank, Alphabet.le_iff_rank, Alphabet.le_iff_rank,
    rank_common_lo, rank_common_hi]
  omega

theorem Meet.common_le (h : Meet t u) : (common t u).1 ≤ (common t u).2.1 := by
  have ht := t.rank_lo_le_hi
  have hu := u.rank_lo_le_hi
  unfold Meet at h
  rw [Alphabet.le_iff_rank, rank_common_lo, rank_common_hi]
  omega

/-- What is left of a list once transitions that end before another begins are dropped. -/
def dropBefore (t : Transition) (us : List Transition) : List Transition :=
  us.dropWhile fun u => u.hi < t.lo

/-- What another transition meets in a list whose first transition does not end too early. -/
def window (t : Transition) (us : List Transition) : List Transition :=
  (us.takeWhile fun u => u.lo ≤ t.hi).filter fun u => t.lo ≤ u.hi

theorem meets_cons (t : Transition) (ts us : List Transition) : meets (t :: ts) us =
    (window t (dropBefore t us)).map (common t) ++ meets ts (dropBefore t us) := rfl

theorem mem_dropBefore_of_le (hu : u ∈ us) (hle : t.lo ≤ u.hi) : u ∈ dropBefore t us := by
  have happend : us.takeWhile (fun u => u.hi < t.lo) ++ dropBefore t us = us :=
    List.takeWhile_append_dropWhile
  rw [← happend] at hu
  rcases List.mem_append.1 hu with hu | hu
  · have hlt : u.hi < t.lo := by simpa using List.mem_takeWhile_imp hu
    rw [Alphabet.lt_iff_rank] at hlt
    rw [Alphabet.le_iff_rank] at hle
    omega
  · exact hu

theorem mem_window (hus : us.Pairwise fun t u => t.lo ≤ u.lo) :
    u ∈ window t us ↔ u ∈ us ∧ Meet t u := by
  unfold window
  rw [List.mem_filter]
  induction us with
  | nil => simp
  | cons v us ih =>
    obtain ⟨hv, hus'⟩ := List.pairwise_cons.1 hus
    rw [List.takeWhile_cons]
    by_cases hle : v.lo ≤ t.hi
    · rw [if_pos (decide_eq_true hle), List.mem_cons, List.mem_cons, or_and_right, ih hus',
        or_and_right]
      apply or_congr_left
      apply and_congr_right
      rintro rfl
      rw [decide_eq_true_iff]
      unfold Meet
      rw [Alphabet.le_iff_rank] at hle ⊢
      exact (and_iff_left hle).symm
    · -- a transition that begins too late is followed by such only
      rw [if_neg (by simpa using hle)]
      constructor
      · rintro ⟨h, _⟩
        cases h
      · rintro ⟨hu, hm⟩
        exfalso
        have hge : v.lo ≤ u.lo := by
          rcases List.mem_cons.1 hu with rfl | hu
          · exact Char.le_refl _
          · exact hv u hu
        unfold Meet at hm
        rw [Alphabet.le_iff_rank] at hle hge
        omega

theorem mem_meets (hts : ts.Pairwise fun t u => t.lo ≤ u.lo)
    (hus : us.Pairwise fun t u => t.lo ≤ u.lo) {r : Char × Char × Nat × Nat} :
    r ∈ meets ts us ↔ ∃ t ∈ ts, ∃ u ∈ us, Meet t u ∧ common t u = r := by
  induction ts generalizing us with
  | nil => simp [meets, sweep]
  | cons t ts ih =>
    obtain ⟨ht, hts'⟩ := List.pairwise_cons.1 hts
    have hrest : (dropBefore t us).Sublist us := List.dropWhile_sublist _
    -- nothing that is dropped meets this or a later transition
    have hkeep : ∀ t' ∈ t :: ts, ∀ u, u ∈ dropBefore t us ∧ Meet t' u ↔ u ∈ us ∧ Meet t' u := by
      intro t' ht' u
      refine ⟨fun h => ⟨hrest.subset h.1, h.2⟩, fun h => ⟨mem_dropBefore_of_le h.1 ?_, h.2⟩⟩
      have hle : t.lo ≤ t'.lo := by
        rcases List.mem_cons.1 ht' with rfl | ht'
        · exact Char.le_refl _
        · exact ht t' ht'
      have hm := h.2.1
      rw [Alphabet.le_iff_rank] at hle ⊢
      omega
    rw [meets_cons, List.mem_append, List.mem_map, ih hts' (hus.sublist hrest)]
    simp only [List.mem_cons, exists_eq_or_imp, mem_window (hus.sublist hrest)]
    apply or_congr
    · apply exists_congr
      intro u
      rw [hkeep t List.mem_cons_self u, and_assoc]
    · apply exists_congr
      intro t'
      apply and_congr_right
      intro ht'
      apply exists_congr
      intro u
      rw [← and_assoc, hkeep t' (List.mem_cons_of_mem _ ht') u, and_assoc]

theorem Ascending.pairwise_lo (h : Ascending ts) : ts.Pairwise fun t u => t.lo ≤ u.lo := by
  apply h.imp
  intro t u hlt
  have ht := t.rank_lo_le_hi
  rw [Alphabet.le_iff_rank]
  omega

/-- The common intervals of disjoint transitions are disjoint. -/
theorem pairwise_meets (hts : Ascending ts) (hus : Ascending us) :
    (meets ts us).Pairwise fun r s => r.2.1 < s.1 := by
  induction ts generalizing us with
  | nil => exact List.Pairwise.nil
  | cons t ts ih =>
    obtain ⟨ht, hts'⟩ := List.pairwise_cons.1 hts
    have hrest : (dropBefore t us).Sublist us := List.dropWhile_sublist _
    have hwindow : (window t (dropBefore t us)).Sublist us :=
      (List.filter_sublist.trans (List.takeWhile_sublist _)).trans hrest
    rw [meets_cons, List.pairwise_append]
    refine ⟨?_, ih hts' (hus.sublist hrest), ?_⟩
    · rw [List.pairwise_map]
      apply (hus.sublist hwindow).imp
      intro u v hlt
      rw [Alphabet.lt_iff_rank, rank_common_lo, rank_common_hi]
      omega
    · intro r hr s hs
      obtain ⟨u, _, rfl⟩ := List.mem_map.1 hr
      obtain ⟨t', ht', v, _, _, rfl⟩ :=
        (mem_meets (Ascending.pairwise_lo hts') (Ascending.pairwise_lo (hus.sublist hrest))).1 hs
      have hlt := ht t' ht'
      rw [Alphabet.lt_iff_rank, rank_common_lo, rank_common_hi]
      omega

end RegLang.Transition
