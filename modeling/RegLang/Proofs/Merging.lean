import Mathlib.Data.List.Pairwise
import RegLang.Proofs.Letters
/-!
# Merged transitions

A list of transitions is normal if it is sorted by targets and the intervals to one target are in
ascending order with letters between them.  Sorting and merging makes a list normal and keeps what
it reads.  Normal lists are canonical: their transitions are the maximal runs of letters on which
they read one target, so what a normal list reads determines it.

    Normal ts → Normal us → (∀ c q, Reads ts c q ↔ Reads us c q) → ts = us      (eq_of_reads)
-/

namespace RegLang

namespace Transition

open Alphabet (rank rank_eq_iff le_iff_rank lt_iff_rank)

/-- Some transition of the list leads to `q` on the letter `c`. -/
def Reads (ts : List Transition) (c : Char) (q : Nat) : Prop :=
  ∃ t ∈ ts, t.contains c = true ∧ t.target = q

/-- The order in which transitions are merged. -/
def Ahead (t u : Transition) : Prop :=
  t.target < u.target ∨ (t.target = u.target ∧ rank t.lo ≤ rank u.lo)

/-- The first transition has a smaller target, or the same one and ends well before the other
begins. -/
def Apart (t u : Transition) : Prop :=
  t.target < u.target ∨ (t.target = u.target ∧ rank t.hi + 1 < rank u.lo)

/-- Sorted by targets, with letters left out between the intervals to one target. -/
def Normal (ts : List Transition) : Prop := ts.Pairwise Apart

/-- In ascending order of letters, none of which two transitions share. -/
def Ascending (ts : List Transition) : Prop := ts.Pairwise fun t u => rank t.hi < rank u.lo

theorem reads_cons_iff {t : Transition} {ts : List Transition} {c : Char} {q : Nat} :
    Reads (t :: ts) c q ↔ (t.contains c = true ∧ t.target = q) ∨ Reads ts c q := by
  simp [Reads]

/-! ## Sorting -/

theorem contains_lo (t : Transition) : t.contains t.lo = true :=
  contains_iff.2 ⟨Char.le_refl _, t.lo_le_hi⟩

theorem ext_rank {t u : Transition} (hlo : rank t.lo = rank u.lo) (hhi : rank t.hi = rank u.hi)
    (hq : t.target = u.target) : t = u := by
  obtain ⟨lo, hi, q, _⟩ := t
  obtain ⟨lo', hi', q', _⟩ := u
  obtain rfl : lo = lo' := Alphabet.rank_inj hlo
  obtain rfl : hi = hi' := Alphabet.rank_inj hhi
  obtain rfl : q = q' := hq
  rfl

theorem targetFirst_iff {t u : Transition} : targetFirst t u = true ↔
    t.target < u.target ∨ (t.target = u.target ∧
      (rank t.lo < rank u.lo ∨ (rank t.lo = rank u.lo ∧ rank u.hi ≤ rank t.hi))) := by
  simp only [targetFirst, Bool.or_eq_true, Bool.and_eq_true, decide_eq_true_iff, lt_iff_rank,
    le_iff_rank, rank_eq_iff]

theorem lowerFirst_iff {t u : Transition} : lowerFirst t u = true ↔
    rank t.lo < rank u.lo ∨ (rank t.lo = rank u.lo ∧
      (rank u.hi < rank t.hi ∨ (rank t.hi = rank u.hi ∧ t.target ≤ u.target))) := by
  simp only [lowerFirst, Bool.or_eq_true, Bool.and_eq_true, decide_eq_true_iff, lt_iff_rank,
    rank_eq_iff]

/-- Sorted by targets, and by lower bounds among transitions to one target. -/
theorem pairwise_sortByTarget (ts : List Transition) : (sortByTarget ts).Pairwise Ahead := by
  have h : (sortByTarget ts).Pairwise fun t u => targetFirst t u = true := by
    apply List.pairwise_mergeSort
    · intro a b c hab hbc
      rw [targetFirst_iff] at *
      omega
    · intro a b
      rw [Bool.or_eq_true, targetFirst_iff, targetFirst_iff]
      omega
  apply h.imp
  intro t u htu
  rw [targetFirst_iff] at htu
  unfold Ahead
  omega

theorem pairwise_sortByLower (ts : List Transition) :
    (sortByLower ts).Pairwise fun t u => t.lo ≤ u.lo := by
  have h : (sortByLower ts).Pairwise fun t u => lowerFirst t u = true := by
    apply List.pairwise_mergeSort
    · intro a b c hab hbc
      rw [lowerFirst_iff] at *
      omega
    · intro a b
      rw [Bool.or_eq_true, lowerFirst_iff, lowerFirst_iff]
      omega
  apply h.imp
  intro t u htu
  rw [lowerFirst_iff] at htu
  rw [le_iff_rank]
  omega

/-! ## Merging -/

theorem mergeable_iff {t u : Transition} :
    mergeable t u = true ↔ t.target = u.target ∧ rank u.lo ≤ rank t.hi + 1 := by
  rw [mergeable, Bool.and_eq_true, decide_eq_true_iff, Alphabet.touches_iff]

/-- Extending keeps the lower bound and the target and takes the further upper bound. -/
theorem extend_spec (t u : Transition) : (extend t u).target = t.target ∧
    rank (extend t u).lo = rank t.lo ∧ rank (extend t u).hi = max (rank t.hi) (rank u.hi) := by
  have hle : t.lo ≤ Alphabet.upper t.hi u.hi :=
    Char.le_trans t.lo_le_hi (Alphabet.le_upper_left t.hi u.hi)
  rw [extend, between_of_le hle]
  refine ⟨rfl, rfl, ?_⟩
  show rank (Alphabet.upper t.hi u.hi) = _
  unfold Alphabet.upper
  split
  · next h =>
    rw [lt_iff_rank] at h
    omega
  · next h =>
    rw [lt_iff_rank] at h
    omega

/-- An extended interval has the letters of both. -/
theorem extend_contains {t u : Transition} (hm : mergeable t u = true)
    (hle : rank t.lo ≤ rank u.lo) {c : Char} :
    (extend t u).contains c = true ↔ t.contains c = true ∨ u.contains c = true := by
  obtain ⟨_, hlo, hhi⟩ := extend_spec t u
  have htouch := (mergeable_iff.1 hm).2
  have ht := t.rank_lo_le_hi
  have hu := u.rank_lo_le_hi
  rw [contains_iff_rank, contains_iff_rank, contains_iff_rank, hlo, hhi]
  omega

/-- Merging into a transition of a sorted list keeps the list sorted. -/
theorem pairwise_extend {t u : Transition} {us : List Transition}
    (h : (t :: u :: us).Pairwise Ahead) : (extend t u :: us).Pairwise Ahead := by
  obtain ⟨ht, hus⟩ := List.pairwise_cons.1 h
  obtain ⟨hq, hlo, _⟩ := extend_spec t u
  apply List.pairwise_cons.2 ⟨?_, (List.pairwise_cons.1 hus).2⟩
  intro v hv
  unfold Ahead
  rw [hq, hlo]
  exact ht v (List.mem_cons_of_mem _ hv)

theorem reads_mergeFrom {us : List Transition} {t : Transition}
    (h : (t :: us).Pairwise Ahead) {c : Char} {q : Nat} :
    Reads (mergeFrom t us) c q ↔ Reads (t :: us) c q := by
  induction us generalizing t with
  | nil => exact Iff.rfl
  | cons u us ih =>
    obtain ⟨ht, hus⟩ := List.pairwise_cons.1 h
    unfold mergeFrom
    by_cases hm : mergeable t u = true
    · have hq := (mergeable_iff.1 hm).1
      have hle : rank t.lo ≤ rank u.lo := by
        rcases ht u List.mem_cons_self with hlt | ⟨_, hle⟩
        · omega
        · exact hle
      rw [if_pos hm, ih (pairwise_extend h)]
      rw [reads_cons_iff, reads_cons_iff, reads_cons_iff, extend_contains hm hle,
        (extend_spec t u).1, ← hq, or_and_right, or_assoc]
    · rw [if_neg hm, reads_cons_iff, reads_cons_iff, ih hus]

/-- What merging starts with is not behind anything that it gives. -/
theorem le_of_mem_mergeFrom {us : List Transition} {t : Transition}
    (h : (t :: us).Pairwise Ahead) {v : Transition}
    (hv : v ∈ mergeFrom t us) : Ahead t v := by
  induction us generalizing t with
  | nil =>
    rw [List.mem_singleton.1 hv]
    exact .inr ⟨rfl, Nat.le_refl _⟩
  | cons u us ih =>
    obtain ⟨ht, hus⟩ := List.pairwise_cons.1 h
    unfold mergeFrom at hv
    by_cases hm : mergeable t u = true
    · rw [if_pos hm] at hv
      obtain ⟨hq, hlo, _⟩ := extend_spec t u
      have hle := ih (pairwise_extend h) hv
      unfold Ahead at hle
      rwa [hq, hlo] at hle
    · rw [if_neg hm] at hv
      rcases List.mem_cons.1 hv with rfl | hv
      · exact .inr ⟨rfl, Nat.le_refl _⟩
      · have h1 := ih hus hv
        have h2 := ht u List.mem_cons_self
        unfold Ahead at *
        omega

theorem normal_mergeFrom {us : List Transition} {t : Transition}
    (h : (t :: us).Pairwise Ahead) :
    Normal (mergeFrom t us) := by
  induction us generalizing t with
  | nil => exact List.pairwise_singleton _ _
  | cons u us ih =>
    obtain ⟨ht, hus⟩ := List.pairwise_cons.1 h
    unfold mergeFrom
    by_cases hm : mergeable t u = true
    · rw [if_pos hm]
      exact ih (pairwise_extend h)
    · rw [if_neg hm]
      apply List.pairwise_cons.2 ⟨?_, ih hus⟩
      intro v hv
      have hv' := le_of_mem_mergeFrom hus hv
      have hu := ht u List.mem_cons_self
      rw [mergeable_iff] at hm
      unfold Ahead at hv' hu
      unfold Apart
      omega

theorem normal_merge_sort (ts : List Transition) : Normal (merge (sortByTarget ts)) := by
  have h := pairwise_sortByTarget ts
  cases hs : sortByTarget ts with
  | nil => exact List.Pairwise.nil
  | cons t us =>
    rw [hs] at h
    exact normal_mergeFrom h

theorem reads_merge_sort {ts : List Transition} {c : Char} {q : Nat} :
    Reads (merge (sortByTarget ts)) c q ↔ Reads ts c q := by
  have hsort : Reads (sortByTarget ts) c q ↔ Reads ts c q := by
    simp only [Reads, mem_sortByTarget]
  rw [← hsort]
  have h := pairwise_sortByTarget ts
  cases hs : sortByTarget ts with
  | nil => exact Iff.rfl
  | cons t us =>
    rw [hs] at h
    exact reads_mergeFrom h

/-! ## Canonicity -/

/-- The interval from `lo` to `hi` is a maximal run of letters with a property. -/
structure IsRun (R : Char → Prop) (lo hi : Char) : Prop where
  all : ∀ c, rank lo ≤ rank c → rank c ≤ rank hi → R c
  before : ∀ c, rank c + 1 = rank lo → ¬ R c
  after : ∀ c, rank c = rank hi + 1 → ¬ R c

/-- Two transitions of a normal list to one target that share or touch a letter are one. -/
theorem Normal.eq_of_touch {ts : List Transition} (h : Normal ts) {t u : Transition} (ht : t ∈ ts)
    (hu : u ∈ ts) (hq : t.target = u.target) (h1 : rank u.lo ≤ rank t.hi + 1)
    (h2 : rank t.lo ≤ rank u.hi + 1) : t = u := by
  by_contra hne
  have hsymm : Std.Symm fun t u => Apart t u ∨ Apart u t := ⟨fun _ _ => Or.symm⟩
  have hapart : ts.Pairwise fun t u => Apart t u ∨ Apart u t := h.imp Or.inl
  rcases hapart.forall ht hu hne with ha | ha <;> unfold Apart at ha <;> omega

/-- The transitions of a normal list are the maximal runs of what it reads. -/
theorem Normal.mem_iff {ts : List Transition} (h : Normal ts) {t : Transition} :
    t ∈ ts ↔ IsRun (fun c => Reads ts c t.target) t.lo t.hi := by
  constructor
  · intro ht
    refine ⟨fun c h1 h2 => ⟨t, ht, contains_iff_rank.2 ⟨h1, h2⟩, rfl⟩, ?_, ?_⟩
    · rintro c hc ⟨u, hu, hcu, hq⟩
      rw [contains_iff_rank] at hcu
      have hle := t.rank_lo_le_hi
      obtain rfl := h.eq_of_touch ht hu hq.symm (by omega) (by omega)
      omega
    · rintro c hc ⟨u, hu, hcu, hq⟩
      rw [contains_iff_rank] at hcu
      have hle := t.rank_lo_le_hi
      obtain rfl := h.eq_of_touch ht hu hq.symm (by omega) (by omega)
      omega
  · rintro ⟨all, before, after⟩
    have hle := t.rank_lo_le_hi
    obtain ⟨u, hu, hcu, hq⟩ := all t.lo (Nat.le_refl _) hle
    rw [contains_iff_rank] at hcu
    -- the transition that reads the first letter neither begins earlier nor ends otherwise
    have hlo : rank u.lo = rank t.lo := by
      rcases Nat.lt_or_eq_of_le hcu.1 with hlt | heq
      · obtain ⟨e, _, he⟩ := Alphabet.exists_prev_of_lt (lt_iff_rank.2 hlt)
        exact absurd ⟨u, hu, contains_iff_rank.2 ⟨by omega, by omega⟩, hq⟩ (before e he)
      · exact heq
    have hhi : rank u.hi = rank t.hi := by
      rcases Nat.lt_trichotomy (rank u.hi) (rank t.hi) with hlt | heq | hlt
      · obtain ⟨e, _, he⟩ := Alphabet.exists_next_of_lt (lt_iff_rank.2 hlt)
        obtain ⟨v, hv, hcv, hqv⟩ := all e (by omega) (by omega)
        rw [contains_iff_rank] at hcv
        obtain rfl := h.eq_of_touch hu hv (hq.trans hqv.symm) (by omega) (by omega)
        omega
      · exact heq
      · obtain ⟨e, _, he⟩ := Alphabet.exists_next_of_lt (lt_iff_rank.2 hlt)
        exact absurd ⟨u, hu, contains_iff_rank.2 ⟨by omega, by omega⟩, hq⟩ (after e he)
    rw [← ext_rank hlo hhi hq]
    exact hu

theorem Normal.nodup {ts : List Transition} (h : Normal ts) : ts.Nodup := by
  apply h.imp
  rintro t _ ha rfl
  have hle := t.rank_lo_le_hi
  unfold Apart at ha
  omega

/-- Normal lists with the same members are equal. -/
theorem Normal.eq_of_mem_iff {ts us : List Transition} (h : Normal ts) (h' : Normal us)
    (hmem : ∀ t, t ∈ ts ↔ t ∈ us) : ts = us := by
  have antisymm : ∀ t u, t ∈ ts → u ∈ us → Apart t u → Apart u t → t = u := by
    intro t u _ _ htu hut
    have h1 := t.rank_lo_le_hi
    have h2 := u.rank_lo_le_hi
    unfold Apart at htu hut
    omega
  exact ((List.perm_ext_iff_of_nodup h.nodup h'.nodup).2 hmem).eq_of_pairwise antisymm h h'

/-- What a normal list reads determines it. -/
theorem Normal.eq_of_reads {ts us : List Transition} (h : Normal ts) (h' : Normal us)
    (hr : ∀ c q, Reads ts c q ↔ Reads us c q) : ts = us := by
  apply h.eq_of_mem_iff h'
  intro t
  rw [h.mem_iff, h'.mem_iff]
  simp only [hr]

end Transition

namespace State

open Transition (Reads Normal)

theorem mem_stepAll_iff_reads {s : State} {c : Char} {q : Nat} :
    q ∈ s.stepAll c ↔ Reads s.transitions c q := mem_stepAll

theorem normal_reduce (s : State) : Normal s.reduce.transitions :=
  Transition.normal_merge_sort s.transitions

@[simp] theorem mem_stepAll_reduce {s : State} {c : Char} {q : Nat} :
    q ∈ s.reduce.stepAll c ↔ q ∈ s.stepAll c := by
  rw [mem_stepAll_iff_reads, mem_stepAll_iff_reads]
  exact Transition.reads_merge_sort

/-- A state in normal form is not changed by reducing it. -/
theorem reduce_eq_self {s : State} (h : Normal s.transitions) : s.reduce = s := by
  have htransitions : s.reduce.transitions = s.transitions := by
    apply (normal_reduce s).eq_of_reads h
    intro c q
    rw [← mem_stepAll_iff_reads, ← mem_stepAll_iff_reads, mem_stepAll_reduce]
  exact congrArg (State.mk _) htransitions

end State

end RegLang
