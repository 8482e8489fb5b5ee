import RegLang.Graph.Normal
/-!
# Classes of letters and gaps

Ascending points cut the alphabet into classes, and the letters that no interval of a sorted list
holds form gaps.  Both are lists of intervals in ascending order without common letters.

* `uniform_iff`: where a transition tells letters apart.
* `exists_class`: every letter from the first point on is in a class.
* `class_uniform`: a start point of every transition begins a class or ends none, so all letters
  of a class are alike to every reachable transition.
* `mem_gaps_iff`: the gaps hold the letters that no transition of the list applies to.
-/

namespace RegLang

/-! ## Ascending lists -/

namespace SortedList

variable {α : Type} [DecidableEq α] [LT α] [DecidableRel (α := α) (· < ·)]

theorem pairwise_insert (trans : ∀ a b c : α, a < b → b < c → a < c)
    (tri : ∀ a b : α, a ≠ b → ¬ a < b → b < a) {x : α} {ys : List α} (h : ys.Pairwise (· < ·)) :
    (insert x ys).Pairwise (· < ·) := by
  induction ys with
  | nil => exact List.pairwise_singleton _ _
  | cons y ys ih =>
    obtain ⟨hy, hys⟩ := List.pairwise_cons.1 h
    unfold insert
    by_cases hxy : x = y
    · rw [if_pos hxy]
      exact h
    · rw [if_neg hxy]
      by_cases hlt : x < y
      · rw [if_pos hlt]
        apply List.pairwise_cons.2 ⟨?_, h⟩
        intro z hz
        rcases List.mem_cons.1 hz with rfl | hz
        · exact hlt
        · exact trans _ _ _ hlt (hy z hz)
      · rw [if_neg hlt]
        apply List.pairwise_cons.2 ⟨?_, ih hys⟩
        intro z hz
        rcases mem_insert.1 hz with rfl | hz
        · exact tri _ _ hxy hlt
        · exact hy z hz

theorem pairwise_ofList (trans : ∀ a b c : α, a < b → b < c → a < c)
    (tri : ∀ a b : α, a ≠ b → ¬ a < b → b < a) (xs : List α) :
    (ofList xs).Pairwise (· < ·) := by
  have aux : ∀ ys : List α, ys.Pairwise (· < ·) →
      (xs.foldl (fun ys x => insert x ys) ys).Pairwise (· < ·) := by
    induction xs with
    | nil => exact fun ys h => h
    | cons x xs ih => exact fun ys h => ih _ (pairwise_insert trans tri h)
  exact aux [] List.Pairwise.nil

end SortedList

namespace Alphabet

/-! ## Order through positions -/

theorem le_iff_rank {c d : Char} : c ≤ d ↔ rank c ≤ rank d := rank_le_rank_iff.symm

theorem lt_iff_rank {c d : Char} : c < d ↔ rank c < rank d := rank_lt_rank_iff.symm

theorem rank_eq_iff {c d : Char} : rank c = rank d ↔ c = d := ⟨rank_inj, congrArg rank⟩

/-- A letter behind another one has a letter before it. -/
theorem exists_prev_of_lt {c d : Char} (h : c < d) :
    ∃ e, prev? d = some e ∧ rank e + 1 = rank d := by
  rw [lt_iff_rank] at h
  have hd := rank_lt_size d
  refine ⟨ofRank (rank d - 1), prev?_eq_some_iff.2 ?_, ?_⟩ <;>
    rw [rank_ofRank (by omega)] <;> omega

/-- A letter before another one has a letter behind it. -/
theorem exists_next_of_lt {c d : Char} (h : c < d) :
    ∃ e, next? c = some e ∧ rank e = rank c + 1 := by
  rw [lt_iff_rank] at h
  have hd := rank_lt_size d
  refine ⟨ofRank (rank c + 1), next?_eq_some_iff.2 ?_, ?_⟩ <;>
    rw [rank_ofRank (by omega)]

theorem pairwise_ofList (cs : List Char) : (SortedList.ofList cs).Pairwise (· < ·) := by
  apply SortedList.pairwise_ofList
  · intro a b c hab hbc
    rw [lt_iff_rank] at *
    omega
  · intro a b hne hlt
    have hr : rank a ≠ rank b := fun h => hne (rank_inj h)
    rw [lt_iff_rank] at *
    omega

end Alphabet

open Alphabet (rank le_iff_rank lt_iff_rank)

/-! ## Intervals -/

namespace Transition

theorem rank_lo_le_hi (t : Transition) : rank t.lo ≤ rank t.hi := le_iff_rank.1 t.lo_le_hi

theorem contains_iff_rank {t : Transition} {c : Char} :
    t.contains c = true ↔ rank t.lo ≤ rank c ∧ rank c ≤ rank t.hi := by
  rw [contains_iff, le_iff_rank, le_iff_rank]

/-- If the transition applies to one of the letters from `c` to `d`, it applies to all of them. -/
def Uniform (t : Transition) (c d : Char) : Prop :=
  ∀ e, c ≤ e → e ≤ d → t.contains e = true → ∀ f, c ≤ f → f ≤ d → t.contains f = true

end Transition

namespace Graph

theorem mem_boundaries_iff {t : Transition} {p : Char} :
    p ∈ boundaries t ↔ rank p = rank t.lo ∨ rank p = rank t.hi + 1 := by
  rw [boundaries, List.mem_cons, Option.mem_toList, Alphabet.next?_eq_some_iff,
    Alphabet.rank_eq_iff]

/-- A transition tells letters apart where it begins, and behind its end if letters follow. -/
theorem uniform_iff {t : Transition} {c d : Char} (hcd : c ≤ d) :
    t.Uniform c d ↔ ∀ p ∈ boundaries t, ¬ (c < p ∧ p ≤ d) := by
  have hle := t.rank_lo_le_hi
  simp only [Transition.Uniform, Transition.contains_iff_rank, le_iff_rank, lt_iff_rank] at hcd ⊢
  constructor
  · intro h p hp hcpd
    rcases mem_boundaries_iff.1 hp with hlo | hhi
    · have hc := h t.lo (by omega) (by omega) ⟨Nat.le_refl _, hle⟩ c (Nat.le_refl _) hcd
      omega
    · have hd := h t.hi (by omega) (by omega) ⟨hle, Nat.le_refl _⟩ d hcd (Nat.le_refl _)
      omega
  · intro h e hce hed he f hcf hfd
    have hlo := h t.lo (mem_boundaries_iff.2 (.inl rfl))
    refine ⟨by omega, Nat.le_of_not_lt fun hhi => ?_⟩
    obtain ⟨p, -, hp⟩ := Alphabet.exists_next_of_lt (lt_iff_rank.2 hhi)
    exact h p (mem_boundaries_iff.2 (.inr hp)) ⟨by omega, by omega⟩

/-! ## Classes -/

/-- Every letter from the first point on is in a class. -/
theorem exists_class {points : List Char} (hs : points.Pairwise (· < ·)) {c : Char}
    (hc : ∃ p ∈ points, p ≤ c) : ∃ r ∈ classes points, r.1 ≤ c ∧ c ≤ r.2 := by
  induction points with
  | nil =>
    obtain ⟨p, hp, _⟩ := hc
    cases hp
  | cons p ps ih =>
    cases ps with
    | nil =>
      obtain ⟨p', hp, hpc⟩ := hc
      rw [List.mem_singleton] at hp
      subst hp
      exact ⟨_, List.mem_singleton.2 rfl, hpc, Alphabet.le_last c⟩
    | cons q qs =>
      obtain ⟨hp, hqs⟩ := List.pairwise_cons.1 hs
      have hpq : p < q := hp q List.mem_cons_self
      by_cases hqc : q ≤ c
      · obtain ⟨r, hr, hrc⟩ := ih hqs ⟨q, List.mem_cons_self, hqc⟩
        exact ⟨r, List.mem_cons_of_mem _ hr, hrc⟩
      · obtain ⟨e, he, hre⟩ := Alphabet.exists_prev_of_lt hpq
        refine ⟨(p, e), ?_, ?_, ?_⟩
        · rw [classes, he]
          exact List.mem_cons_self
        · obtain ⟨p', hp', hpc⟩ := hc
          rcases List.mem_cons.1 hp' with rfl | hp'
          · exact hpc
          · have hlt := hp p' hp'
            rw [lt_iff_rank] at hlt
            rw [le_iff_rank] at hpc ⊢
            show rank p ≤ rank c
            omega
        · rw [le_iff_rank] at hqc ⊢
          show rank c ≤ rank e
          omega

/-- A class begins at its point and ends before the next one. -/
theorem class_bounds {points : List Char} (hs : points.Pairwise (· < ·)) {r : Char × Char}
    (hr : r ∈ classes points) :
    r.1 ∈ points ∧ r.1 ≤ r.2 ∧ ∀ p ∈ points, r.1 < p → r.2 < p := by
  induction points with
  | nil => cases hr
  | cons p ps ih =>
    cases ps with
    | nil =>
      rw [classes, List.mem_singleton] at hr
      subst hr
      refine ⟨List.mem_cons_self, Alphabet.le_last p, ?_⟩
      intro p' hp' hlt
      rw [List.mem_singleton] at hp'
      subst hp'
      rw [lt_iff_rank] at hlt
      exact absurd hlt (Nat.lt_irrefl _)
    | cons q qs =>
      obtain ⟨hp, hqs⟩ := List.pairwise_cons.1 hs
      have hpq : p < q := hp q List.mem_cons_self
      obtain ⟨e, he, hre⟩ := Alphabet.exists_prev_of_lt hpq
      rw [classes, he] at hr
      rcases List.mem_cons.1 hr with rfl | hr
      · rw [lt_iff_rank] at hpq
        refine ⟨List.mem_cons_self, ?_, ?_⟩
        · rw [le_iff_rank]
          show rank p ≤ rank e
          omega
        · intro p' hp' hlt
          rw [lt_iff_rank] at hlt ⊢
          show rank e < rank p'
          rcases List.mem_cons.1 hp' with rfl | hp'
          · exact absurd hlt (Nat.lt_irrefl _)
          · rcases List.mem_cons.1 hp' with rfl | hp'
            · omega
            · have hq := (List.pairwise_cons.1 hqs).1 p' hp'
              rw [lt_iff_rank] at hq
              omega
      · obtain ⟨h1, h2, h3⟩ := ih hqs hr
        refine ⟨List.mem_cons_of_mem _ h1, h2, ?_⟩
        intro p' hp' hlt
        rcases List.mem_cons.1 hp' with rfl | hp'
        · have hlt' := hp r.1 h1
          rw [lt_iff_rank] at hlt hlt'
          omega
        · exact h3 p' hp' hlt

/-- The classes stand in ascending order. -/
theorem pairwise_classes {points : List Char} (hs : points.Pairwise (· < ·)) :
    (classes points).Pairwise fun r s => r.2 < s.1 := by
  induction points with
  | nil => exact List.Pairwise.nil
  | cons p ps ih =>
    cases ps with
    | nil => exact List.pairwise_singleton _ _
    | cons q qs =>
      obtain ⟨hp, hqs⟩ := List.pairwise_cons.1 hs
      have hpq : p < q := hp q List.mem_cons_self
      obtain ⟨e, he, hre⟩ := Alphabet.exists_prev_of_lt hpq
      rw [classes, he]
      apply List.pairwise_cons.2 ⟨?_, ih hqs⟩
      intro r hr
      have hq : rank q ≤ rank r.1 := by
        rcases List.mem_cons.1 (class_bounds hqs hr).1 with h | h
        · exact Nat.le_of_eq (by rw [h])
        · exact Nat.le_of_lt (lt_iff_rank.1 ((List.pairwise_cons.1 hqs).1 _ h))
      rw [lt_iff_rank]
      show rank e < rank r.1
      omega

/-- All letters of a class are alike to an interval that begins at a point and ends before one or
at the last letter. -/
theorem class_uniform {points : List Char} (hs : points.Pairwise (· < ·)) {r : Char × Char}
    (hr : r ∈ classes points) {t : Transition} (ht : ∀ p ∈ boundaries t, p ∈ points) {c : Char}
    (hc : r.1 ≤ c ∧ c ≤ r.2) : t.contains c = true ↔ t.contains r.1 = true := by
  obtain ⟨_, hle, hnext⟩ := class_bounds hs hr
  have huniform : t.Uniform r.1 r.2 := (uniform_iff hle).2 fun p hp ⟨hlt, hp'⟩ =>
    Char.not_le.2 (hnext p (ht p hp) hlt) hp'
  constructor
  · intro h
    exact huniform c hc.1 hc.2 h r.1 (Char.le_refl _) hle
  · intro h
    exact huniform r.1 (Char.le_refl _) hle h c hc.1 hc.2

/-! ## Gaps -/

/-- No gap begins before the next letter to be covered, and no gap is reversed. -/
theorem gap_bounds (ts : List Transition) {n : Option Char} {r : Char × Char}
    (hr : r ∈ gaps n ts) : (∃ m, n = some m ∧ m ≤ r.1) ∧ r.1 ≤ r.2 := by
  induction ts generalizing n with
  | nil =>
    cases n with
    | none => cases hr
    | some m =>
      rw [gaps, List.mem_singleton] at hr
      subst hr
      exact ⟨⟨m, rfl, Char.le_refl m⟩, Alphabet.le_last m⟩
  | cons t ts ih =>
    cases n with
    | none => cases hr
    | some m =>
      rw [gaps] at hr
      rcases List.mem_append.1 hr with hr | hr
      · by_cases hlt : m < t.lo
        · obtain ⟨e, he, hre⟩ := Alphabet.exists_prev_of_lt hlt
          rw [if_pos hlt, he] at hr
          have hr' : r = (m, e) := by simpa using hr
          subst hr'
          rw [lt_iff_rank] at hlt
          refine ⟨⟨m, rfl, Char.le_refl m⟩, le_iff_rank.2 ?_⟩
          show rank m ≤ rank e
          omega
        · rw [if_neg hlt] at hr
          cases hr
      · obtain ⟨⟨k, hk, hkr⟩, hle⟩ := ih hr
        refine ⟨⟨m, rfl, ?_⟩, hle⟩
        by_cases hm : m ≤ t.hi
        · rw [if_pos hm] at hk
          have hk' := Alphabet.next?_eq_some_iff.1 hk
          rw [le_iff_rank] at *
          omega
        · rw [if_neg hm] at hk
          rw [Option.some.inj hk]
          exact hkr

/-- What is still to be covered behind a transition. -/
theorem exists_next_le_iff {t : Transition} {m c : Char} :
    (∃ k, (if m ≤ t.hi then Alphabet.next? t.hi else some m) = some k ∧ k ≤ c) ↔
      m ≤ c ∧ t.hi < c := by
  by_cases hm : m ≤ t.hi
  · rw [if_pos hm]
    constructor
    · rintro ⟨k, hk, hkc⟩
      have hk' := Alphabet.next?_eq_some_iff.1 hk
      rw [le_iff_rank] at *
      rw [lt_iff_rank]
      omega
    · rintro ⟨_, hlt⟩
      obtain ⟨e, he, hre⟩ := Alphabet.exists_next_of_lt hlt
      refine ⟨e, he, ?_⟩
      rw [lt_iff_rank] at hlt
      rw [le_iff_rank]
      omega
  · rw [if_neg hm]
    simp only [Option.some.injEq, exists_eq_left']
    rw [le_iff_rank] at *
    rw [lt_iff_rank]
    omega

/-- What is to be covered before a transition. -/
theorem exists_before_iff {t : Transition} {m c : Char} :
    (∃ r ∈ (if m < t.lo then (Alphabet.prev? t.lo).toList.map (m, ·) else []),
      r.1 ≤ c ∧ c ≤ r.2) ↔ m ≤ c ∧ c < t.lo := by
  by_cases hlt : m < t.lo
  · obtain ⟨e, he, hre⟩ := Alphabet.exists_prev_of_lt hlt
    rw [if_pos hlt, he]
    simp only [Option.toList_some, List.map_cons, List.map_nil, List.mem_singleton, exists_eq_left]
    rw [le_iff_rank, le_iff_rank, lt_iff_rank]
    omega
  · rw [if_neg hlt]
    rw [lt_iff_rank] at *
    rw [le_iff_rank]
    simp only [List.not_mem_nil, false_and, exists_false, false_iff]
    omega

theorem contains_eq_false_iff {t : Transition} {c : Char} :
    t.contains c = false ↔ c < t.lo ∨ t.hi < c := by
  rw [Bool.eq_false_iff, ne_eq, Transition.contains_iff]
  rw [le_iff_rank, le_iff_rank, lt_iff_rank, lt_iff_rank]
  omega

/-- The gaps of a list sorted by lower bounds hold the letters that no transition applies to. -/
theorem mem_gaps_iff {ts : List Transition} (hs : ts.Pairwise fun t u => t.lo ≤ u.lo)
    {n : Option Char} {c : Char} :
    (∃ r ∈ gaps n ts, r.1 ≤ c ∧ c ≤ r.2) ↔
      (∃ m, n = some m ∧ m ≤ c) ∧ ∀ t ∈ ts, t.contains c = false := by
  induction ts generalizing n with
  | nil =>
    cases n with
    | none => simp [gaps]
    | some m => simp [gaps, Alphabet.le_last c]
  | cons t ts ih =>
    obtain ⟨ht, hts⟩ := List.pairwise_cons.1 hs
    cases n with
    | none => simp [gaps]
    | some m =>
      have hrest := (ih hts (n := if m ≤ t.hi then Alphabet.next? t.hi else some m)).trans
        (and_congr_left' exists_next_le_iff)
      have hbefore := exists_before_iff (t := t) (m := m) (c := c)
      -- letters before `t` are before all transitions behind it
      have hlater : c < t.lo → ∀ u ∈ ts, u.contains c = false := by
        intro hc u hu
        have hle := ht u hu
        rw [contains_eq_false_iff]
        rw [le_iff_rank] at hle
        rw [lt_iff_rank] at hc ⊢
        omega
      rw [gaps]
      simp only [List.mem_append, or_and_right, exists_or, Option.some.injEq, exists_eq_left',
        List.forall_mem_cons, contains_eq_false_iff (t := t)]
      rw [hbefore, hrest]
      constructor
      · rintro (⟨hm, hc⟩ | ⟨⟨hm, hc⟩, hu⟩)
        · exact ⟨hm, .inl ⟨hc, hlater hc⟩⟩
        · exact ⟨hm, .inr ⟨hc, hu⟩⟩
      · rintro ⟨hm, ⟨hc, _⟩ | ⟨hc, hu⟩⟩
        · exact .inl ⟨hm, hc⟩
        · exact .inr ⟨⟨hm, hc⟩, hu⟩

/-- The gaps stand in ascending order. -/
theorem pairwise_gaps (ts : List Transition) (n : Option Char) :
    (gaps n ts).Pairwise fun r s => r.2 < s.1 := by
  induction ts generalizing n with
  | nil =>
    cases n with
    | none => exact List.Pairwise.nil
    | some m => exact List.pairwise_singleton _ _
  | cons t ts ih =>
    cases n with
    | none => exact List.Pairwise.nil
    | some m =>
      rw [gaps]
      apply List.pairwise_append.2 ⟨?_, ih _, ?_⟩
      · by_cases hlt : m < t.lo
        · obtain ⟨e, he, _⟩ := Alphabet.exists_prev_of_lt hlt
          rw [if_pos hlt, he]
          exact List.pairwise_singleton _ _
        · rw [if_neg hlt]
          exact List.Pairwise.nil
      · intro r hr s hs
        obtain ⟨⟨k, hk, hks⟩, _⟩ := gap_bounds ts hs
        by_cases hlt : m < t.lo
        · obtain ⟨e, he, hre⟩ := Alphabet.exists_prev_of_lt hlt
          rw [if_pos hlt, he] at hr
          have hr' : r = (m, e) := by simpa using hr
          subst hr'
          have hbehind := exists_next_le_iff.1 ⟨k, hk, hks⟩
          have hle := t.lo_le_hi
          rw [le_iff_rank] at hle
          rw [lt_iff_rank] at hbehind ⊢
          show rank e < rank s.1
          omega
        · rw [if_neg hlt] at hr
          cases hr

end Graph

end RegLang
