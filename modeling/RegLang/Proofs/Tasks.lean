import Mathlib.Algebra.Order.BigOperators.Group.List
import Mathlib.Algebra.Order.Group.Nat
import RegLang.Primitive.Interval
import RegLang.Proofs.Digits
import RegLang.Proofs.Unfolding
/-!
# Tasks

A task holds of the words of digits that satisfy its bounds.  Its branches part these words by
their first digit.

* `Task.holds_cons_iff`: what holds after a digit.
* `accepts_treeGraph`: the tree of tasks accepts what the first task holds of.
-/

namespace RegLang.Interval

open Alphabet (rank)
open Numeral (AllDigits value allDigits_cons)

namespace Task

variable {t : Task} {b : Char × Char × Task} {c d e : Char} {w x y : Word} {n : Nat}

/-! ## What a task holds of -/

/-- The words of digits that satisfy the bounds. -/
def Holds : Task → Word → Prop
  | any n, w => AllDigits w ∧ w.length = n
  | atLeast x, w => AllDigits w ∧ w.length = x.length ∧ value x ≤ value w
  | atMost y, w => AllDigits w ∧ w.length = y.length ∧ value w ≤ value y
  | between x y, w => AllDigits w ∧ w.length = x.length ∧ value x ≤ value w ∧ value w ≤ value y

/-- Bounds are words of digits; two bounds have equally many and are in order. -/
def Valid : Task → Prop
  | any _ => True
  | atLeast x => AllDigits x
  | atMost y => AllDigits y
  | between x y => AllDigits x ∧ AllDigits y ∧ x.length = y.length ∧ value x ≤ value y

/-- How many digits are still to be read. -/
def left : Task → Nat
  | any n => n
  | atLeast x => x.length
  | atMost y => y.length
  | between x y => max x.length y.length

theorem holds_between (h : x.length = y.length) :
    (between x y).Holds w ↔ (atLeast x).Holds w ∧ (atMost y).Holds w := by
  simp only [Holds]
  rw [← h]
  tauto

theorem holds_nil_iff (ht : t.Valid) : t.Holds [] ↔ t.isDone = true := by
  have hnil : AllDigits [] := rfl
  cases t with
  | any n =>
    show AllDigits [] ∧ 0 = n ↔ decide (n = 0) = true
    rw [decide_eq_true_iff, and_iff_right hnil]
    exact eq_comm
  | atLeast x => cases x <;> simp [Holds, isDone, hnil]
  | atMost y => cases y <;> simp [Holds, isDone, hnil]
  | between x y =>
    cases x with
    | nil =>
      have hy : y = [] := List.length_eq_zero_iff.1 ht.2.2.1.symm
      subst hy
      simp [Holds, isDone, hnil]
    | cons c x => simp [Holds, isDone]

theorem holds_atLeast_cons (hcx : AllDigits (c :: x)) : (atLeast (c :: x)).Holds (e :: w) ↔
    (e = c ∧ (atLeast x).Holds w) ∨ (c < e ∧ e ≤ '9' ∧ (any x.length).Holds w) := by
  obtain ⟨hc, hx⟩ := allDigits_cons.1 hcx
  simp only [Holds]
  rw [allDigits_cons, List.length_cons, List.length_cons, Nat.add_right_cancel_iff]
  constructor
  · rintro ⟨⟨he, hw⟩, hlen, h⟩
    rcases (Numeral.value_cons_le_iff hc he hx hw hlen.symm).1 h with hlt | ⟨rfl, hle⟩
    · exact .inr ⟨hlt, (Numeral.isDigit_iff.1 he).2, hw, hlen⟩
    · exact .inl ⟨rfl, hw, hlen, hle⟩
  · rintro (⟨rfl, hw, hlen, hle⟩ | ⟨hlt, hnine, hw, hlen⟩)
    · exact ⟨⟨hc, hw⟩, hlen, (Numeral.value_cons_le_iff hc hc hx hw hlen.symm).2 (.inr ⟨rfl, hle⟩)⟩
    · have hle : c ≤ e := Alphabet.le_iff_toNat.2 (Nat.le_of_lt (Alphabet.lt_iff_toNat.1 hlt))
      have he : e.isDigit = true :=
        Numeral.isDigit_iff.2 ⟨Char.le_trans (Numeral.isDigit_iff.1 hc).1 hle, hnine⟩
      exact ⟨⟨he, hw⟩, hlen, (Numeral.value_cons_le_iff hc he hx hw hlen.symm).2 (.inl hlt)⟩

theorem holds_atMost_cons (hdy : AllDigits (d :: y)) : (atMost (d :: y)).Holds (e :: w) ↔
    (e = d ∧ (atMost y).Holds w) ∨ (e < d ∧ '0' ≤ e ∧ (any y.length).Holds w) := by
  obtain ⟨hd, hy⟩ := allDigits_cons.1 hdy
  simp only [Holds]
  rw [allDigits_cons, List.length_cons, List.length_cons, Nat.add_right_cancel_iff]
  constructor
  · rintro ⟨⟨he, hw⟩, hlen, h⟩
    rcases (Numeral.value_cons_le_iff he hd hw hy hlen).1 h with hlt | ⟨rfl, hle⟩
    · exact .inr ⟨hlt, (Numeral.isDigit_iff.1 he).1, hw, hlen⟩
    · exact .inl ⟨rfl, hw, hlen, hle⟩
  · rintro (⟨rfl, hw, hlen, hle⟩ | ⟨hlt, hzero, hw, hlen⟩)
    · exact ⟨⟨hd, hw⟩, hlen, (Numeral.value_cons_le_iff hd hd hw hy hlen).2 (.inr ⟨rfl, hle⟩)⟩
    · have hle : e ≤ d := Alphabet.le_iff_toNat.2 (Nat.le_of_lt (Alphabet.lt_iff_toNat.1 hlt))
      have he : e.isDigit = true :=
        Numeral.isDigit_iff.2 ⟨hzero, Char.le_trans hle (Numeral.isDigit_iff.1 hd).2⟩
      exact ⟨⟨he, hw⟩, hlen, (Numeral.value_cons_le_iff he hd hw hy hlen).2 (.inl hlt)⟩

/-- Between different first digits the first digit decides which bound still counts. -/
theorem holds_between_cons_of_lt (hcx : AllDigits (c :: x)) (hdy : AllDigits (d :: y))
    (hlen : x.length = y.length) (hlt : c < d) : (between (c :: x) (d :: y)).Holds (e :: w) ↔
      (e = c ∧ (atLeast x).Holds w) ∨ (e = d ∧ (atMost y).Holds w) ∨
        (c < e ∧ e < d ∧ (any x.length).Holds w) := by
  have hzero := (Numeral.isDigit_iff.1 (allDigits_cons.1 hcx).1).1
  have hnine := (Numeral.isDigit_iff.1 (allDigits_cons.1 hdy).1).2
  rw [holds_between (congrArg (· + 1) hlen), holds_atLeast_cons hcx, holds_atMost_cons hdy]
  constructor
  · rintro ⟨⟨rfl, hx⟩ | ⟨hce, _, hw⟩, ⟨rfl, hy⟩ | ⟨hed, _, _⟩⟩
    · exact absurd hlt (Char.lt_irrefl e)
    · exact .inl ⟨rfl, hx⟩
    · exact .inr (.inl ⟨rfl, hy⟩)
    · exact .inr (.inr ⟨hce, hed, hw⟩)
  · rintro (⟨rfl, hx⟩ | ⟨rfl, hy⟩ | ⟨hce, hed, hw⟩)
    · exact ⟨.inl ⟨rfl, hx⟩, .inr ⟨hlt, hzero, hx.1, hx.2.1.trans hlen⟩⟩
    · exact ⟨.inr ⟨hlt, hnine, hy.1, hy.2.1.trans hlen.symm⟩, .inl ⟨rfl, hy⟩⟩
    · rw [Alphabet.le_iff_rank] at hzero hnine
      rw [Alphabet.lt_iff_rank] at hce hed
      refine ⟨.inr ⟨Alphabet.lt_iff_rank.2 hce, ?_, hw⟩,
        .inr ⟨Alphabet.lt_iff_rank.2 hed, ?_, hw.1, hw.2.trans hlen⟩⟩
      · rw [Alphabet.le_iff_rank]
        omega
      · rw [Alphabet.le_iff_rank]
        omega

/-- A first digit that the bounds share is read off both. -/
theorem holds_between_cons_same (hcx : AllDigits (c :: x)) (hcy : AllDigits (c :: y))
    (hlen : x.length = y.length) : (between (c :: x) (c :: y)).Holds (e :: w) ↔
      e = c ∧ (between x y).Holds w := by
  rw [holds_between (congrArg (· + 1) hlen), holds_between hlen, holds_atLeast_cons hcx,
    holds_atMost_cons hcy]
  constructor
  · rintro ⟨⟨rfl, hx⟩ | ⟨hce, _, _⟩, ⟨he, hy⟩ | ⟨hec, _, _⟩⟩
    · exact ⟨rfl, hx, hy⟩
    · exact absurd hec (Char.lt_irrefl e)
    · rw [he] at hce
      exact absurd hce (Char.lt_irrefl c)
    · rw [Alphabet.lt_iff_rank] at hce hec
      omega
  · rintro ⟨he, hx, hy⟩
    exact ⟨.inl ⟨he, hx⟩, .inl ⟨he, hy⟩⟩

/-! ## Branches -/

theorem rank_succ (h : c < d) : rank (succ c) = rank c + 1 := by
  obtain ⟨e, he, hrank⟩ := Alphabet.exists_next_of_lt h
  unfold succ
  rw [he]
  exact hrank

theorem rank_pred (h : c < d) : rank (pred d) + 1 = rank d := by
  obtain ⟨e, he, hrank⟩ := Alphabet.exists_prev_of_lt h
  unfold pred
  rw [he]
  exact hrank

theorem lt_succ (h : c < d) : c < succ c := by
  rw [Alphabet.lt_iff_rank, rank_succ h]
  omega

theorem pred_lt (h : c < d) : pred d < d := by
  rw [Alphabet.lt_iff_rank, ← rank_pred h]
  omega

theorem succ_le_iff (h : c < d) : succ c ≤ e ↔ c < e := by
  rw [Alphabet.le_iff_rank, rank_succ h, Alphabet.lt_iff_rank]
  exact Iff.rfl

theorem le_pred_iff (h : c < d) : e ≤ pred d ↔ e < d := by
  have hpred := rank_pred h
  rw [Alphabet.le_iff_rank, Alphabet.lt_iff_rank]
  omega

theorem mem_branches_atLeast : b ∈ (atLeast (c :: x)).branches ↔
    b = (c, c, atLeast x) ∨ (c < '9' ∧ b = (succ c, '9', any x.length)) := by
  unfold branches
  rw [List.mem_cons, List.mem_ite_nil_right, List.mem_singleton]

theorem mem_branches_atMost : b ∈ (atMost (d :: y)).branches ↔
    b = (d, d, atMost y) ∨ ('0' < d ∧ b = ('0', pred d, any y.length)) := by
  unfold branches
  rw [List.mem_cons, List.mem_ite_nil_right, List.mem_singleton]

theorem branches_between_same : (between (c :: x) (c :: y)).branches = [(c, c, between x y)] :=
  if_pos rfl

theorem mem_branches_between (h : c ≠ d) : b ∈ (between (c :: x) (d :: y)).branches ↔
    b = (c, c, atLeast x) ∨ b = (d, d, atMost y) ∨
      (succ c < d ∧ b = (succ c, pred d, any x.length)) := by
  simp only [branches]
  rw [if_neg h, List.mem_append, List.mem_ite_nil_right, List.mem_singleton, List.mem_cons,
    List.mem_singleton, or_assoc]

/-- The ways on from a task, one for each branch there can be. -/
inductive Branch : Task → Char × Char × Task → Prop
  | any (n : Nat) : Branch (any (n + 1)) ('0', '9', any n)
  | lower (c : Char) (x : Word) : Branch (atLeast (c :: x)) (c, c, atLeast x)
  | above {c : Char} (x : Word) (h : c < '9') :
      Branch (atLeast (c :: x)) (succ c, '9', any x.length)
  | upper (d : Char) (y : Word) : Branch (atMost (d :: y)) (d, d, atMost y)
  | below {d : Char} (y : Word) (h : '0' < d) :
      Branch (atMost (d :: y)) ('0', pred d, any y.length)
  | same (c : Char) (x y : Word) : Branch (between (c :: x) (c :: y)) (c, c, between x y)
  | first {c d : Char} (x y : Word) (h : c ≠ d) :
      Branch (between (c :: x) (d :: y)) (c, c, atLeast x)
  | last {c d : Char} (x y : Word) (h : c ≠ d) :
      Branch (between (c :: x) (d :: y)) (d, d, atMost y)
  | inside {c d : Char} (x y : Word) (h : c ≠ d) (hlt : succ c < d) :
      Branch (between (c :: x) (d :: y)) (succ c, pred d, any x.length)

theorem branch_of_mem (hb : b ∈ t.branches) : Branch t b := by
  match t, hb with
  | any 0, hb => cases hb
  | any (n + 1), hb =>
    rw [List.mem_singleton.1 hb]
    exact .any n
  | atLeast [], hb => cases hb
  | atLeast (c :: x), hb =>
    rcases mem_branches_atLeast.1 hb with rfl | ⟨h, rfl⟩
    · exact .lower c x
    · exact .above x h
  | atMost [], hb => cases hb
  | atMost (d :: y), hb =>
    rcases mem_branches_atMost.1 hb with rfl | ⟨h, rfl⟩
    · exact .upper d y
    · exact .below y h
  | between [] _, hb => cases hb
  | between (c :: x) [], hb => cases hb
  | between (c :: x) (d :: y), hb =>
    by_cases h : c = d
    · subst h
      rw [branches_between_same] at hb
      rw [List.mem_singleton.1 hb]
      exact .same c x y
    · rcases (mem_branches_between h).1 hb with rfl | rfl | ⟨hlt, rfl⟩
      · exact .first x y h
      · exact .last x y h
      · exact .inside x y h hlt

theorem rank_le_rank_succ (c : Char) : rank c ≤ rank (succ c) := by
  unfold succ
  cases hc : Alphabet.next? c with
  | none => exact Nat.le_refl _
  | some d =>
    have hrank := Alphabet.next?_eq_some_iff.1 hc
    show rank c ≤ rank d
    omega

/-- No branch has its bounds reversed. -/
theorem Branch.ordered (h : Branch t b) : b.1 ≤ b.2.1 := by
  cases h with
  | any n => exact (by decide : '0' ≤ '9')
  | lower c x => exact Char.le_refl c
  | above x h =>
    rw [Alphabet.lt_iff_rank] at h
    show succ _ ≤ '9'
    rw [Alphabet.le_iff_rank, rank_succ (Alphabet.lt_iff_rank.2 h)]
    exact h
  | upper d y => exact Char.le_refl d
  | below y h => exact (le_pred_iff h).2 h
  | same c x y => exact Char.le_refl c
  | first x y h => exact Char.le_refl _
  | last x y h => exact Char.le_refl _
  | inside x y h hlt => exact (le_pred_iff hlt).2 hlt

theorem Branch.left_lt (h : Branch t b) : b.2.2.left < t.left := by
  cases h with
  | any n => exact Nat.lt_succ_self n
  | lower c x => exact Nat.lt_succ_self _
  | above x h => exact Nat.lt_succ_self _
  | upper d y => exact Nat.lt_succ_self _
  | below y h => exact Nat.lt_succ_self _
  | same c x y =>
    show max x.length y.length < max (x.length + 1) (y.length + 1)
    omega
  | first x y h =>
    show x.length < max (x.length + 1) (y.length + 1)
    omega
  | last x y h =>
    show y.length < max (x.length + 1) (y.length + 1)
    omega
  | inside x y h hlt =>
    show x.length < max (x.length + 1) (y.length + 1)
    omega

theorem Branch.valid (h : Branch t b) (ht : t.Valid) : b.2.2.Valid := by
  cases h with
  | any n => trivial
  | lower c x => exact (allDigits_cons.1 ht).2
  | above x h => trivial
  | upper d y => exact (allDigits_cons.1 ht).2
  | below y h => trivial
  | same c x y =>
    obtain ⟨hx, hy, hlen, hle⟩ := ht
    obtain ⟨hc, hx⟩ := allDigits_cons.1 hx
    have hy := (allDigits_cons.1 hy).2
    have hlen := Nat.add_right_cancel hlen
    rcases (Numeral.value_cons_le_iff hc hc hx hy hlen).1 hle with hlt | ⟨_, hle⟩
    · exact absurd hlt (Char.lt_irrefl c)
    · exact ⟨hx, hy, hlen, hle⟩
  | first x y h => exact (allDigits_cons.1 ht.1).2
  | last x y h => exact (allDigits_cons.1 ht.2.1).2
  | inside x y h hlt => trivial

theorem length_branches_le (t : Task) : t.branches.length ≤ 3 := by
  match t with
  | any 0 => exact Nat.zero_le _
  | any (n + 1) => exact (by decide : 1 ≤ 3)
  | atLeast [] => exact Nat.zero_le _
  | atLeast (c :: x) =>
    simp only [branches]
    split <;> simp
  | atMost [] => exact Nat.zero_le _
  | atMost (d :: y) =>
    simp only [branches]
    split <;> simp
  | between [] _ => exact Nat.zero_le _
  | between (c :: x) [] => exact Nat.zero_le _
  | between (c :: x) (d :: y) =>
    simp only [branches]
    split
    · simp
    · split <;> simp

theorem pairwise_branches_between (h : c ≠ d) (x y : Word) :
    (between (c :: x) (d :: y)).branches.Pairwise fun b b' => b.2.1 < b'.1 ∨ b'.2.1 < b.1 := by
  have hne : c < d ∨ d < c := by
    rw [Alphabet.lt_iff_rank, Alphabet.lt_iff_rank]
    exact Nat.lt_or_gt_of_ne fun he => h (Alphabet.rank_inj he)
  simp only [branches, if_neg h]
  split
  · next hlt =>
    have hcd : c < d := by
      have hsucc := rank_le_rank_succ c
      rw [Alphabet.lt_iff_rank] at hlt ⊢
      omega
    rw [List.cons_append, List.cons_append, List.nil_append, List.pairwise_cons,
      List.pairwise_pair]
    refine ⟨fun b hb => ?_, .inr (pred_lt hlt)⟩
    rcases List.mem_cons.1 hb with rfl | hb
    · exact hne
    · rw [List.mem_singleton.1 hb]
      exact .inl (lt_succ hcd)
  · rw [List.append_nil, List.pairwise_pair]
    exact hne

/-- No digit has two branches. -/
theorem pairwise_branches (t : Task) :
    t.branches.Pairwise fun b b' => b.2.1 < b'.1 ∨ b'.2.1 < b.1 := by
  match t with
  | any 0 => exact List.Pairwise.nil
  | any (n + 1) => exact List.pairwise_singleton _ _
  | atLeast [] => exact List.Pairwise.nil
  | atLeast (c :: x) =>
    simp only [branches]
    split
    · next h =>
      rw [List.pairwise_pair]
      exact .inl (lt_succ h)
    · exact List.pairwise_singleton _ _
  | atMost [] => exact List.Pairwise.nil
  | atMost (d :: y) =>
    simp only [branches]
    split
    · next h =>
      rw [List.pairwise_pair]
      exact .inr (pred_lt h)
    · exact List.pairwise_singleton _ _
  | between [] _ => exact List.Pairwise.nil
  | between (c :: x) [] => exact List.Pairwise.nil
  | between (c :: x) (d :: y) =>
    by_cases h : c = d
    · subst h
      rw [branches_between_same]
      exact List.pairwise_singleton _ _
    · exact pairwise_branches_between h x y

theorem range_self_iff : c ≤ e ∧ e ≤ c ↔ e = c :=
  ⟨fun h => Char.le_antisymm h.2 h.1, fun h => h ▸ ⟨Char.le_refl e, Char.le_refl e⟩⟩

theorem exists_branch_atLeast (hx : AllDigits (c :: x)) : (atLeast (c :: x)).Holds (e :: w) ↔
    ∃ b ∈ (atLeast (c :: x)).branches, (b.1 ≤ e ∧ e ≤ b.2.1) ∧ b.2.2.Holds w := by
  rw [holds_atLeast_cons hx]
  constructor
  · rintro (⟨rfl, hw⟩ | ⟨hlt, hnine, hw⟩)
    · exact ⟨_, mem_branches_atLeast.2 (.inl rfl), range_self_iff.2 rfl, hw⟩
    · have hc : c < '9' := by
        rw [Alphabet.lt_iff_rank] at hlt ⊢
        rw [Alphabet.le_iff_rank] at hnine
        omega
      exact ⟨_, mem_branches_atLeast.2 (.inr ⟨hc, rfl⟩), ⟨(succ_le_iff hlt).2 hlt, hnine⟩, hw⟩
  · rintro ⟨b, hb, he, hw⟩
    rcases mem_branches_atLeast.1 hb with rfl | ⟨hc, rfl⟩
    · exact .inl ⟨range_self_iff.1 he, hw⟩
    · exact .inr ⟨(succ_le_iff hc).1 he.1, he.2, hw⟩

theorem exists_branch_atMost (hy : AllDigits (d :: y)) : (atMost (d :: y)).Holds (e :: w) ↔
    ∃ b ∈ (atMost (d :: y)).branches, (b.1 ≤ e ∧ e ≤ b.2.1) ∧ b.2.2.Holds w := by
  rw [holds_atMost_cons hy]
  constructor
  · rintro (⟨rfl, hw⟩ | ⟨hlt, hzero, hw⟩)
    · exact ⟨_, mem_branches_atMost.2 (.inl rfl), range_self_iff.2 rfl, hw⟩
    · have hd : '0' < d := by
        rw [Alphabet.lt_iff_rank] at hlt ⊢
        rw [Alphabet.le_iff_rank] at hzero
        omega
      exact ⟨_, mem_branches_atMost.2 (.inr ⟨hd, rfl⟩), ⟨hzero, (le_pred_iff hlt).2 hlt⟩, hw⟩
  · rintro ⟨b, hb, he, hw⟩
    rcases mem_branches_atMost.1 hb with rfl | ⟨hd, rfl⟩
    · exact .inl ⟨range_self_iff.1 he, hw⟩
    · exact .inr ⟨(le_pred_iff hd).1 he.2, he.1, hw⟩

theorem exists_branch_between (hx : AllDigits (c :: x)) (hy : AllDigits (d :: y))
    (hlen : x.length = y.length) (hlt : c < d) : (between (c :: x) (d :: y)).Holds (e :: w) ↔
      ∃ b ∈ (between (c :: x) (d :: y)).branches, (b.1 ≤ e ∧ e ≤ b.2.1) ∧ b.2.2.Holds w := by
  have hne : c ≠ d := fun h => absurd (h ▸ hlt) (Char.lt_irrefl d)
  rw [holds_between_cons_of_lt hx hy hlen hlt]
  constructor
  · rintro (⟨rfl, hw⟩ | ⟨rfl, hw⟩ | ⟨hce, hed, hw⟩)
    · exact ⟨_, (mem_branches_between hne).2 (.inl rfl), range_self_iff.2 rfl, hw⟩
    · exact ⟨_, (mem_branches_between hne).2 (.inr (.inl rfl)), range_self_iff.2 rfl, hw⟩
    · have hin : succ c < d := by
        have hsucc := rank_succ hce
        rw [Alphabet.lt_iff_rank] at hce hed ⊢
        omega
      exact ⟨_, (mem_branches_between hne).2 (.inr (.inr ⟨hin, rfl⟩)),
        ⟨(succ_le_iff hce).2 hce, (le_pred_iff hed).2 hed⟩, hw⟩
  · rintro ⟨b, hb, he, hw⟩
    rcases (mem_branches_between hne).1 hb with rfl | rfl | ⟨_, rfl⟩
    · exact .inl ⟨range_self_iff.1 he, hw⟩
    · exact .inr (.inl ⟨range_self_iff.1 he, hw⟩)
    · exact .inr (.inr ⟨(succ_le_iff hlt).1 he.1, (le_pred_iff hlt).1 he.2, hw⟩)

/-- What a task holds of after a digit, one of its branches holds of. -/
theorem holds_cons_iff (ht : t.Valid) :
    t.Holds (e :: w) ↔ ∃ b ∈ t.branches, (b.1 ≤ e ∧ e ≤ b.2.1) ∧ b.2.2.Holds w := by
  match t, ht with
  | any 0, _ => simp [Holds, branches]
  | any (n + 1), _ =>
    show AllDigits (e :: w) ∧ w.length + 1 = n + 1 ↔ ∃ b ∈ [('0', '9', any n)], _
    rw [allDigits_cons, Numeral.isDigit_iff, Nat.add_right_cancel_iff, and_assoc]
    simp only [List.mem_singleton, exists_eq_left]
    exact Iff.rfl
  | atLeast [], _ => simp [Holds, branches]
  | atLeast (c :: x), hx => exact exists_branch_atLeast hx
  | atMost [], _ => simp [Holds, branches]
  | atMost (d :: y), hy => exact exists_branch_atMost hy
  | between [] y, hxy =>
    have hy : y = [] := List.length_eq_zero_iff.1 hxy.2.2.1.symm
    subst hy
    simp [Holds, branches]
  | between (c :: x) [], hxy => cases hxy.2.2.1
  | between (c :: x) (d :: y), ⟨hx, hy, hlen, hle⟩ =>
    have hlen' : x.length = y.length := Nat.add_right_cancel hlen
    obtain ⟨hc, hx'⟩ := allDigits_cons.1 hx
    obtain ⟨hd, hy'⟩ := allDigits_cons.1 hy
    rcases (Numeral.value_cons_le_iff hc hd hx' hy' hlen').1 hle with hlt | ⟨rfl, _⟩
    · exact exists_branch_between hx hy hlen' hlt
    · rw [holds_between_cons_same hx hy hlen', branches_between_same]
      simp only [List.mem_singleton, exists_eq_left, range_self_iff]

end Task

/-! ## Items -/

variable {x y w : Word} {it it' : Item} {e : Char × Char × Item}

theorem exists_branch_of_mem_row (he : e ∈ row it) : ∃ b ∈ it.2.branches, ∃ i,
    e = (b.1, b.2.1, i :: it.1, b.2.2) := by
  obtain ⟨i, hi, rfl⟩ := List.mem_mapIdx.1 he
  exact ⟨_, List.getElem_mem hi, i, rfl⟩

theorem exists_mem_row {b : Char × Char × Task} (hb : b ∈ it.2.branches) :
    ∃ i, (b.1, b.2.1, i :: it.1, b.2.2) ∈ row it := by
  obtain ⟨i, hi, rfl⟩ := List.getElem_of_mem hb
  exact ⟨i, List.mem_mapIdx.2 ⟨i, hi, rfl⟩⟩

theorem ordered_row : Graph.Ordered row := by
  intro it e he
  obtain ⟨b, hb, i, rfl⟩ := exists_branch_of_mem_row he
  exact (Task.branch_of_mem hb).ordered

theorem length_row (it : Item) : (row it).length = it.2.branches.length := by
  unfold row
  rw [List.length_mapIdx]

theorem pairwise_row (it : Item) : (row it).Pairwise fun r s => r.2.1 < s.1 ∨ s.2.1 < r.1 := by
  rw [List.pairwise_iff_getElem]
  intro i j hi hj hij
  have hp := List.pairwise_iff_getElem.1 it.2.pairwise_branches i j
    (by rwa [length_row] at hi) (by rwa [length_row] at hj) hij
  simp only [row, List.getElem_mapIdx]
  exact hp

theorem left_lt_of_mem_row (he : e ∈ row it) : e.2.2.2.left < it.2.left := by
  obtain ⟨b, hb, i, rfl⟩ := exists_branch_of_mem_row he
  exact (Task.branch_of_mem hb).left_lt

theorem valid_of_mem_row (ht : it.2.Valid) (he : e ∈ row it) : e.2.2.2.Valid := by
  obtain ⟨b, hb, i, rfl⟩ := exists_branch_of_mem_row he
  exact (Task.branch_of_mem hb).valid ht

/-- Items with the steps of their rows. -/
abbrev items : Machine Item := .ofRows (·.2.isDone) row

/-- An item accepts what its task holds of. -/
theorem accepts_items (ht : it.2.Valid) : items.Accepts it w ↔ it.2.Holds w := by
  induction w generalizing it with
  | nil =>
    rw [Machine.accepts_nil_iff]
    exact (Task.holds_nil_iff ht).symm
  | cons c w ih =>
    rw [Machine.accepts_cons_iff, Task.holds_cons_iff ht]
    constructor
    · rintro ⟨_, ⟨e, he, hc, rfl⟩, hw⟩
      have hw := (ih (valid_of_mem_row ht he)).1 hw
      obtain ⟨b, hb, i, rfl⟩ := exists_branch_of_mem_row he
      exact ⟨b, hb, hc, hw⟩
    · rintro ⟨b, hb, hc, hw⟩
      obtain ⟨i, hi⟩ := exists_mem_row hb
      exact ⟨_, ⟨_, hi, hc, rfl⟩, (ih (valid_of_mem_row ht hi)).2 hw⟩

/-! ## The tree -/

/-- An item and all that come after at most `n` digits. -/
def below : Nat → Item → List Item
  | 0, it => [it]
  | n + 1, it => it :: (row it).flatMap fun e => below n e.2.2

theorem self_mem_below (n : Nat) (it : Item) : it ∈ below n it := by
  cases n <;> exact List.mem_cons_self

/-- There are at most three items more for each, so fewer than powers of four. -/
theorem length_below_le (n : Nat) (it : Item) : (below n it).length ≤ 4 ^ n := by
  induction n generalizing it with
  | zero => exact Nat.le_refl 1
  | succ n ih =>
    have hrow : (row it).length ≤ 3 := by
      rw [length_row]
      exact Task.length_branches_le _
    have hsum : ((row it).flatMap fun e => below n e.2.2).length ≤ (row it).length * 4 ^ n := by
      rw [List.length_flatMap]
      refine (List.sum_le_card_nsmul _ (4 ^ n) ?_).trans (Nat.le_of_eq ?_)
      · intro k hk
        obtain ⟨e, _, rfl⟩ := List.mem_map.1 hk
        exact ih e.2.2
      · rw [List.length_map]
        rfl
    have hmul : (row it).length * 4 ^ n ≤ 3 * 4 ^ n := Nat.mul_le_mul_right _ hrow
    have hpos : 0 < 4 ^ n := Nat.pow_pos (by decide)
    show ((row it).flatMap fun e => below n e.2.2).length + 1 ≤ 4 ^ (n + 1)
    rw [Nat.pow_succ]
    omega

theorem closedUnder_below {n : Nat} (h : it.2.left ≤ n) :
    Graph.ClosedUnder row (below n it) := by
  induction n generalizing it with
  | zero =>
    intro a ha e he
    rw [List.mem_singleton.1 ha] at he
    have hlt := left_lt_of_mem_row he
    omega
  | succ n ih =>
    intro a ha e he
    refine List.mem_cons_of_mem _ (List.mem_flatMap.2 ?_)
    rcases List.mem_cons.1 ha with rfl | ha
    · exact ⟨e, he, self_mem_below n _⟩
    · obtain ⟨e', he', ha⟩ := List.mem_flatMap.1 ha
      have hlt := left_lt_of_mem_row he'
      exact ⟨e', he', ih (by omega) a ha e he⟩

/-- Fuel of the exploration suffices. -/
theorem length_below_le_fuel (x y : Word) (n : Nat) :
    (below (n + 1) ([], .between x y)).length ≤ 1 <<< (2 * (n + 1)) := by
  have hpow : 1 <<< (2 * (n + 1)) = 4 ^ (n + 1) := by
    rw [Nat.one_shiftLeft, Nat.pow_mul]
  rw [hpow]
  exact length_below_le _ _

/-- The items of a tree. -/
def treeItems (x y : Word) : List Item := (tree x y).1

/-- The graph of a tree. -/
def treeGraph (x y : Word) : Graph := (tree x y).2

theorem closedUnder_below_start (hlen : x.length = y.length) :
    Graph.ClosedUnder row (below (x.length + 1) ([], .between x y)) := by
  apply closedUnder_below
  show max x.length y.length ≤ x.length + 1
  omega

theorem closedUnder_treeItems (hlen : x.length = y.length) :
    Graph.ClosedUnder row (treeItems x y) :=
  Graph.closedUnder_discover (self_mem_below _ _) (closedUnder_below_start hlen)
    (length_below_le_fuel x y x.length)

theorem start_mem_treeItems (x y : Word) : ([], .between x y) ∈ treeItems x y :=
  Graph.start_mem_discover

theorem nodup_treeItems (x y : Word) : (treeItems x y).Nodup := Graph.nodup_discover _ _ _

theorem wellFormed_treeGraph (hlen : x.length = y.length) : (treeGraph x y).WellFormed :=
  Graph.wellFormed_ofItems (closedUnder_treeItems hlen) (nodup_treeItems x y)
    (List.ne_nil_of_mem (start_mem_treeItems x y))

theorem isDeterministic_treeGraph (hlen : x.length = y.length) :
    (treeGraph x y).IsDeterministic :=
  Graph.isDeterministic_unfold ordered_row (self_mem_below _ _) (closedUnder_below_start hlen)
    (length_below_le_fuel x y x.length) fun it _ => pairwise_row it

/-- The place of an item in the tree. -/
def place (x y : Word) (it : Item) : Nat := (treeItems x y).idxOf it

theorem place_eq (x y : Word) (it : Item) :
    place x y it = @List.idxOf Item instBEqOfDecidableEq it (treeItems x y) := by
  unfold place
  rw [lawful_beq_subsingleton instBEqProd (instBEqOfDecidableEq (α := Item))]

theorem covers_treeGraph (hlen : x.length = y.length) :
    Machine.Covering (place x y) (· ∈ treeItems x y) items (treeGraph x y).machine := by
  rw [funext (place_eq x y)]
  exact Graph.covers_ofItems ordered_row (closedUnder_treeItems hlen)

theorem place_start (x y : Word) : place x y ([], .between x y) = 0 := by
  obtain ⟨l, hl⟩ := Graph.exists_discover_eq_cons row (1 <<< (2 * (x.length + 1)))
    ([], .between x y)
  show List.idxOf _ (Graph.discover row _ _) = 0
  rw [hl, List.idxOf_cons_self]

/-- The place of an item accepts what its task holds of. -/
theorem acceptsFrom_treeGraph (hlen : x.length = y.length) (hit : it ∈ treeItems x y)
    (ht : it.2.Valid) : (treeGraph x y).AcceptsFrom (place x y it) w ↔ it.2.Holds w := by
  rw [← accepts_items ht, ← Graph.accepts_machine_iff]
  exact (covers_treeGraph hlen).accepts_iff hit

theorem accepts_treeGraph (hxy : (Task.between x y).Valid) :
    (treeGraph x y).Accepts w ↔ (Task.between x y).Holds w := by
  rw [← acceptsFrom_treeGraph hxy.2.2.1 (start_mem_treeItems x y) hxy, place_start]
  exact Iff.rfl

/-- Nothing leads back to the start of a tree. -/
theorem initial_notMem_stepAll_treeGraph (hlen : x.length = y.length) (q : Nat) (c : Char) :
    (treeGraph x y).initial ∉ ((treeGraph x y).state q).stepAll c := by
  intro h
  by_cases hq : q < (treeGraph x y).size
  · have hq' : q < (treeItems x y).length := by
      rwa [treeGraph, tree, Graph.size_ofItems] at hq
    have hidx : place x y (treeItems x y)[q] = q := (nodup_treeItems x y).idxOf_getElem q hq'
    have hmem : (treeItems x y)[q] ∈ treeItems x y := List.getElem_mem hq'
    rw [← hidx] at h
    obtain ⟨_, ⟨e, he, _, rfl⟩, h0⟩ := ((covers_treeGraph hlen).step hmem).1 h
    have hstart : place x y e.2.2 = place x y ([], .between x y) := by
      rw [h0, place_start]
      rfl
    have he' := (List.idxOf_inj (closedUnder_treeItems hlen _ hmem e he)).1 hstart
    obtain ⟨b, _, i, rfl⟩ := exists_branch_of_mem_row he
    cases congrArg Prod.fst he'
  · rw [Graph.state_of_not_lt hq] at h
    cases h

end RegLang.Interval
