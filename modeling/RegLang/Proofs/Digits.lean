import Mathlib.Algebra.Group.Nat.Defs
import RegLang.Numeral
import RegLang.Proofs.Letters
import RegLang.Semantics.Denotation
/-!
# Words of digits

Words of equally many digits are ordered as their numbers are: the first digits decide, unless they
are the same.

* `value_cons_le_iff`: the order of numbers, digit by digit.
* `exists_zeros_append`: a number that is small enough is written with zeros in front.
* `exists_zeros_decimal`: all digits are a number in decimal with zeros in front.
* `mem_numbersBetween_iff`: the words of an interval as written numbers.
-/

namespace RegLang.Numeral

open Alphabet (rank)

variable {c d : Char} {v w x y : Word} {k n : Nat}

/-! ## Digits -/

theorem isDigit_iff : c.isDigit = true ↔ '0' ≤ c ∧ c ≤ '9' := by
  unfold Char.isDigit
  rw [Bool.and_eq_true, decide_eq_true_iff, decide_eq_true_iff]
  exact Iff.rfl

theorem isDigit_iff_toNat : c.isDigit = true ↔ 48 ≤ c.toNat ∧ c.toNat ≤ 57 :=
  isDigit_iff

/-- A word of decimal digits. -/
def AllDigits (w : Word) : Prop := w.all Char.isDigit = true

theorem allDigits_cons : AllDigits (c :: w) ↔ c.isDigit = true ∧ AllDigits w := by
  unfold AllDigits
  rw [List.all_cons, Bool.and_eq_true]

theorem allDigits_append : AllDigits (v ++ w) ↔ AllDigits v ∧ AllDigits w := by
  unfold AllDigits
  rw [List.all_append, Bool.and_eq_true]

theorem allDigits_zeros (k : Nat) : AllDigits (List.replicate k '0') := by
  unfold AllDigits
  rw [List.all_replicate]
  split
  · rfl
  · decide

/-! ## Values -/

theorem value_cons (c : Char) (w : Word) :
    value (c :: w) = 10 ^ w.length * (c.toNat - 48) + value w := by
  unfold value
  rw [Nat.ofDigitChars_cons, Nat.ofDigitChars_eq_ofDigitChars_zero, Nat.mul_zero, Nat.zero_add]
  rfl

theorem value_lt (hw : AllDigits w) : value w < 10 ^ w.length := by
  induction w with
  | nil => decide
  | cons c w ih =>
    obtain ⟨hc, hw⟩ := allDigits_cons.1 hw
    rw [isDigit_iff_toNat] at hc
    have hlt := ih hw
    have hle : 10 ^ w.length * (c.toNat - 48) ≤ 10 ^ w.length * 9 :=
      Nat.mul_le_mul_left _ (by omega)
    rw [value_cons, List.length_cons, Nat.pow_succ]
    omega

theorem value_cons_le_iff (hc : c.isDigit = true) (hd : d.isDigit = true) (hx : AllDigits x)
    (hy : AllDigits y) (hlen : x.length = y.length) :
    value (c :: x) ≤ value (d :: y) ↔ c < d ∨ (c = d ∧ value x ≤ value y) := by
  have hltx := value_lt hx
  have hlty := value_lt hy
  rw [isDigit_iff_toNat] at hc hd
  rw [value_cons, value_cons, ← hlen, Alphabet.lt_iff_toNat]
  rw [← hlen] at hlty
  rcases Nat.lt_trichotomy c.toNat d.toNat with hlt | heq | hgt
  · -- a smaller digit outweighs all that follows
    have hmul : 10 ^ x.length * (c.toNat - 48 + 1) ≤ 10 ^ x.length * (d.toNat - 48) :=
      Nat.mul_le_mul_left _ (by omega)
    rw [Nat.mul_succ] at hmul
    exact ⟨fun _ => .inl hlt, fun _ => by omega⟩
  · have hcd : c = d := Alphabet.toNat_inj heq
    subst hcd
    constructor
    · exact fun h => .inr ⟨rfl, by omega⟩
    · rintro (h | ⟨_, h⟩)
      · omega
      · omega
  · have hmul : 10 ^ x.length * (d.toNat - 48 + 1) ≤ 10 ^ x.length * (c.toNat - 48) :=
      Nat.mul_le_mul_left _ (by omega)
    rw [Nat.mul_succ] at hmul
    constructor
    · intro h
      omega
    · rintro (h | ⟨rfl, _⟩)
      · omega
      · omega

/-- Equally many digits that denote one number are the same digits. -/
theorem eq_of_value_eq (hx : AllDigits x) (hy : AllDigits y) (hlen : x.length = y.length)
    (h : value x = value y) : x = y := by
  induction x generalizing y with
  | nil => exact (List.eq_nil_of_length_eq_zero hlen.symm).symm
  | cons c x ih =>
    obtain ⟨d, z, rfl⟩ := List.exists_cons_of_length_eq_add_one hlen.symm
    obtain ⟨hc, hx⟩ := allDigits_cons.1 hx
    obtain ⟨hd, hz⟩ := allDigits_cons.1 hy
    have hlen' : x.length = z.length := Nat.add_right_cancel hlen
    rcases (value_cons_le_iff hc hd hx hz hlen').1 (Nat.le_of_eq h) with hlt | ⟨hcd, _⟩
    · rcases (value_cons_le_iff hd hc hz hx hlen'.symm).1 (Nat.le_of_eq h.symm) with hgt | ⟨hdc, _⟩
      · exact absurd hgt (Char.lt_asymm hlt)
      · exact absurd hlt (hdc ▸ Char.lt_irrefl _)
    · rw [value_cons, value_cons, hlen', hcd] at h
      rw [hcd, ih hx hz hlen' (Nat.add_left_cancel h)]

/-- A number below a power of ten has zeros in front of so many digits. -/
theorem exists_zeros_append (hw : AllDigits w) (hlt : value w < 10 ^ k) (hk : k ≤ w.length) :
    ∃ v, List.replicate (w.length - k) '0' ++ v = w ∧ v.length = k := by
  induction w with
  | nil =>
    obtain rfl : k = 0 := Nat.le_zero.1 hk
    exact ⟨[], rfl, rfl⟩
  | cons c w ih =>
    obtain ⟨hc, hw⟩ := allDigits_cons.1 hw
    rcases Nat.lt_or_eq_of_le hk with hk | rfl
    · rw [List.length_cons] at hk
      have hpow : 10 ^ k ≤ 10 ^ w.length := Nat.pow_le_pow_right (by decide) (by omega)
      rw [value_cons] at hlt
      have hzero : c.toNat - 48 = 0 := by
        apply Nat.eq_zero_of_not_pos
        intro hpos
        have hmul : 10 ^ w.length * 1 ≤ 10 ^ w.length * (c.toNat - 48) :=
          Nat.mul_le_mul_left _ hpos
        omega
      rw [isDigit_iff_toNat] at hc
      have hc0 : c = '0' := by
        apply Alphabet.toNat_inj
        show c.toNat = 48
        omega
      obtain ⟨v, hv, hlen⟩ := ih hw (by rw [hzero, Nat.mul_zero] at hlt; omega) (by omega)
      refine ⟨v, ?_, hlen⟩
      rw [List.length_cons, Nat.succ_sub (by omega), List.replicate_succ, List.cons_append, hv, hc0]
    · exact ⟨c :: w, by rw [Nat.sub_self]; rfl, rfl⟩

/-! ## Numbers in print -/

theorem allDigits_padded (width n : Nat) : AllDigits (padded 10 width n) := by
  unfold padded
  rw [allDigits_append]
  refine ⟨allDigits_zeros _, List.all_eq_true.2 fun c hc => ?_⟩
  exact Nat.isDigit_of_mem_toDigits (by decide) (by decide) hc

theorem allDigits_decimal (n : Nat) : AllDigits (decimal n) :=
  allDigits_padded 0 n

theorem value_decimal (n : Nat) : value (decimal n) = n :=
  value_padded 0 n

theorem length_decimal (n : Nat) : (decimal n).length = (Nat.toDigits 10 n).length := by
  rw [decimal_eq_toDigits]

theorem length_decimal_pos (n : Nat) : 0 < (decimal n).length := by
  rw [length_decimal]
  exact Nat.length_toDigits_pos

theorem lt_pow_length_decimal (n : Nat) : n < 10 ^ (decimal n).length := by
  have hlen : (Nat.toDigits 10 n).length ≤ (decimal n).length :=
    Nat.le_of_eq (length_decimal n).symm
  exact (Nat.length_toDigits_le_iff (by decide) (length_decimal_pos n)).1 hlen

theorem length_decimal_mono (h : k ≤ n) : (decimal k).length ≤ (decimal n).length := by
  rw [length_decimal k, Nat.length_toDigits_le_iff (by decide) (length_decimal_pos n)]
  exact Nat.lt_of_le_of_lt h (lt_pow_length_decimal n)

/-- A number fills its width if it fits in. -/
theorem length_padded_of_le {width : Nat} (h : (decimal n).length ≤ width) :
    (padded 10 width n).length = width := by
  rw [length_decimal] at h
  rw [length_padded]
  exact Nat.max_eq_left h

/-- Digits are a number in decimal with zeros in front. -/
theorem exists_zeros_decimal (hw : AllDigits w) (hne : w ≠ []) :
    ∃ k, w = List.replicate k '0' ++ decimal (value w) := by
  have hfits : (decimal (value w)).length ≤ w.length := by
    rw [length_decimal, Nat.length_toDigits_le_iff (by decide) (List.length_pos_iff.2 hne)]
    exact value_lt hw
  refine ⟨w.length - (Nat.toDigits 10 (value w)).length, ?_⟩
  rw [decimal_eq_toDigits]
  show w = padded 10 w.length (value w)
  apply eq_of_value_eq hw (allDigits_padded _ _)
  · rw [length_padded_of_le hfits]
  · rw [value_padded]

end RegLang.Numeral

namespace RegLang

/-! ## The numbers between two bounds -/

open Numeral

variable {lo hi digits : Nat} {w : Word}

/-- The words of an interval are numbers in decimal behind zeros. -/
theorem mem_numbersBetween_iff : w ∈ numbersBetween lo hi digits ↔
    ∃ n k, lo ≤ n ∧ n ≤ hi ∧ w = List.replicate k '0' ++ decimal n ∧
      (digits = 0 ∨ w.length = digits) := by
  constructor
  · rintro ⟨hne, hall, hlo, hhi, hlen⟩
    obtain ⟨k, hk⟩ := exists_zeros_decimal hall hne
    exact ⟨value w, k, hlo, hhi, hk, hlen⟩
  · rintro ⟨n, k, hlo, hhi, rfl, hlen⟩
    have hall : AllDigits (List.replicate k '0' ++ decimal n) :=
      allDigits_append.2 ⟨allDigits_zeros k, allDigits_decimal n⟩
    have hvalue : value (List.replicate k '0' ++ decimal n) = n := by
      rw [value_zeros_append, value_decimal]
    have hne : List.replicate k '0' ++ decimal n ≠ [] :=
      List.append_ne_nil_of_right_ne_nil _ (List.ne_nil_of_length_pos (length_decimal_pos n))
    refine ⟨hne, hall, ?_, ?_, hlen⟩
    · rwa [hvalue]
    · rwa [hvalue]

/-- The lower bound is written with as many zeros as the width asks for. -/
theorem exists_mem_numbersBetween (h : lo ≤ hi)
    (hd : digits = 0 ∨ (decimal hi).length ≤ digits) : ∃ w, w ∈ numbersBetween lo hi digits := by
  refine ⟨List.replicate (digits - (decimal lo).length) '0' ++ decimal lo,
    mem_numbersBetween_iff.2 ⟨lo, _, Nat.le_refl _, h, rfl, hd.imp_right fun hw => ?_⟩⟩
  have hmono := length_decimal_mono h
  rw [List.length_append, List.length_replicate]
  omega

end RegLang
