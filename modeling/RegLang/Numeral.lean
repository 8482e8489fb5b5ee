import RegLang.Alphabet
/-!
# Numbers in print

Numbers are written in decimal or in hexadecimal, with zeros in front where a width asks for them.

* `length_padded`: leading zeros fill up to the width and cut nothing off.
* `value_padded`: they do not change the number.
-/

namespace RegLang.Numeral

/-- The digits of a number in a base, with leading zeros up to a width. -/
def padded (base width n : Nat) : Word :=
  let digits := Nat.toDigits base n
  List.replicate (width - digits.length) '0' ++ digits

/-- A number in decimal. -/
def decimal (n : Nat) : Word := padded 10 0 n

/-- The number that decimal digits denote. -/
def value (ds : Word) : Nat := Nat.ofDigitChars 10 ds 0

/-! ## Lemmas -/

theorem length_padded (base width n : Nat) :
    (padded base width n).length = max width (Nat.toDigits base n).length := by
  simp only [padded, List.length_append, List.length_replicate]
  omega

theorem decimal_eq_toDigits (n : Nat) : decimal n = Nat.toDigits 10 n := by
  simp [decimal, padded]

/-- A zero in front adds nothing. -/
theorem value_zeros_append (k : Nat) (ds : Word) :
    value (List.replicate k '0' ++ ds) = value ds := by
  induction k with
  | zero => rfl
  | succ k ih =>
    rw [List.replicate_succ, List.cons_append, value, Nat.ofDigitChars_cons]
    exact ih

theorem value_padded (width n : Nat) : value (padded 10 width n) = n := by
  rw [padded, value_zeros_append, value]
  simp

end RegLang.Numeral
