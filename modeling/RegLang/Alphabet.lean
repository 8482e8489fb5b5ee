/-!
# The alphabet

Letters are Unicode scalar values in ascending order.  The surrogate gap is no part of the
alphabet, so `'\uD7FF'` and `'\uE000'` are neighbours.  Everything about neighbours and
interval sizes is read off one numbering, `rank`, which counts letters from `0` without a gap.

* `ofRank_rank`, `rank_ofRank`: the numbering is a bijection onto `[0, size)`.
* `rank_le_rank_iff`: it keeps the order.
-/

namespace RegLang

/-- A string, read letter by letter. -/
abbrev Word := List Char

namespace Alphabet

/-! ## Numbering -/

/-- Number of letters: all code points less the surrogate gap. -/
def size : Nat := 0x110000 - 0x800

/-- Position of a letter in ascending order. -/
def rank (c : Char) : Nat :=
  if c.toNat < 0xD800 then c.toNat else c.toNat - 0x800

/-- The letter at a position. -/
def ofRank (n : Nat) : Char :=
  if n < 0xD800 then Char.ofNat n else Char.ofNat (n + 0x800)

/-- The smallest letter. -/
def first : Char := Char.ofNat 0

/-- The largest letter. -/
def last : Char := Char.ofNat 0x10FFFF

/-! ## Neighbours and intervals -/

/-- The letter after `c`, if there is one. -/
def next? (c : Char) : Option Char :=
  if rank c + 1 < size then some (ofRank (rank c + 1)) else none

/-- The letter before `c`, if there is one. -/
def prev? (c : Char) : Option Char :=
  if rank c = 0 then none else some (ofRank (rank c - 1))

/-- Number of letters in the interval from `lo` to `hi`, none if the bounds are reversed. -/
def count (lo hi : Char) : Nat := rank hi + 1 - rank lo

/-- An interval that ends at `hi` overlaps or touches one that starts at `lo`. -/
def touches (hi lo : Char) : Bool := rank lo ≤ rank hi + 1

/-- The smaller of two letters. -/
def lower (c d : Char) : Char := if d < c then d else c

/-- The larger of two letters. -/
def upper (c d : Char) : Char := if c < d then d else c

/-! ## Lemmas -/

theorem isValidChar_toNat (c : Char) :
    c.toNat < 0xD800 ∨ (0xDFFF < c.toNat ∧ c.toNat < 0x110000) := c.valid

theorem toNat_ofNat {n : Nat} (h : n < 0xD800 ∨ (0xDFFF < n ∧ n < 0x110000)) :
    (Char.ofNat n).toNat = n := by
  have hv : n.isValidChar := h
  rw [Char.ofNat, dif_pos hv]
  rfl

theorem le_iff_toNat {c d : Char} : c ≤ d ↔ c.toNat ≤ d.toNat := Iff.rfl

theorem lt_iff_toNat {c d : Char} : c < d ↔ c.toNat < d.toNat := Iff.rfl

theorem toNat_inj {c d : Char} (h : c.toNat = d.toNat) : c = d :=
  Char.ext (UInt32.toNat_inj.1 h)

theorem rank_lt_size (c : Char) : rank c < size := by
  have := isValidChar_toNat c
  unfold rank size
  split <;> omega

theorem rank_ofRank {n : Nat} (h : n < size) : rank (ofRank n) = n := by
  unfold size at h
  unfold ofRank
  split
  · next hn =>
    unfold rank
    rw [toNat_ofNat (Or.inl hn), if_pos hn]
  · next hn =>
    unfold rank
    rw [toNat_ofNat (Or.inr (by omega)), if_neg (by omega)]
    omega

theorem rank_le_rank_iff {c d : Char} : rank c ≤ rank d ↔ c ≤ d := by
  have hc := isValidChar_toNat c
  have hd := isValidChar_toNat d
  rw [le_iff_toNat]
  unfold rank
  split <;> split <;> omega

theorem rank_lt_rank_iff {c d : Char} : rank c < rank d ↔ c < d := by
  have hc := isValidChar_toNat c
  have hd := isValidChar_toNat d
  rw [lt_iff_toNat]
  unfold rank
  split <;> split <;> omega

theorem rank_inj {c d : Char} (h : rank c = rank d) : c = d := by
  have h1 : c ≤ d := rank_le_rank_iff.1 (Nat.le_of_eq h)
  have h2 : d ≤ c := rank_le_rank_iff.1 (Nat.le_of_eq h.symm)
  exact toNat_inj (Nat.le_antisymm (le_iff_toNat.1 h1) (le_iff_toNat.1 h2))

theorem ofRank_rank (c : Char) : ofRank (rank c) = c :=
  rank_inj (rank_ofRank (rank_lt_size c))

theorem rank_first : rank first = 0 := by decide

theorem rank_last : rank last + 1 = size := by decide

theorem first_le (c : Char) : first ≤ c :=
  rank_le_rank_iff.1 (by rw [rank_first]; exact Nat.zero_le _)

theorem le_last (c : Char) : c ≤ last :=
  rank_le_rank_iff.1 (by have := rank_lt_size c; have := rank_last; omega)

/-- The next letter is the one whose position is one further. -/
theorem next?_eq_some_iff {c d : Char} : next? c = some d ↔ rank d = rank c + 1 := by
  unfold next?
  split
  · next h =>
    constructor
    · intro e
      rw [← Option.some.inj e, rank_ofRank h]
    · intro e
      rw [← e, ofRank_rank]
  · next h =>
    have := rank_lt_size d
    constructor
    · intro e
      cases e
    · intro e
      omega

theorem next?_eq_none_iff {c : Char} : next? c = none ↔ c = last := by
  have hl := rank_last
  have hc := rank_lt_size c
  unfold next?
  split
  · next h =>
    constructor
    · intro e
      cases e
    · intro e
      subst e
      omega
  · next h =>
    exact ⟨fun _ => rank_inj (by omega), fun _ => rfl⟩

/-- The previous letter is the one whose position is one back. -/
theorem prev?_eq_some_iff {c d : Char} : prev? c = some d ↔ rank d + 1 = rank c := by
  have hc := rank_lt_size c
  unfold prev?
  split
  · next h =>
    constructor
    · intro e
      cases e
    · intro e
      omega
  · next h =>
    constructor
    · intro e
      rw [← Option.some.inj e, rank_ofRank (by omega)]
      omega
    · intro e
      rw [← e, Nat.add_sub_cancel, ofRank_rank]

theorem touches_iff {hi lo : Char} : touches hi lo = true ↔ rank lo ≤ rank hi + 1 := by
  unfold touches
  exact decide_eq_true_iff

theorem le_upper_left (c d : Char) : c ≤ upper c d := by
  unfold upper
  split
  · next h => exact le_iff_toNat.2 (Nat.le_of_lt (lt_iff_toNat.1 h))
  · exact le_iff_toNat.2 (Nat.le_refl _)

end Alphabet

end RegLang
