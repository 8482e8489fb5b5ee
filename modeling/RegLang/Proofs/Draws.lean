import RegLang.Random.Words
/-!
# Random draws

That a value lies in its range is part of the type of a draw.  That every value of the range can
come up is a law, which a source may have or not:

    ∀ x, ∃ us, d.run us = some (x, [])                                     (Draw.Onto)

The source that scales has it.  The words that are scaled to one value lie `2^64 / n` (or
`2^32 / n`) apart; the first of them has a low half below the size of the range, hence is never
rejected, and one word is enough to draw any value.

* `exists_scaled`: the word that is scaled to a value and is not rejected.
* `onto_scaling`: the source that scales draws every value.
-/

namespace RegLang.Random

variable {n i : Nat} {lo hi : Char}

/-! ## Values that can be drawn -/

/-- Every value is drawn from some words. -/
def Draw.Onto {α : Type} (d : Draw α) : Prop := ∀ x, ∃ us, d.run us = some (x, [])

theorem Draw.Onto.exists_run {α : Type} {d : Draw α} (h : d.Onto) (x : α) :
    ∃ us, ∀ ws, d.run (us ++ ws) = some (x, ws) :=
  let ⟨us, hus⟩ := h x
  ⟨us, d.run_append hus⟩

/-- Every number below a bound that is a machine word, and every letter of an interval, is drawn
from some words. -/
structure Source.Onto (d : Source) : Prop where
  below : ∀ n (positive : 0 < n), n ≤ UInt64.size → (d.below n positive).Onto
  letter : ∀ lo hi (inOrder : lo ≤ hi), (d.letter lo hi inOrder).Onto

/-- A draw that rejects words comes to the values of the words that it accepts. -/
theorem Draw.onto_rejecting {α : Type} {accepted : UInt64 → Bool} {value : UInt64 → α}
    (h : ∀ x, ∃ w, accepted w = true ∧ value w = x) : (rejecting accepted value).Onto := by
  intro x
  obtain ⟨w, haccept, rfl⟩ := h x
  exact ⟨[w], run_rejecting_cons haccept []⟩

/-! ## Range reduction -/

/-- The first number that is scaled to `i` leaves a remainder below the size of the range. -/
theorem exists_scaled {b : Nat} (hi : i < n) (hn : n ≤ b) :
    ∃ w < b, w * n / b = i ∧ w * n % b < n := by
  have hpos : 0 < n := Nat.zero_lt_of_lt hi
  have hb : 0 < b := Nat.lt_of_lt_of_le hpos hn
  refine ⟨(i * b + (n - 1)) / n, ?_, ?_⟩
  · rw [Nat.div_lt_iff_lt_mul hpos]
    have : (i + 1) * b ≤ n * b := Nat.mul_le_mul_right b hi
    rw [Nat.add_mul, Nat.one_mul] at this
    rw [Nat.mul_comm b n]
    omega
  · -- rounding up adds less than `n`
    generalize hw : (i * b + (n - 1)) / n * n = m
    have hle : m ≤ i * b + (n - 1) := hw ▸ Nat.div_mul_le_self _ _
    have hge : i * b ≤ m := by
      have := Nat.div_add_mod (i * b + (n - 1)) n
      have := Nat.mod_lt (i * b + (n - 1)) hpos
      rw [Nat.mul_comm] at hw
      omega
    obtain ⟨r, rfl⟩ := Nat.exists_eq_add_of_le hge
    have hr : r < b := by omega
    rw [Nat.mul_comm i b, Nat.mul_add_div hb, Nat.mul_add_mod, Nat.div_eq_of_lt hr,
      Nat.mod_eq_of_lt hr]
    exact ⟨rfl, by omega⟩

theorem le_zoneBelow (n : Nat) : n ≤ zoneBelow n + 1 := by
  have : n ≤ n <<< (63 - n.log2) := by
    rw [Nat.shiftLeft_eq]
    exact Nat.le_mul_of_pos_right n (Nat.two_pow_pos _)
  unfold zoneBelow
  omega

theorem le_zoneOfRange (hpos : 0 < n) (hn : n ≤ UInt32.size) : n ≤ zoneOfRange n + 1 := by
  have h₁ := Nat.mod_lt (UInt32.size - n) hpos
  have h₂ := Nat.mod_le (UInt32.size - n) n
  unfold zoneOfRange
  omega

/-! ## Scaling -/

theorem onto_scaleBelow (positive : 0 < n) (hn : n ≤ UInt64.size) :
    (Source.scaling.below n positive).Onto := by
  apply Draw.onto_rejecting
  intro i
  obtain ⟨w, hw, hdiv, hmod⟩ := exists_scaled i.2 hn
  have hto : (UInt64.ofNat w).toNat = w := UInt64.toNat_ofNat_of_lt' hw
  have haccept : w * n % UInt64.size ≤ zoneBelow n := by
    have := le_zoneBelow n
    omega
  have hvalue : scaleBelow n positive (UInt64.ofNat w) = i := by
    apply Fin.ext
    show (UInt64.ofNat w).toNat * n / UInt64.size = i
    rw [hto, hdiv]
  exact ⟨UInt64.ofNat w, by rw [hto]; exact decide_eq_true haccept, hvalue⟩

theorem count_le_size (lo hi : Char) : Alphabet.count lo hi ≤ UInt32.size := by
  have := Alphabet.rank_lt_size hi
  unfold Alphabet.count
  unfold Alphabet.size at this
  have : UInt32.size = 4294967296 := rfl
  omega

theorem onto_scaleBetween (inOrder : lo ≤ hi) :
    (Source.scaling.letter lo hi inOrder).Onto := by
  apply Draw.onto_rejecting
  rintro ⟨c, hlo, hhi⟩
  have hl := Alphabet.rank_le_rank_iff.2 hlo
  have hh := Alphabet.rank_le_rank_iff.2 hhi
  have hlt : Alphabet.rank c - Alphabet.rank lo < Alphabet.count lo hi := by
    unfold Alphabet.count
    omega
  obtain ⟨w, hw, hdiv, hmod⟩ := exists_scaled hlt (count_le_size lo hi)
  have hto : (UInt64.ofNat w).toNat % UInt32.size = w := by
    rw [UInt64.toNat_ofNat_of_lt' (Nat.lt_trans hw (by decide)), Nat.mod_eq_of_lt hw]
  have haccept : w * Alphabet.count lo hi % UInt32.size ≤ zoneOfRange (Alphabet.count lo hi) := by
    have := le_zoneOfRange (Nat.zero_lt_of_lt hlt) (count_le_size lo hi)
    omega
  have hvalue : scaleBetween lo hi inOrder (UInt64.ofNat w) = ⟨c, hlo, hhi⟩ := by
    apply Subtype.ext
    show Alphabet.ofRank (Alphabet.rank lo + scaledDistance lo hi (UInt64.ofNat w)) = c
    rw [scaledDistance, hto, hdiv, Nat.add_sub_cancel' hl, Alphabet.ofRank_rank]
  exact ⟨UInt64.ofNat w, by rw [hto]; exact decide_eq_true haccept, hvalue⟩

theorem onto_scaling : Source.scaling.Onto where
  below _ positive hn := onto_scaleBelow positive hn
  letter _ _ inOrder := onto_scaleBetween inOrder

end RegLang.Random
