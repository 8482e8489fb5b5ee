import RegLang.Alphabet
/-!
# Random words

Randomness comes as a list of 64-bit words.  A draw takes words from the front and makes a value of
them; when the words run out there is no value.  A source draws numbers below a bound and letters
of an interval, in one way or another.

The source that words of a language are drawn from scales: the value is the high half of a product
of a word with the size of the range, and words whose low half is beyond a zone that is a multiple
of that size are rejected.

* `Draw.length_lt`: a draw leaves fewer words than it was given.
* `Draw.run_append`: what is drawn from some words is drawn from more words, too.
-/

namespace RegLang.Random

/-! ## A generator -/

/-- The next state of the generator. -/
def advance (s : UInt64) : UInt64 := s + 0x9E3779B97F4A7C15

/-- The word of a state: two rounds of shifts and multiplications. -/
def mix (s : UInt64) : UInt64 :=
  let z := (s ^^^ (s >>> 30)) * 0xBF58476D1CE4E5B9
  let z := (z ^^^ (z >>> 27)) * 0x94D049BB133111EB
  z ^^^ (z >>> 31)

/-- The first words that grow from a seed. -/
def fromSeed : Nat → UInt64 → List UInt64
  | 0, _ => []
  | n + 1, seed => mix (advance seed) :: fromSeed n (advance seed)

/-! ## Draws -/

/-- A way to draw a value.  A draw that comes to a value has taken some words from the front, at
least one, and what follows them does not count. -/
structure Draw (α : Type) where
  /-- The value and the words left. -/
  run : List UInt64 → Option (α × List UInt64)
  front : ∀ ws x rest, run ws = some (x, rest) →
    ∃ us, us ≠ [] ∧ ws = us ++ rest ∧ ∀ vs, run (us ++ vs) = some (x, vs)

namespace Draw

variable {α : Type} {accepted : UInt64 → Bool} {w : UInt64} {ws rest : List UInt64} {x : α}

theorem length_lt (d : Draw α) (h : d.run ws = some (x, rest)) : rest.length < ws.length := by
  obtain ⟨us, hne, rfl, _⟩ := d.front ws x rest h
  have := List.length_pos_iff.2 hne
  rw [List.length_append]
  omega

theorem run_append (d : Draw α) (h : d.run ws = some (x, rest)) (vs : List UInt64) :
    d.run (ws ++ vs) = some (x, rest ++ vs) := by
  obtain ⟨us, _, rfl, hus⟩ := d.front ws x rest h
  rw [List.append_assoc, hus]

/-- Rejects words up to the first one that is accepted, and takes its value. -/
def rejecting (accepted : UInt64 → Bool) (value : UInt64 → α) : Draw α where
  run ws :=
    match ws.dropWhile fun w => !accepted w with
    | [] => none
    | w :: rest => some (value w, rest)
  front ws x rest h := by
    split at h
    · cases h
    · next w left hdrop =>
      cases h
      have hw : accepted w = true := by
        have := List.head?_dropWhile_not (fun w => !accepted w) ws
        rw [hdrop] at this
        simpa using this
      refine ⟨ws.takeWhile (fun w => !accepted w) ++ [w], by simp, ?_, fun vs => ?_⟩
      · rw [List.append_assoc]
        exact (hdrop ▸ List.takeWhile_append_dropWhile).symm
      · have hskip : ∀ v ∈ ws.takeWhile (fun w => !accepted w), (!accepted v) = true :=
          fun v hv => List.all_eq_true.1 List.all_takeWhile v hv
        rw [List.append_assoc, List.dropWhile_append_of_pos hskip]
        simp [hw]

theorem run_rejecting_cons {value : UInt64 → α} (h : accepted w = true) (ws : List UInt64) :
    (rejecting accepted value).run (w :: ws) = some (value w, ws) := by
  simp [rejecting, h]

end Draw

/-! ## Sources -/

/-- The letters of an interval. -/
abbrev Between (lo hi : Char) := { c : Char // lo ≤ c ∧ c ≤ hi }

/-- How numbers below a bound and letters of an interval are drawn. -/
structure Source where
  below (n : Nat) (positive : 0 < n) : Draw (Fin n)
  letter (lo hi : Char) (inOrder : lo ≤ hi) : Draw (Between lo hi)

/-- The number below `n` that a word is scaled to. -/
def scaleBelow (n : Nat) (positive : 0 < n) (w : UInt64) : Fin n :=
  ⟨w.toNat * n / UInt64.size,
    Nat.div_lt_of_lt_mul (Nat.mul_lt_mul_of_pos_right w.toNat_lt positive)⟩

/-- The largest low half that is accepted for a range of size `n`, for words of 64 bits. -/
def zoneBelow (n : Nat) : Nat := n <<< (63 - n.log2) - 1

/-- The distance from `lo` of the letter that the low 32 bits of a word are scaled to. -/
def scaledDistance (lo hi : Char) (w : UInt64) : Nat :=
  w.toNat % UInt32.size * Alphabet.count lo hi / UInt32.size

theorem scaledDistance_lt {lo hi : Char} (inOrder : lo ≤ hi) (w : UInt64) :
    scaledDistance lo hi w < Alphabet.count lo hi := by
  have hrank := Alphabet.rank_le_rank_iff.2 inOrder
  apply Nat.div_lt_of_lt_mul
  apply Nat.mul_lt_mul_of_pos_right (Nat.mod_lt _ (by decide))
  unfold Alphabet.count
  omega

/-- The letter from `lo` to `hi` that a word is scaled to. -/
def scaleBetween (lo hi : Char) (inOrder : lo ≤ hi) (w : UInt64) : Between lo hi :=
  ⟨Alphabet.ofRank (Alphabet.rank lo + scaledDistance lo hi w), by
    have hlt := scaledDistance_lt inOrder w
    have hsize := Alphabet.rank_lt_size hi
    unfold Alphabet.count at hlt
    rw [← Alphabet.rank_le_rank_iff, ← Alphabet.rank_le_rank_iff, Alphabet.rank_ofRank (by omega)]
    omega⟩

/-- The largest low half that is accepted for a range of size `n`, for words of 32 bits. -/
def zoneOfRange (n : Nat) : Nat := UInt32.size - 1 - (UInt32.size - n) % n

/-- The source that scales words to ranges. -/
def Source.scaling : Source where
  below n positive :=
    .rejecting (fun w => w.toNat * n % UInt64.size ≤ zoneBelow n) (scaleBelow n positive)
  letter lo hi inOrder :=
    .rejecting (fun w => w.toNat % UInt32.size * Alphabet.count lo hi % UInt32.size ≤
      zoneOfRange (Alphabet.count lo hi)) (scaleBetween lo hi inOrder)

end RegLang.Random
