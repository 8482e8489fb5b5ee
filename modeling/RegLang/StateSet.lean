import RegLang.Fault
import RegLang.Transition
/-!
# Sets of states

A set of small numbers kept as bits in blocks of 64, with the number of members beside them.  Its
capacity is fixed when it is made and rounded up to whole blocks; two sets are equal if they have as
many blocks and the same members.

The members are listed by an iteration that skips empty blocks and takes the lowest bit off the
first block that is not empty.

* `contains_eq_getLsbD`: the members are the bits that are set.
* `contains_add`: adding within the capacity adds that member and no other.
-/

namespace RegLang

/-- A row of 64 bits. -/
abbrev Block := BitVec 64

/-- A set of numbers: `i` is a member if bit `i % 64` of block `i / 64` is set. -/
structure StateSet where
  blocks : Array Block
  /-- The number of members. -/
  size : Nat
deriving DecidableEq

namespace StateSet

/-- The empty set for numbers below `n`. -/
def ofCapacity (n : Nat) : StateSet := ⟨.replicate ((n + 63) / 64) 0#64, 0⟩

/-- All members lie below this bound. -/
def capacity (s : StateSet) : Nat := 64 * s.blocks.size

def isEmpty (s : StateSet) : Bool := s.size = 0

/-- The block in which nothing but the bit of `i` is set. -/
def bit (i : Nat) : Block := .twoPow 64 (i % 64)

def contains (s : StateSet) (i : Nat) : Bool :=
  s.blocks[i / 64]?.any fun b => b &&& bit i ≠ 0#64

/-- The set with `i` added; a number beyond the capacity is left out. -/
def add (s : StateSet) (i : Nat) : StateSet :=
  if i < s.capacity && !s.contains i then
    ⟨s.blocks.modify (i / 64) (· ||| bit i), s.size + 1⟩
  else s

/-- The set with `i` added and whether it is new; a number beyond the capacity is a fault. -/
def insert (s : StateSet) (i : Nat) : Except Fault (Bool × StateSet) :=
  if i < s.capacity then .ok (!s.contains i, s.add i) else .error .outOfRange

/-- The set with `i` removed and whether it was there. -/
def erase (s : StateSet) (i : Nat) : Bool × StateSet :=
  if s.contains i then (true, ⟨s.blocks.modify (i / 64) (· &&& ~~~bit i), s.size - 1⟩)
  else (false, s)

/-- The empty set of the same capacity. -/
def clear (s : StateSet) : StateSet := ⟨s.blocks.map fun _ => 0#64, 0⟩

/-- The set with all of a list added in order, and the fault that stopped it, if one did; what
came before the fault stays in the set. -/
def extend (s : StateSet) : List Nat → StateSet × Option Fault
  | [] => (s, none)
  | i :: is =>
    match s.insert i with
    | .ok (_, s') => s'.extend is
    | .error e => (s, some e)

/-- The set with all of a list added. -/
def insertAll (s : StateSet) (is : List Nat) : Except Fault StateSet :=
  match s.extend is with
  | (s', none) => .ok s'
  | (_, some e) => .error e

/-! ## Iteration -/

/-- How far an iteration has come: what is left of the block at `index`, and the blocks behind. -/
structure Cursor where
  index : Nat
  rest : Block
  later : List Block

namespace Cursor

/-- The cursor at the first block that is not empty, or at the last one. -/
def skip : Nat → Block → List Block → Cursor
  | index, rest, [] => ⟨index, rest, []⟩
  | index, rest, b :: later =>
    if rest = 0#64 then skip (index + 1) b later else ⟨index, rest, b :: later⟩

/-- The number of the lowest bit of the block, and the cursor without that bit. -/
def pop (c : Cursor) : Nat × Cursor :=
  (64 * c.index + c.rest.ctz.toNat, { c with rest := c.rest &&& (c.rest - 1#64) })

/-- The next member and the cursor behind it, if there is one. -/
def next? (c : Cursor) : Option (Nat × Cursor) :=
  let c := skip c.index c.rest c.later
  if c.rest = 0#64 then none else some c.pop

/-- At most `n` members that are still to come. -/
def list : Nat → Cursor → List Nat
  | 0, _ => []
  | n + 1, c =>
    match c.next? with
    | none => []
    | some (i, c) => i :: list n c

end Cursor

/-- The cursor before all members. -/
def start (s : StateSet) : Cursor := ⟨0, s.blocks.getD 0 0#64, s.blocks.toList.tail⟩

/-- The members in ascending order.  There are no more of them than the capacity. -/
def toList (s : StateSet) : List Nat := s.start.list s.capacity

/-! ## Lemmas -/

theorem getLsbD_bit (i j : Nat) : (bit i).getLsbD j = decide (i % 64 = j) := by
  have hi : i % 64 < 64 := Nat.mod_lt i (by decide)
  rw [bit, BitVec.getLsbD_twoPow, decide_eq_true hi, Bool.true_and]

theorem and_bit_ne_zero_iff {b : Block} {i : Nat} :
    b &&& bit i ≠ 0#64 ↔ b.getLsbD (i % 64) = true := by
  have hand : ∀ j, (b &&& bit i).getLsbD j = (b.getLsbD j && decide (i % 64 = j)) := fun j => by
    rw [BitVec.getLsbD_and, getLsbD_bit]
  constructor
  · intro hne
    refine Decidable.byContradiction fun hb => hne (BitVec.eq_of_getLsbD_eq fun j _ => ?_)
    rw [hand, BitVec.getLsbD_zero]
    by_cases hj : i % 64 = j
    · rw [← hj, Bool.eq_false_iff.2 hb, Bool.false_and]
    · rw [decide_eq_false hj, Bool.and_false]
  · intro hb hzero
    have hset := hand (i % 64)
    rw [hzero, hb, BitVec.getLsbD_zero, decide_eq_true rfl] at hset
    cases hset

/-- The members are the bits that are set. -/
theorem contains_eq_getLsbD (s : StateSet) (i : Nat) :
    s.contains i = (s.blocks.getD (i / 64) 0#64).getLsbD (i % 64) := by
  rw [contains, Array.getD_eq_getD_getElem?]
  cases s.blocks[i / 64]? with
  | none => exact BitVec.getLsbD_zero.symm
  | some b =>
    rw [Option.any_some, Option.getD_some, Bool.eq_iff_iff, decide_eq_true_iff]
    exact and_bit_ne_zero_iff

theorem lt_capacity_iff {s : StateSet} {i : Nat} : i < s.capacity ↔ i / 64 < s.blocks.size := by
  unfold capacity
  omega

theorem lt_capacity_of_contains {s : StateSet} {i : Nat} (h : s.contains i = true) :
    i < s.capacity := by
  rw [contains, Option.any_eq_true] at h
  obtain ⟨b, hb, _⟩ := h
  exact lt_capacity_iff.2 (Array.getElem?_eq_some_iff.1 hb).1

@[simp] theorem capacity_add (s : StateSet) (i : Nat) : (s.add i).capacity = s.capacity := by
  unfold add
  split
  · simp [capacity]
  · rfl

@[simp] theorem capacity_erase (s : StateSet) (i : Nat) :
    (s.erase i).2.capacity = s.capacity := by
  unfold erase
  split
  · simp [capacity]
  · rfl

@[simp] theorem capacity_clear (s : StateSet) : s.clear.capacity = s.capacity := by
  simp [clear, capacity]

theorem le_capacity_ofCapacity (n : Nat) : n ≤ (ofCapacity n).capacity := by
  simp only [capacity, ofCapacity, Array.size_replicate]
  omega

theorem not_contains_ofCapacity (n i : Nat) : (ofCapacity n).contains i = false := by
  rw [contains_eq_getLsbD, ofCapacity, Array.getD_eq_getD_getElem?, Array.getElem?_replicate]
  split <;> exact BitVec.getLsbD_zero

theorem not_contains_clear (s : StateSet) (i : Nat) : s.clear.contains i = false := by
  rw [contains_eq_getLsbD, clear, Array.getD_eq_getD_getElem?, Array.getElem?_map]
  cases s.blocks[i / 64]? <;> exact BitVec.getLsbD_zero

/-- A change of one block concerns the numbers of that block alone. -/
theorem contains_modify {s : StateSet} {i : Nat} (h : i < s.capacity) (f : Block → Block)
    (n j : Nat) : contains ⟨s.blocks.modify (i / 64) f, n⟩ j =
      if i / 64 = j / 64 then (f (s.blocks.getD (i / 64) 0#64)).getLsbD (j % 64)
      else s.contains j := by
  have hblock := Array.getElem?_eq_getElem (lt_capacity_iff.1 h)
  rw [contains_eq_getLsbD, contains_eq_getLsbD, Array.getD_eq_getD_getElem?,
    Array.getElem?_modify]
  split
  · next hij =>
    rw [← hij, Array.getD_eq_getD_getElem?, hblock]
    rfl
  · rw [Array.getD_eq_getD_getElem?]

theorem contains_add {s : StateSet} {i j : Nat} (h : i < s.capacity) :
    (s.add i).contains j = (s.contains j || decide (j = i)) := by
  by_cases hi : s.contains i = true
  · have hsame : s.add i = s := by simp [add, hi]
    by_cases hj : j = i
    · rw [hsame, hj, hi, Bool.true_or]
    · rw [hsame, decide_eq_false hj, Bool.or_false]
  · have hadd : s.add i = ⟨s.blocks.modify (i / 64) (· ||| bit i), s.size + 1⟩ :=
      if_pos (by simp [h, hi])
    rw [hadd, contains_modify h]
    split
    · next hij =>
      have hbit : i % 64 = j % 64 ↔ j = i := by omega
      rw [BitVec.getLsbD_or, getLsbD_bit, contains_eq_getLsbD s j, hij]
      simp only [hbit]
    · next hij =>
      have hj : j ≠ i := fun he => hij (he ▸ rfl)
      rw [decide_eq_false hj, Bool.or_false]

theorem contains_erase {s : StateSet} {i j : Nat} :
    (s.erase i).2.contains j = (s.contains j && decide (j ≠ i)) := by
  by_cases hi : s.contains i = true
  · have herase : (s.erase i).2 = ⟨s.blocks.modify (i / 64) (· &&& ~~~bit i), s.size - 1⟩ := by
      rw [erase, if_pos hi]
    rw [herase, contains_modify (lt_capacity_of_contains hi)]
    split
    · next hij =>
      have hlt : j % 64 < 64 := Nat.mod_lt j (by decide)
      have hbit : i % 64 = j % 64 ↔ j = i := by omega
      rw [BitVec.getLsbD_and, BitVec.getLsbD_not, getLsbD_bit, contains_eq_getLsbD s j, hij]
      simp [hbit, hlt]
    · next hij =>
      have hj : j ≠ i := fun he => hij (he ▸ rfl)
      rw [decide_eq_true hj, Bool.and_true]
  · have hsame : (s.erase i).2 = s := by rw [erase, if_neg hi]
    by_cases hj : j = i
    · rw [hsame, hj, Bool.eq_false_iff.2 hi, Bool.false_and]
    · rw [hsame, decide_eq_true hj, Bool.and_true]

end StateSet

end RegLang
