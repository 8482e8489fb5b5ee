import Mathlib.Data.Nat.Bitwise
import RegLang.StateSet
/-!
# Iterating over a set

An iteration over a set skips the empty blocks and takes the lowest bit off the first block that is
not empty.  Every step gives the least number that is ahead and leaves the others ahead, so all
members are met once and in ascending order, and the iteration ends when none is left.

    c.next? = some (i, d) → (d.Ahead j ↔ c.Ahead j ∧ i < j)                 (next?_eq_some)

* `getLsbD_and_sub_one`: a block without its lowest bit.
* `Yields.pairwise`, `Yields.mem_iff`: what an iteration gives.
* `yields_toList`: the list of members is what the iteration gives.
-/

namespace RegLang.StateSet

/-! ## Lowest bits -/

/-- A block without its lowest bit is a multiple of twice that bit. -/
theorem exists_toNat_eq {b : Block} (h : b ≠ 0#64) :
    ∃ q, b.toNat = 2 ^ (b.ctz.toNat + 1) * q + 2 ^ b.ctz.toNat := by
  have hlow : b.toNat % 2 ^ (b.ctz.toNat + 1) = 2 ^ b.ctz.toNat := by
    refine Nat.eq_of_testBit_eq fun j => ?_
    rw [Nat.testBit_mod_two_pow, Nat.testBit_two_pow]
    rcases Nat.lt_trichotomy j b.ctz.toNat with hj | hj | hj
    · have hclear : b.toNat.testBit j = false := BitVec.getLsbD_false_of_lt_ctz hj
      rw [hclear, Bool.and_false, decide_eq_false (Nat.ne_of_gt hj)]
    · have hset : b.toNat.testBit b.ctz.toNat = true := BitVec.getLsbD_true_ctz_of_ne_zero h
      rw [hj, hset, decide_eq_true (Nat.lt_succ_self _), decide_eq_true rfl, Bool.and_self]
    · rw [decide_eq_false (Nat.not_lt.2 hj), Bool.false_and, decide_eq_false (Nat.ne_of_lt hj)]
  have hsum := Nat.div_add_mod b.toNat (2 ^ (b.ctz.toNat + 1))
  rw [hlow] at hsum
  exact ⟨_, hsum.symm⟩

/-- Taking away `1` clears the lowest bit and leaves the bits above it as they are. -/
theorem getLsbD_and_sub_one {b : Block} (h : b ≠ 0#64) (j : Nat) :
    (b &&& (b - 1#64)).getLsbD j = (b.getLsbD j && decide (b.ctz.toNat < j)) := by
  obtain ⟨q, hq⟩ := exists_toNat_eq h
  have hpos := Nat.two_pow_pos b.ctz.toNat
  have hlt : 2 ^ b.ctz.toNat < 2 ^ (b.ctz.toNat + 1) :=
    Nat.pow_lt_pow_right (by decide) (Nat.lt_succ_self _)
  have hsub : (b - 1#64).toNat = 2 ^ (b.ctz.toNat + 1) * q + (2 ^ b.ctz.toNat - 1) := by
    rw [BitVec.toNat_sub_of_le (BitVec.le_def.2 (by rw [hq]; exact Nat.le_add_left_of_le hpos)), hq]
    exact Nat.add_sub_assoc hpos _
  rw [BitVec.getLsbD_and]
  rcases Nat.lt_trichotomy j b.ctz.toNat with hj | hj | hj
  · rw [BitVec.getLsbD_false_of_lt_ctz hj, Bool.false_and, Bool.false_and]
  · have hclear : (b - 1#64).getLsbD j = false := by
      rw [← BitVec.testBit_toNat, hsub, hj,
        Nat.testBit_two_pow_mul_add _ (Nat.lt_of_le_of_lt (Nat.sub_le _ _) hlt),
        if_pos (Nat.lt_succ_self _), Nat.testBit_two_pow_sub_one, decide_eq_false (Nat.lt_irrefl _)]
    rw [hclear, hj, decide_eq_false (Nat.lt_irrefl _)]
  · have hsame : (b - 1#64).getLsbD j = b.getLsbD j := by
      rw [← BitVec.testBit_toNat, ← BitVec.testBit_toNat, hsub, hq,
        Nat.testBit_two_pow_mul_add _ (Nat.lt_of_le_of_lt (Nat.sub_le _ _) hlt),
        Nat.testBit_two_pow_mul_add _ hlt, if_neg (Nat.not_lt.2 hj), if_neg (Nat.not_lt.2 hj)]
    rw [hsame, Bool.and_self, decide_eq_true hj, Bool.and_true]

/-! ## What is ahead -/

namespace Cursor

variable {c d : Cursor} {i : Nat} {is : List Nat}

/-- A member that an iteration has still to come to: in what is left of its block, or in a block
behind. -/
def Ahead (c : Cursor) (i : Nat) : Prop :=
  (i / 64 = c.index ∧ c.rest.getLsbD (i % 64) = true) ∨
    (c.index < i / 64 ∧ (c.later.getD (i / 64 - c.index - 1) 0#64).getLsbD (i % 64) = true)

/-- The blocks behind an empty one hold all that is ahead. -/
theorem ahead_zero_cons {index : Nat} {b : Block} {later : List Block} :
    Ahead ⟨index, 0#64, b :: later⟩ i ↔ Ahead ⟨index + 1, b, later⟩ i := by
  unfold Ahead
  dsimp only
  constructor
  · rintro (⟨-, hb⟩ | ⟨hlt, hb⟩)
    · rw [BitVec.getLsbD_zero] at hb
      cases hb
    · rcases Nat.lt_or_eq_of_le (Nat.succ_le_of_lt hlt) with hlt' | heq
      · have hsucc : i / 64 - index - 1 = i / 64 - (index + 1) - 1 + 1 := by omega
        rw [hsucc, List.getD_cons_succ] at hb
        exact .inr ⟨hlt', hb⟩
      · have hzero : i / 64 - index - 1 = 0 := by omega
        rw [hzero, List.getD_cons_zero] at hb
        exact .inl ⟨heq.symm, hb⟩
  · rintro (⟨heq, hb⟩ | ⟨hlt, hb⟩)
    · have hzero : i / 64 - index - 1 = 0 := by omega
      exact .inr ⟨by omega, by rw [hzero, List.getD_cons_zero]; exact hb⟩
    · have hsucc : i / 64 - index - 1 = i / 64 - (index + 1) - 1 + 1 := by omega
      exact .inr ⟨by omega, by rw [hsucc, List.getD_cons_succ]; exact hb⟩

/-- Nothing is left out where empty blocks are skipped. -/
theorem ahead_skip {index : Nat} {rest : Block} {later : List Block} :
    (skip index rest later).Ahead i ↔ Ahead ⟨index, rest, later⟩ i := by
  induction later generalizing index rest with
  | nil => exact Iff.rfl
  | cons b later ih =>
    unfold skip
    split
    · next hrest => rw [ih, hrest, ahead_zero_cons]
    · exact Iff.rfl

/-- An empty block is where the blocks end. -/
theorem later_skip {index : Nat} {rest : Block} {later : List Block}
    (h : (skip index rest later).rest = 0#64) : (skip index rest later).later = [] := by
  induction later generalizing index rest with
  | nil => rfl
  | cons b later ih =>
    unfold skip at h ⊢
    split
    · next hrest =>
      rw [if_pos hrest] at h
      exact ih h
    · next hrest =>
      rw [if_neg hrest] at h
      exact absurd h hrest

/-- Taking the lowest bit off gives the least number ahead and leaves the others. -/
theorem pop_spec (h : c.rest ≠ 0#64) : c.Ahead c.pop.1 ∧ (∀ j, c.Ahead j → c.pop.1 ≤ j) ∧
    ∀ j, c.pop.2.Ahead j ↔ c.Ahead j ∧ c.pop.1 < j := by
  have hbit := BitVec.getLsbD_true_ctz_of_ne_zero h
  have hlt := BitVec.lt_of_getLsbD hbit
  have hdiv : c.pop.1 / 64 = c.index := by
    rw [pop, Nat.mul_add_div (by decide), Nat.div_eq_of_lt hlt, Nat.add_zero]
  have hmod : c.pop.1 % 64 = c.rest.ctz.toNat := by
    rw [pop, Nat.mul_add_mod, Nat.mod_eq_of_lt hlt]
  -- in the block of the lowest bit the bits stand in the order of the numbers
  have horder : ∀ j, j / 64 = c.index → (c.pop.1 < j ↔ c.rest.ctz.toNat < j % 64) := by
    intro j hj
    omega
  have hafter : ∀ j, c.index < j / 64 → c.pop.1 < j := by
    intro j hj
    omega
  refine ⟨.inl ⟨hdiv, hmod ▸ hbit⟩, ?_, fun j => ?_⟩
  · rintro j (⟨hj, hb⟩ | ⟨hj, -⟩)
    · have hle : ¬ j % 64 < c.rest.ctz.toNat := fun hlow => by
        rw [BitVec.getLsbD_false_of_lt_ctz hlow] at hb
        cases hb
      omega
    · exact Nat.le_of_lt (hafter j hj)
  · show (_ ∧ (c.rest &&& (c.rest - 1#64)).getLsbD (j % 64) = true) ∨ _ ↔ _
    rw [getLsbD_and_sub_one h, Bool.and_eq_true, decide_eq_true_iff]
    unfold Ahead
    constructor
    · rintro (⟨hj, hb, hlow⟩ | ⟨hj, hb⟩)
      · exact ⟨.inl ⟨hj, hb⟩, (horder j hj).2 hlow⟩
      · exact ⟨.inr ⟨hj, hb⟩, hafter j hj⟩
    · rintro ⟨⟨hj, hb⟩ | ⟨hj, hb⟩, hlow⟩
      · exact .inl ⟨hj, hb, (horder j hj).1 hlow⟩
      · exact .inr ⟨hj, hb⟩

/-! ## Steps -/

/-- The iteration ends when nothing is ahead. -/
theorem next?_eq_none (h : c.next? = none) : ¬ c.Ahead i := by
  unfold next? at h
  dsimp only at h
  split at h
  · next hrest =>
    rw [← ahead_skip]
    rintro (⟨-, hb⟩ | ⟨-, hb⟩)
    · rw [hrest, BitVec.getLsbD_zero] at hb
      cases hb
    · rw [later_skip hrest, List.getD_nil, BitVec.getLsbD_zero] at hb
      cases hb
  · cases h

/-- A step gives the least number ahead and leaves the others ahead. -/
theorem next?_eq_some (h : c.next? = some (i, d)) :
    c.Ahead i ∧ (∀ j, c.Ahead j → i ≤ j) ∧ ∀ j, d.Ahead j ↔ c.Ahead j ∧ i < j := by
  unfold next? at h
  dsimp only at h
  split at h
  · cases h
  · next hrest =>
    have hspec := pop_spec hrest
    rw [Option.some.inj h] at hspec
    simpa only [ahead_skip] using hspec

/-! ## Whole iterations -/

/-- The numbers that an iteration gives before it ends. -/
inductive Yields : Cursor → List Nat → Prop
  | stop {c : Cursor} (ends : c.next? = none) : Yields c []
  | step {c d : Cursor} {i : Nat} {is : List Nat} (next : c.next? = some (i, d))
      (rest : Yields d is) : Yields c (i :: is)

theorem Yields.unique {js : List Nat} (h : c.Yields is) (h' : c.Yields js) : is = js := by
  induction h generalizing js with
  | stop ends =>
    cases h' with
    | stop => rfl
    | step next _ =>
      rw [ends] at next
      cases next
  | step next _ ih =>
    cases h' with
    | stop ends =>
      rw [next] at ends
      cases ends
    | step next' rest' =>
      rw [next] at next'
      cases next'
      rw [ih rest']

/-- All that is ahead is given, and nothing else. -/
theorem Yields.mem_iff (h : c.Yields is) : i ∈ is ↔ c.Ahead i := by
  induction h with
  | stop ends =>
    exact ⟨fun hi => absurd hi List.not_mem_nil, fun hi => absurd hi (next?_eq_none ends)⟩
  | step next _ ih =>
    obtain ⟨hfirst, hleast, hafter⟩ := next?_eq_some next
    rw [List.mem_cons, ih, hafter]
    constructor
    · rintro (rfl | ⟨hi, -⟩)
      · exact hfirst
      · exact hi
    · intro hi
      rcases Nat.lt_or_eq_of_le (hleast i hi) with hlt | heq
      · exact .inr ⟨hi, hlt⟩
      · exact .inl heq.symm

theorem Yields.pairwise (h : c.Yields is) : is.Pairwise (· < ·) := by
  induction h with
  | stop => exact List.Pairwise.nil
  | step next rest ih =>
    obtain ⟨-, -, hafter⟩ := next?_eq_some next
    exact List.pairwise_cons.2 ⟨fun j hj => ((hafter j).1 (rest.mem_iff.1 hj)).2, ih⟩

/-- As many steps as there are numbers between the bounds of what is ahead are enough to come to the
end. -/
theorem yields_list (low high : Nat) {n : Nat} (h : ∀ j, c.Ahead j → low ≤ j ∧ j < high)
    (hn : high ≤ low + n) : c.Yields (c.list n) := by
  induction n generalizing c low with
  | zero =>
    cases hc : c.next? with
    | none => exact .stop hc
    | some r =>
      obtain ⟨hlow, hhigh⟩ := h r.1 (next?_eq_some hc).1
      omega
  | succ n ih =>
    unfold list
    cases hc : c.next? with
    | none => exact .stop hc
    | some r =>
      obtain ⟨hfirst, -, hafter⟩ := next?_eq_some hc
      have hlow := (h r.1 hfirst).1
      refine .step hc (ih (r.1 + 1) (fun j hj => ?_) (by omega))
      obtain ⟨hj, hlt⟩ := (hafter j).1 hj
      exact ⟨hlt, (h j hj).2⟩

end Cursor

/-! ## The members of a set -/

variable {s : StateSet} {i : Nat}

/-- All members are ahead at the start. -/
theorem ahead_start : s.start.Ahead i ↔ s.contains i = true := by
  have htail : ∀ k, s.blocks.toList.tail.getD k 0#64 = s.blocks.getD (k + 1) 0#64 := fun k => by
    rw [List.getD_eq_getElem?_getD, List.getElem?_tail, Array.getElem?_toList,
      Array.getD_eq_getD_getElem?]
  rw [contains_eq_getLsbD]
  unfold Cursor.Ahead start
  dsimp only
  rw [htail, Nat.sub_zero]
  rcases Nat.eq_zero_or_pos (i / 64) with h | h
  · rw [h]
    exact ⟨fun hi => hi.elim And.right fun h' => absurd h'.1 (Nat.lt_irrefl 0),
      fun hi => .inl ⟨rfl, hi⟩⟩
  · rw [Nat.sub_add_cancel h]
    exact ⟨fun hi => hi.elim (fun h' => absurd h'.1 (Nat.ne_of_gt h)) And.right,
      fun hi => .inr ⟨h, hi⟩⟩

/-- The list of members is what the iteration gives until it ends. -/
theorem yields_toList (s : StateSet) : s.start.Yields s.toList :=
  Cursor.yields_list 0 s.capacity
    (fun _ hj => ⟨Nat.zero_le _, lt_capacity_of_contains (ahead_start.1 hj)⟩) (Nat.le_add_left _ _)

@[simp] theorem mem_toList : i ∈ s.toList ↔ s.contains i = true :=
  s.yields_toList.mem_iff.trans ahead_start

theorem pairwise_toList (s : StateSet) : s.toList.Pairwise (· < ·) := s.yields_toList.pairwise

end RegLang.StateSet
