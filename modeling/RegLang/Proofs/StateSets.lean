import Mathlib.Algebra.Group.Nat.Defs
import Mathlib.Data.Finset.Card
import Mathlib.Data.List.Sublists
import RegLang.Proofs.Cursors
/-!
# Sets of states and their members

A set made by adding members to an empty set is fixed by its capacity and its members, so equality
of sets is equality of members.

    ofList n xs = ofList n ys ↔ (∀ i < capacity, i ∈ xs ↔ i ∈ ys)      (ofList_eq_iff)
-/

namespace RegLang.StateSet

/-- The set of the members of a list, as far as the capacity for numbers below `n` goes. -/
def ofList (n : Nat) (xs : List Nat) : StateSet := xs.foldl add (ofCapacity n)

/-- The members as a finite set. -/
def members (s : StateSet) : Finset Nat := s.toList.toFinset

/-- The size is the number of members. -/
def Valid (s : StateSet) : Prop := s.size = s.members.card

/-! ## Members -/

theorem mem_members {s : StateSet} {i : Nat} : i ∈ s.members ↔ s.contains i = true := by
  rw [members, List.mem_toFinset, mem_toList]

theorem members_eq_empty {s : StateSet} (h : ∀ i, s.contains i = false) : s.members = ∅ := by
  refine Finset.eq_empty_of_forall_notMem fun i hi => ?_
  rw [mem_members, h] at hi
  cases hi

theorem members_add {s : StateSet} {i : Nat} (h : i < s.capacity) :
    (s.add i).members = s.members ∪ {i} := by
  ext j
  rw [mem_members, contains_add h, Finset.mem_union, mem_members, Finset.mem_singleton,
    Bool.or_eq_true, decide_eq_true_iff]

theorem members_erase (s : StateSet) (i : Nat) : (s.erase i).2.members = s.members.erase i := by
  ext j
  rw [mem_members, contains_erase, Finset.mem_erase, mem_members, Bool.and_eq_true,
    decide_eq_true_iff, and_comm]

theorem members_ofCapacity (n : Nat) : (ofCapacity n).members = ∅ :=
  members_eq_empty (not_contains_ofCapacity n)

theorem members_clear (s : StateSet) : s.clear.members = ∅ :=
  members_eq_empty (not_contains_clear s)

theorem add_of_not_lt {s : StateSet} {i : Nat} (h : ¬ i < s.capacity) : s.add i = s := by
  simp [add, h]

theorem add_of_contains {s : StateSet} {i : Nat} (h : s.contains i = true) : s.add i = s := by
  simp [add, h]

@[simp] theorem capacity_foldl_add (is : List Nat) (s : StateSet) :
    (is.foldl add s).capacity = s.capacity := by
  induction is generalizing s with
  | nil => rfl
  | cons i is ih => rw [List.foldl_cons, ih, capacity_add]

theorem contains_foldl_add {is : List Nat} {s : StateSet} {j : Nat} :
    (is.foldl add s).contains j = true ↔ s.contains j = true ∨ (j ∈ is ∧ j < s.capacity) := by
  induction is generalizing s with
  | nil => simp
  | cons i is ih =>
    rw [List.foldl_cons, ih, capacity_add, List.mem_cons]
    by_cases hi : i < s.capacity
    · rw [contains_add hi, Bool.or_eq_true, decide_eq_true_iff]
      constructor
      · rintro ((h | rfl) | ⟨h, hj⟩)
        · exact .inl h
        · exact .inr ⟨.inl rfl, hi⟩
        · exact .inr ⟨.inr h, hj⟩
      · rintro (h | ⟨rfl | h, hj⟩)
        · exact .inl (.inl h)
        · exact .inl (.inr rfl)
        · exact .inr ⟨h, hj⟩
    · rw [add_of_not_lt hi]
      constructor
      · rintro (h | ⟨h, hj⟩)
        · exact .inl h
        · exact .inr ⟨.inr h, hj⟩
      · rintro (h | ⟨rfl | h, hj⟩)
        · exact .inl h
        · exact absurd hj hi
        · exact .inr ⟨h, hj⟩

theorem mem_toList_ofList {n i : Nat} {xs : List Nat} :
    i ∈ (ofList n xs).toList ↔ i ∈ xs ∧ i < (ofCapacity n).capacity := by
  rw [mem_toList, ofList, contains_foldl_add, not_contains_ofCapacity]
  simp

/-- Members of three blocks, and a number beyond them. -/
example : (ofList 130 [128, 64, 192, 3, 63, 191]).toList = [3, 63, 64, 128, 191] := by
  decide +kernel

theorem mem_toList_ofList_of_lt {n : Nat} {xs : List Nat} (h : ∀ i ∈ xs, i < n) {i : Nat} :
    i ∈ (ofList n xs).toList ↔ i ∈ xs := by
  rw [mem_toList_ofList]
  exact ⟨And.left, fun hi => ⟨hi, Nat.lt_of_lt_of_le (h i hi) (le_capacity_ofCapacity n)⟩⟩

/-! ## Validity -/

theorem valid_ofCapacity (n : Nat) : (ofCapacity n).Valid := by
  rw [Valid, members_ofCapacity]
  rfl

theorem valid_clear (s : StateSet) : s.clear.Valid := by
  rw [Valid, members_clear]
  rfl

theorem Valid.add {s : StateSet} (h : s.Valid) (i : Nat) : (s.add i).Valid := by
  by_cases hi : i < s.capacity
  · by_cases hc : s.contains i = true
    · rw [add_of_contains hc]
      exact h
    · have hsize : (s.add i).size = s.size + 1 := by
        rw [StateSet.add, if_pos (by simp [hi, hc])]
      have hnew : Disjoint s.members {i} :=
        Finset.disjoint_singleton_right.2 fun hm => hc (mem_members.1 hm)
      rw [Valid, hsize, members_add hi, Finset.card_union_of_disjoint hnew, Finset.card_singleton,
        h]
  · rw [add_of_not_lt hi]
    exact h

theorem Valid.erase {s : StateSet} (h : s.Valid) (i : Nat) : (s.erase i).2.Valid := by
  by_cases hi : s.contains i = true
  · have hsize : (s.erase i).2.size = s.size - 1 := by rw [StateSet.erase, if_pos hi]
    rw [Valid, hsize, members_erase, Finset.card_erase_of_mem (mem_members.2 hi), h]
  · rw [StateSet.erase, if_neg hi]
    exact h

theorem Valid.foldl_add {s : StateSet} (h : s.Valid) (is : List Nat) :
    (is.foldl StateSet.add s).Valid := by
  induction is generalizing s with
  | nil => exact h
  | cons i is ih => exact ih (h.add i)

theorem valid_ofList (n : Nat) (xs : List Nat) : (ofList n xs).Valid :=
  (valid_ofCapacity n).foldl_add xs

/-- Sets with as many blocks and the same members have the same blocks. -/
theorem blocks_eq {s t : StateSet} (hb : s.blocks.size = t.blocks.size)
    (h : ∀ i, s.contains i = t.contains i) : s.blocks = t.blocks := by
  refine Array.ext hb fun k hs ht => BitVec.eq_of_getLsbD_eq fun j hj => ?_
  have hdiv : (64 * k + j) / 64 = k := by omega
  have hmod : (64 * k + j) % 64 = j := by omega
  have hbit := h (64 * k + j)
  rw [contains_eq_getLsbD, contains_eq_getLsbD, hdiv, hmod, Array.getD_eq_getD_getElem?,
    Array.getD_eq_getD_getElem?, Array.getElem?_eq_getElem hs, Array.getElem?_eq_getElem ht] at hbit
  exact hbit

/-- Valid sets with as many blocks and the same members are equal. -/
theorem Valid.ext {s t : StateSet} (hs : s.Valid) (ht : t.Valid)
    (hb : s.blocks.size = t.blocks.size) (h : ∀ i, s.contains i = t.contains i) : s = t := by
  have hmembers : s.members = t.members := by
    ext i
    rw [mem_members, mem_members, h]
  have hsize : s.size = t.size := by rw [hs, ht, hmembers]
  have hblocks := blocks_eq hb h
  cases s
  cases t
  exact congr (congrArg StateSet.mk hblocks) hsize

theorem size_blocks_ofList (n : Nat) (xs : List Nat) :
    (ofList n xs).blocks.size = (ofCapacity n).blocks.size := by
  have h : (ofList n xs).capacity = (ofCapacity n).capacity := capacity_foldl_add xs _
  unfold capacity at h
  omega

theorem ofList_eq_iff {n : Nat} {xs ys : List Nat} :
    ofList n xs = ofList n ys ↔ ∀ i < (ofCapacity n).capacity, i ∈ xs ↔ i ∈ ys := by
  constructor
  · intro h i hi
    have hx : i ∈ (ofList n xs).toList ↔ _ := mem_toList_ofList
    rw [h, mem_toList_ofList] at hx
    simpa [hi] using hx.symm
  · intro h
    apply (valid_ofList n xs).ext (valid_ofList n ys)
    · rw [size_blocks_ofList, size_blocks_ofList]
    · intro i
      rw [Bool.eq_iff_iff, ← mem_toList, ← mem_toList, mem_toList_ofList, mem_toList_ofList]
      constructor
      · rintro ⟨hm, hi⟩
        exact ⟨(h i hi).1 hm, hi⟩
      · rintro ⟨hm, hi⟩
        exact ⟨(h i hi).2 hm, hi⟩

theorem Valid.isEmpty_iff {s : StateSet} (h : s.Valid) : s.isEmpty = true ↔ s.toList = [] := by
  unfold isEmpty
  rw [decide_eq_true_iff, h, Finset.card_eq_zero, members, List.toFinset_eq_empty_iff]

/-! ## Insertion -/

theorem extend_of_lt {is : List Nat} {s : StateSet} (h : ∀ i ∈ is, i < s.capacity) :
    s.extend is = (is.foldl add s, none) := by
  induction is generalizing s with
  | nil => rfl
  | cons i is ih =>
    have hi : i < s.capacity := h i List.mem_cons_self
    unfold extend insert
    rw [if_pos hi]
    show (s.add i).extend is = _
    exact ih fun j hj => by rw [capacity_add]; exact h j (List.mem_cons_of_mem _ hj)

theorem insertAll_of_lt {is : List Nat} {s : StateSet} (h : ∀ i ∈ is, i < s.capacity) :
    s.insertAll is = .ok (is.foldl add s) := by
  unfold insertAll
  rw [extend_of_lt h]

/-! ## All sets of one capacity -/

/-- The sets of numbers within the capacity for numbers below `n`. -/
def all (n : Nat) : List StateSet :=
  (List.range (ofCapacity n).capacity).sublists.map (ofList n)

theorem length_all (n : Nat) : (all n).length = 1 <<< (ofCapacity n).capacity := by
  rw [all, List.length_map, List.length_sublists, List.length_range, Nat.one_shiftLeft]

theorem ofList_mem_all (n : Nat) (xs : List Nat) : ofList n xs ∈ all n := by
  apply List.mem_map.2
  refine ⟨(List.range (ofCapacity n).capacity).filter xs.contains,
    List.mem_sublists.2 List.filter_sublist, ofList_eq_iff.2 ?_⟩
  intro i hi
  simp [hi]

end RegLang.StateSet
