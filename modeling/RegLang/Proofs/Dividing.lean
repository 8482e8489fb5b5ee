import Mathlib.Algebra.BigOperators.Group.Finset.Basic
import RegLang.Minimize.Refinement
/-!
# Dividing blocks

One division of a block by a test, read off the partition before and after.  The work that is left
counts the splitters that wait and, for every division that can still come, as many again as there
are letters: a division uses up what it adds.

* `divide_cases`: a block is left alone if the test does not divide it, else it is divided.
* `work_divide`: dividing adds no work.
-/

namespace RegLang.Refinement

variable {columns : Array Column} {test : Nat → Bool} {p : Partition} {j : Nat}

/-- The members of a block agree on a test. -/
def Agree (test : Nat → Bool) (qs : List Nat) : Prop := ∀ r ∈ qs, ∀ s ∈ qs, test r = test s

/-- Block `j` of `p` is divided: what passes the test leaves as a new block, and each letter has
one of the parts for a splitter, both if the old block was one. -/
structure Divided (columns : Array Column) (test : Nat → Bool) (p : Partition) (j : Nat)
    (p' : Partition) : Prop where
  size_eq : p'.blocks.size = p.blocks.size + 1
  stay : p'.block j = (p.block j).filter fun q => !test q
  leave : p'.block p.blocks.size = (p.block j).filter test
  other : ∀ i, i ≠ j → i ≠ p.blocks.size → p'.block i = p.block i
  stay_ne : (p.block j).filter (fun q => !test q) ≠ []
  leave_ne : (p.block j).filter test ≠ []
  length_pending : p'.pending.length = p.pending.length + columns.size
  subset : p.pending ⊆ p'.pending
  one : ∀ x < columns.size, (j, x) ∈ p'.pending ∨ (p.blocks.size, x) ∈ p'.pending
  both : ∀ x < columns.size, (j, x) ∈ p.pending → (p.blocks.size, x) ∈ p'.pending

theorem choose_eq_or (pending : List (Nat × Nat)) (j k : Nat) (stay leave : List Nat) (x : Nat)
    (col : Column) : choose pending j k stay leave x col = (k, x) ∨
      (choose pending j k stay leave x col = (j, x) ∧ (j, x) ∉ pending) := by
  unfold choose
  dsimp only
  split
  · next h =>
    rw [Bool.and_eq_true, Bool.not_eq_true'] at h
    exact .inr ⟨rfl, by simpa using h.2⟩
  · exact .inl rfl

theorem lt_size_of_mem_block {q : Nat} (h : q ∈ p.block j) : j < p.blocks.size := by
  by_contra hlt
  simp [Partition.block, Array.getD, hlt] at h

/-- The partition with block `j` divided, whether or not the test divides it. -/
def parted (columns : Array Column) (test : Nat → Bool) (p : Partition) (j : Nat) : Partition :=
  let leave := (p.block j).filter test
  let stay := (p.block j).filter fun q => !test q
  { blocks := (p.blocks.setIfInBounds j stay).push leave
    pending := p.pending ++
      (columns.mapIdx fun x col => choose p.pending j p.blocks.size stay leave x col).toList }

theorem divide_eq (columns : Array Column) (test : Nat → Bool) (p : Partition) (j : Nat) :
    divide columns test p j =
      if (p.block j).filter test = [] ∨ (p.block j).filter (fun q => !test q) = [] then p
      else parted columns test p j := by
  unfold divide
  rw [List.partition_eq_filter_filter]
  show (if ((p.block j).filter test).isEmpty || ((p.block j).filter fun q => !test q).isEmpty then p
    else parted columns test p j) = _
  simp only [Bool.or_eq_true, List.isEmpty_iff]

/-- The splitter chosen for a letter waits. -/
theorem exists_choose_mem (columns : Array Column) (test : Nat → Bool) (p : Partition) (j : Nat)
    {x : Nat} (hx : x < columns.size) : (p.blocks.size, x) ∈ (parted columns test p j).pending ∨
      ((j, x) ∈ (parted columns test p j).pending ∧ (j, x) ∉ p.pending) := by
  have hmem : choose p.pending j p.blocks.size ((p.block j).filter fun q => !test q)
      ((p.block j).filter test) x columns[x] ∈ (parted columns test p j).pending := by
    apply List.mem_append_right
    rw [Array.mem_toList_iff, Array.mem_mapIdx]
    exact ⟨x, hx, rfl⟩
  rcases choose_eq_or p.pending j p.blocks.size ((p.block j).filter fun q => !test q)
    ((p.block j).filter test) x columns[x] with h | ⟨h, hnot⟩
  · rw [h] at hmem
    exact .inl hmem
  · rw [h] at hmem
    exact .inr ⟨hmem, hnot⟩

theorem divided_parted (h : (p.block j).filter test ≠ [])
    (h' : (p.block j).filter (fun q => !test q) ≠ []) :
    Divided columns test p j (parted columns test p j) := by
  obtain ⟨q, hq⟩ := List.exists_mem_of_ne_nil _ h
  have hj : j < p.blocks.size := lt_size_of_mem_block (List.mem_filter.1 hq).1
  refine ⟨?_, ?_, ?_, ?_, h', h, ?_, ?_, ?_, ?_⟩
  · simp [parted]
  · simp [parted, Partition.block, Array.getD, hj, Nat.lt_succ_of_lt hj, Array.getElem_push]
  · show ((p.blocks.setIfInBounds j _).push _).getD p.blocks.size [] = _
    rw [Array.getD_eq_getD_getElem?, Array.getElem?_push, Array.size_setIfInBounds, if_pos rfl]
    rfl
  · intro i hi hik
    by_cases hlt : i < p.blocks.size
    · simp [parted, Partition.block, Array.getD, hlt, Nat.lt_succ_of_lt hlt, Array.getElem_push,
        hi.symm]
    · have hlt' : ¬ i < p.blocks.size + 1 := by omega
      simp [parted, Partition.block, Array.getD, hlt, hlt']
  · simp [parted]
  · intro e he
    exact List.mem_append_left _ he
  · intro x hx
    exact (exists_choose_mem columns test p j hx).symm.imp_left And.left
  · intro x hx hin
    exact (exists_choose_mem columns test p j hx).resolve_right fun h => h.2 hin

/-- What dividing a block does. -/
theorem divide_cases (columns : Array Column) (test : Nat → Bool) (p : Partition) (j : Nat) :
    (divide columns test p j = p ∧ Agree test (p.block j)) ∨
      Divided columns test p j (divide columns test p j) := by
  rw [divide_eq]
  by_cases h : (p.block j).filter test = [] ∨ (p.block j).filter (fun q => !test q) = []
  · rw [if_pos h]
    refine .inl ⟨rfl, fun r hr s hs => ?_⟩
    rw [List.filter_eq_nil_iff, List.filter_eq_nil_iff] at h
    rcases h with h | h
    · rw [Bool.eq_false_iff.2 (h r hr), Bool.eq_false_iff.2 (h s hs)]
    · have h1 := h r hr
      have h2 := h s hs
      simp only [Bool.not_eq_true', Bool.not_eq_false] at h1 h2
      rw [h1, h2]
  · rw [if_neg h]
    rw [not_or] at h
    exact .inr (divided_parted h.1 h.2)

/-! ## Work -/

/-- How often the blocks can still be divided, at most. -/
def slack (p : Partition) : Nat :=
  ∑ i ∈ Finset.range p.blocks.size, ((p.block i).length - 1)

/-- The splitters that wait and those that divisions can still bring. -/
def work (columns : Array Column) (p : Partition) : Nat :=
  p.pending.length + columns.size * slack p

theorem Divided.slack_eq {p' : Partition} (h : Divided columns test p j p') :
    slack p' + 1 = slack p := by
  obtain ⟨q, hq⟩ := List.exists_mem_of_ne_nil _ h.leave_ne
  have hj : j < p.blocks.size := lt_size_of_mem_block (List.mem_filter.1 hq).1
  have hmem : j ∈ Finset.range p.blocks.size := Finset.mem_range.2 hj
  have hstay := List.length_pos_iff.2 h.stay_ne
  have hleave := List.length_pos_iff.2 h.leave_ne
  have hrest : ∑ i ∈ (Finset.range p.blocks.size).erase j, ((p'.block i).length - 1) =
      ∑ i ∈ (Finset.range p.blocks.size).erase j, ((p.block i).length - 1) := by
    apply Finset.sum_congr rfl
    intro i hi
    obtain ⟨hne, hi⟩ := Finset.mem_erase.1 hi
    rw [h.other i hne (Nat.ne_of_lt (Finset.mem_range.1 hi))]
  have hlen : (p.block j).length =
      ((p.block j).filter test).length + ((p.block j).filter fun q => !test q).length :=
    List.length_eq_length_filter_add test
  unfold slack
  rw [h.size_eq, Finset.sum_range_succ, ← Finset.add_sum_erase _ _ hmem,
    ← Finset.add_sum_erase _ (fun i => (p.block i).length - 1) hmem, hrest, h.stay, h.leave, hlen]
  omega

theorem Divided.work_eq {p' : Partition} (h : Divided columns test p j p') :
    work columns p' = work columns p := by
  unfold work
  rw [h.length_pending, ← h.slack_eq, Nat.mul_succ]
  omega

/-- Dividing adds no work. -/
theorem work_divide (columns : Array Column) (test : Nat → Bool) (p : Partition) (j : Nat) :
    work columns (divide columns test p j) = work columns p := by
  rcases divide_cases columns test p j with ⟨h, _⟩ | h
  · rw [h]
  · exact h.work_eq

theorem work_foldl_divide (columns : Array Column) (test : Nat → Bool) (js : List Nat)
    (p : Partition) : work columns (js.foldl (divide columns test) p) = work columns p := by
  induction js generalizing p with
  | nil => rfl
  | cons j js ih => exact (ih _).trans (work_divide columns test p j)

theorem work_splitBy (columns : Array Column) (p : Partition) (b x : Nat) :
    work columns (splitBy columns p b x) = work columns p := by
  unfold splitBy
  split
  · rfl
  · exact work_foldl_divide columns _ _ p

/-! ## Divisions of other blocks -/

/-- Dividing other blocks leaves a block as it is. -/
theorem block_foldl_divide (columns : Array Column) (test : Nat → Bool) {js : List Nat}
    (hj : j ∉ js) (hlt : j < p.blocks.size) :
    (js.foldl (divide columns test) p).block j = p.block j ∧
      p.blocks.size ≤ (js.foldl (divide columns test) p).blocks.size := by
  induction js generalizing p with
  | nil => exact ⟨rfl, Nat.le_refl _⟩
  | cons i js ih =>
    obtain ⟨hji, hjs⟩ := not_or.1 fun hm => hj (List.mem_cons.2 hm)
    rcases divide_cases columns test p i with ⟨he, -⟩ | hd
    · rw [List.foldl_cons, he]
      exact ih hjs hlt
    · have hgrow : p.blocks.size < (divide columns test p i).blocks.size := by
        rw [hd.size_eq]
        exact Nat.lt_succ_self _
      obtain ⟨hblock, hsize⟩ := ih hjs (Nat.lt_trans hlt hgrow)
      rw [List.foldl_cons, hblock, hd.other j hji (Nat.ne_of_lt hlt)]
      exact ⟨rfl, Nat.le_trans (Nat.le_of_lt hgrow) hsize⟩

end RegLang.Refinement
