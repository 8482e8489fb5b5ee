import RegLang.Proofs.Refining
import RegLang.Result
import RegLang.Semantics.Minimizing
/-!
# Classes by refinement

The columns of a prepared graph exist, and one letter for each class of letters is enough.  So
refinement ends with the blocks of states that accept the same words, and the blocks are numbered
in the order in which the states meet them.

* `refined`: refinement ends with no splitter left.
* `exists_partition`: it ends with those blocks.
* `faithful_classes`: the classes made from them.
-/

namespace RegLang.Refinement

open RegLang.Graph (Alike)

variable {t : Graph} {p : Partition} {i j k q r s x : Nat}

/-! ## Columns of a prepared graph -/

/-- The steps of all states on a letter. -/
def stepsOn (t : Graph) (c : Char) : List Nat :=
  (List.range t.size).map fun q => ((t.state q).step c).getD 0

/-- The column of a letter. -/
def columnOf (t : Graph) (c : Char) : Column :=
  ⟨(stepsOn t c).toArray, (stepsOn t c).foldl StateSet.add (.ofCapacity t.size)⟩

theorem step_mem_stepAll (ht : t.Prepared) (hq : q < t.size) (c : Char) :
    ∃ p, (t.state q).step c = some p ∧ p ∈ (t.state q).stepAll c := by
  obtain ⟨p, hp⟩ := ht.total q hq c
  exact ⟨p, (ht.disjoint hq).step_eq_some_iff.2 hp, hp⟩

theorem column_eq_ok (ht : t.Prepared) (c : Char) : column t c = .ok (columnOf t c) := by
  have hsteps : (List.range t.size).mapM (stepTo t c) = .ok (stepsOn t c) := by
    apply mapM_eq_ok
    intro q hq
    obtain ⟨p, hp, _⟩ := step_mem_stepAll ht (List.mem_range.1 hq) c
    rw [stepTo, hp]
    rfl
  rw [column, hsteps]
  rfl

/-- The columns of the first letters of all classes. -/
def columns (t : Graph) : Array Column := (t.startPoints.map (columnOf t)).toArray

theorem size_columns (t : Graph) : (columns t).size = t.startPoints.length := by
  simp [columns]

theorem mapM_column (ht : t.Prepared) :
    t.startPoints.mapM (column t) = .ok (t.startPoints.map (columnOf t)) :=
  mapM_eq_ok fun c _ => column_eq_ok ht c

theorem stepOf_columns {c : Char} (hx : t.startPoints[x]? = some c) (hq : q < t.size) :
    stepOf (columns t) x q = ((t.state q).step c).getD 0 := by
  have hcol : (columns t)[x]? = some (columnOf t c) := by
    simp [columns, hx]
  rw [stepOf, hcol]
  simp [columnOf, stepsOn, Array.getD, hq]

theorem stepOf_mem_stepAll (ht : t.Prepared) {c : Char} (hx : t.startPoints[x]? = some c)
    (hq : q < t.size) : stepOf (columns t) x q ∈ (t.state q).stepAll c := by
  obtain ⟨p, hp, hmem⟩ := step_mem_stepAll ht hq c
  rw [stepOf_columns hx hq, hp]
  exact hmem

/-- All letters of a class have the same steps. -/
theorem stepAll_eq_of_class (ht : t.Prepared) {e : Char × Char}
    (he : e ∈ Graph.classes t.startPoints) {c : Char} (hc : e.1 ≤ c ∧ c ≤ e.2) (hq : q < t.size) :
    (t.state q).stepAll c = (t.state q).stepAll e.1 := by
  unfold State.stepAll
  rw [List.filter_congr]
  intro u hu
  rw [Bool.eq_iff_iff]
  exact Graph.class_uniform t.pairwise_startPoints he
    (ht.wellFormed.surveyed.cut q (ht.reachable q hq) u hu) hc

theorem tabled_columns (ht : t.Prepared) : Tabled t (columns t) where
  size_eq x col hx := by
    simp only [columns, List.getElem?_toArray, List.getElem?_map, Option.map_eq_some_iff] at hx
    obtain ⟨c, _, rfl⟩ := hx
    simp [columnOf, stepsOn]
  exists_letter x hx := by
    have hx' : x < t.startPoints.length := size_columns t ▸ hx
    exact ⟨t.startPoints[x], fun q hq =>
      stepOf_mem_stepAll ht (List.getElem?_eq_getElem hx') hq⟩
  exists_column c := by
    obtain ⟨e, he, hc⟩ := Graph.exists_class t.pairwise_startPoints (c := c)
      ⟨Alphabet.first, t.first_mem_startPoints, Alphabet.first_le c⟩
    obtain ⟨x, hx, hxe⟩ := List.getElem_of_mem (Graph.class_bounds t.pairwise_startPoints he).1
    refine ⟨x, by simpa [columns] using hx, fun q hq => ?_⟩
    rw [stepAll_eq_of_class ht he hc hq]
    exact stepOf_mem_stepAll ht (by rw [List.getElem?_eq_getElem hx, hxe]) hq

/-! ## The start -/

theorem mem_block_start {columns : Array Column} : q ∈ (start t columns).block j ↔
    q < t.size ∧ (j = 0 ∧ (t.state q).accept = true ∨ j = 1 ∧ (t.state q).accept = false) := by
  unfold start
  rw [List.partition_eq_filter_filter]
  match j with
  | 0 => simp [Partition.block]
  | 1 => simp [Partition.block]
  | j + 2 => simp [Partition.block]

theorem refining_start (t : Graph) (columns : Array Column) :
    Refining t columns noTest (start t columns) where
  exists_block q hq := by
    cases ha : (t.state q).accept with
    | true => exact ⟨0, mem_block_start.2 ⟨hq, .inl ⟨rfl, ha⟩⟩⟩
    | false => exact ⟨1, mem_block_start.2 ⟨hq, .inr ⟨rfl, ha⟩⟩⟩
  unique i j q hi hj := by
    have hi := (mem_block_start.1 hi).2
    have hj := (mem_block_start.1 hj).2
    cases ha : (t.state q).accept with
    | true => simp_all
    | false => simp_all
  lt j q hq := (mem_block_start.1 hq).1
  accept j r hr s hs := by
    rcases (mem_block_start.1 hr).2 with ⟨rfl, h1⟩ | ⟨rfl, h1⟩ <;>
      rcases (mem_block_start.1 hs).2 with ⟨h, h2⟩ | ⟨h, h2⟩
    · rw [h1, h2]
    · cases h
    · cases h
    · rw [h1, h2]
  coarse j r hr s hs hrs := by
    obtain ⟨_, hr⟩ := mem_block_start.1 hr
    rw [Graph.Prepared.accept_eq hrs] at hr
    exact mem_block_start.2 ⟨hs, hr⟩
  waits i r _ s _ x hx j k hj hk hne := by
    have hmem : (0, x) ∈ (start t columns).pending ∨ (1, x) ∈ (start t columns).pending := by
      unfold start
      simp only [Array.mem_toList_iff, Array.mem_mapIdx]
      by_cases h : columns[x].active ((List.range t.size).partition fun q =>
          (t.state q).accept).1 ≤ columns[x].active ((List.range t.size).partition fun q =>
            (t.state q).accept).2
      · exact .inl ⟨x, hx, by rw [if_pos h]⟩
      · exact .inr ⟨x, hx, by rw [if_neg h]⟩
    rcases (mem_block_start.1 hj).2 with ⟨rfl, _⟩ | ⟨rfl, _⟩ <;>
      rcases (mem_block_start.1 hk).2 with ⟨rfl, _⟩ | ⟨rfl, _⟩
    · exact absurd rfl hne
    · exact hmem.imp_right Or.inl
    · exact hmem.symm.imp_right Or.inl
    · exact absurd rfl hne

theorem work_start_le (t : Graph) (columns : Array Column) :
    work columns (start t columns) ≤ columns.size * (t.size + 1) := by
  have hlen : ((List.range t.size).filter fun q => (t.state q).accept).length +
      ((List.range t.size).filter fun q => !(t.state q).accept).length = t.size := by
    rw [← List.length_eq_length_filter_add, List.length_range]
  have hslack : slack (start t columns) ≤ t.size := by
    unfold slack start
    rw [List.partition_eq_filter_filter]
    show ∑ i ∈ Finset.range 2, _ ≤ _
    rw [Finset.sum_range_succ, Finset.sum_range_one]
    show ((List.range t.size).filter fun q => (t.state q).accept).length - 1 +
      (((List.range t.size).filter fun q => !(t.state q).accept).length - 1) ≤ t.size
    omega
  have hpending : (start t columns).pending.length = columns.size := by
    simp [start]
  unfold work
  rw [hpending, Nat.mul_succ, Nat.add_comm]
  exact Nat.add_le_add_right (Nat.mul_le_mul_left _ hslack) _

/-! ## The end -/

/-- When no splitter waits, states of one block accept the same words. -/
theorem Refining.mem_block_iff {columns : Array Column} (hc : Tabled t columns) (ht : t.Prepared)
    (h : Refining t columns noTest p) (hp : p.pending = []) (hr : r ∈ p.block j) (hs : s < t.size) :
    s ∈ p.block j ↔ Alike t t r s := by
  refine ⟨fun hmem => ?_, h.coarse j r hr s hs⟩
  apply ht.alike_of_respects (R := fun r s => ∃ j, r ∈ p.block j ∧ s ∈ p.block j) ?_ ?_
    (h.lt j r hr) hs ⟨j, hr, hmem⟩
  · rintro r s ⟨j, hr, hs⟩
    exact h.accept j r hr s hs
  · rintro r s ⟨j, hr, hs⟩ c r' s' hr' hs'
    obtain ⟨x, hx, hstep⟩ := hc.exists_column c
    have hr1 : stepOf columns x r = r' :=
      (ht.disjoint (h.lt j r hr)).stepAll_unique (hstep r (h.lt j r hr)) hr'
    have hs1 : stepOf columns x s = s' :=
      (ht.disjoint (h.lt j s hs)).stepAll_unique (hstep s (h.lt j s hs)) hs'
    obtain ⟨a, ha⟩ := h.exists_block _ (ht.lt_of_mem_stepAll (h.lt j r hr) hr')
    obtain ⟨b, hb⟩ := h.exists_block _ (ht.lt_of_mem_stepAll (h.lt j s hs) hs')
    have hab : a = b := by
      by_contra hne
      have hw := h.waits j r hr s hs x hx a b (hr1 ▸ ha) (hs1 ▸ hb) hne
      rw [hp] at hw
      simp [noTest] at hw
    exact ⟨a, ha, hab ▸ hb⟩

/-- The blocks in the end. -/
def blocksOf (t : Graph) : Partition :=
  refine (columns t) (t.startPoints.length * (t.size + 1)) (start t (columns t))

theorem partition_eq_ok (ht : t.Prepared) : partition t = .ok (blocksOf t) := by
  rw [partition, mapM_column ht]
  show Except.ok (refine (columns t) ((t.startPoints.map (columnOf t)).length * (t.size + 1)) _) = _
  rw [List.length_map]
  rfl

theorem refined (ht : t.Prepared) :
    Refining t (columns t) noTest (blocksOf t) ∧ (blocksOf t).pending = [] := by
  have hwork := work_start_le t (columns t)
  rw [size_columns] at hwork
  exact (refining_start t (columns t)).refine (tabled_columns ht) ht _ hwork

/-- Splitters are worked off for as long as one waits. -/
theorem ends_refine {columns : Array Column} (fuel : Nat)
    (h : (refine columns fuel p).pending = []) :
    Loop.Ends (turn columns) p (refine columns fuel p) := by
  induction fuel generalizing p with
  | zero =>
    have hp : p.pending = [] := h
    exact .done (by rw [turn, hp])
  | succ fuel ih =>
    obtain ⟨blocks, _ | ⟨⟨b, x⟩, rest⟩⟩ := p
    · exact .done rfl
    · exact .next rfl (ih h)

/-- Refinement ends, and its blocks hold together what accepts the same words. -/
theorem exists_partition (ht : t.Prepared) : ∃ p, partition t = .ok p ∧
    (∀ q < t.size, ∃ j, q ∈ p.block j) ∧ (∀ i j q, q ∈ p.block i → q ∈ p.block j → i = j) ∧
    ∀ j, ∀ r ∈ p.block j, ∀ s < t.size, s ∈ p.block j ↔ Alike t t r s := by
  obtain ⟨h, hp⟩ := refined ht
  exact ⟨_, partition_eq_ok ht, h.exists_block, h.unique, fun j r hr s hs =>
    h.mem_block_iff (tabled_columns ht) ht hp hr hs⟩

/-! ## Classes -/

/-- Before the first of equal members come members that are met earlier. -/
theorem exists_idxOf_eraseDups (l : List Nat) {x c i : Nat} (hx : l[i]? = some x)
    (hc : c < l.eraseDups.idxOf x) : ∃ j < i, ∃ y, l[j]? = some y ∧ l.eraseDups.idxOf y = c := by
  obtain ⟨hi, rfl⟩ := List.getElem?_eq_some_iff.1 hx
  have hsplit : l.eraseDups =
      (l.take i).eraseDups ++ ((l.drop i).removeAll (l.take i)).eraseDups := by
    conv_lhs => rw [← List.take_append_drop i l]
    exact List.eraseDups_append
  have hle : l.eraseDups.idxOf l[i] ≤ (l.take i).eraseDups.length := by
    rw [hsplit]
    by_cases hmem : l[i] ∈ (l.take i).eraseDups
    · rw [List.idxOf_append_of_mem hmem]
      exact List.idxOf_le_length
    · rw [List.idxOf_append_of_notMem hmem]
      have hnot : l[i] ∉ l.take i := fun h => hmem (List.mem_eraseDups.2 h)
      have hhead : (l.drop i).removeAll (l.take i) =
          l[i] :: (l.drop (i + 1)).removeAll (l.take i) := by
        rw [List.drop_eq_getElem_cons hi]
        exact List.filter_cons_of_pos (by simpa using hnot)
      rw [hhead, List.eraseDups_cons, List.idxOf_cons_self]
      exact Nat.le_refl _
  have hlt : c < (l.take i).eraseDups.length := Nat.lt_of_lt_of_le hc hle
  have hmem : (l.take i).eraseDups[c] ∈ l.take i := List.mem_eraseDups.1 (List.getElem_mem hlt)
  obtain ⟨j, hj, hje⟩ := List.getElem_of_mem hmem
  rw [List.length_take] at hj
  rw [List.getElem_take] at hje
  refine ⟨j, by omega, _, List.getElem?_eq_getElem (by omega), ?_⟩
  have hcl : c < l.eraseDups.length := by
    rw [hsplit, List.length_append]
    omega
  have hget : l.eraseDups[c] = l[j] := by
    rw [hje]
    simp only [hsplit]
    exact List.getElem_append_left hlt
  rw [← hget]
  exact (nodup_eraseDups l).idxOf_getElem c hcl

/-- The number of the block of a state. -/
def blockOf (p : Partition) (q : Nat) : Nat := (p.blocks.findIdx? fun b => b.contains q).getD 0

theorem mem_block_blockOf (h : ∃ j, q ∈ p.block j) : q ∈ p.block (blockOf p q) := by
  obtain ⟨j, hj⟩ := h
  have hlt : j < p.blocks.size := by
    by_contra hlt
    simp [Partition.block, Array.getD, hlt] at hj
  have hsome : (p.blocks.findIdx? fun b => b.contains q).isSome = true := by
    rw [Array.findIdx?_isSome, Array.any_eq_true]
    refine ⟨j, hlt, ?_⟩
    simpa [Partition.block, Array.getD, hlt] using hj
  obtain ⟨i, hi⟩ := Option.isSome_iff_exists.1 hsome
  have hblock : blockOf p q = i := by
    rw [blockOf, hi]
    rfl
  obtain ⟨hil, hq, _⟩ := Array.findIdx?_eq_some_iff_getElem.1 hi
  rw [hblock]
  simpa [Partition.block, Array.getD, hil] using hq

/-- The numbers of the blocks of all states. -/
def blockNumbers (t : Graph) (p : Partition) : List Nat := (List.range t.size).map (blockOf p)

theorem classes_eq (ht : t.Prepared) (p : Partition) : classes t p =
    ⟨((blockNumbers t p).map (blockNumbers t p).eraseDups.idxOf).toArray,
      (blockNumbers t p).eraseDups.length⟩ := by
  have hpos : 0 < t.size := Nat.lt_of_le_of_lt (Nat.zero_le _) ht.wellFormed.initial_lt
  have horder : ((blockNumbers t p).getD t.initial 0 :: blockNumbers t p).eraseDups =
      (blockNumbers t p).eraseDups := by
    obtain ⟨n, hn⟩ := Nat.exists_eq_succ_of_ne_zero (Nat.ne_of_gt hpos)
    have hcons : ∃ l, blockNumbers t p = blockOf p 0 :: l := by
      rw [blockNumbers, hn, List.range_succ_eq_map]
      exact ⟨_, rfl⟩
    obtain ⟨l, hl⟩ := hcons
    rw [ht.initial_eq, hl]
    show (blockOf p 0 :: blockOf p 0 :: l).eraseDups = _
    have htail : (blockOf p 0 :: l).eraseDups =
        blockOf p 0 :: (l.filter fun b => !b == blockOf p 0).eraseDups := List.eraseDups_cons
    rw [List.eraseDups_cons, htail, List.filter_cons_of_neg (by simp)]
  unfold classes
  show Classes.mk ((blockNumbers t p).map
    ((blockNumbers t p).getD t.initial 0 :: blockNumbers t p).eraseDups.idxOf).toArray
      ((blockNumbers t p).getD t.initial 0 :: blockNumbers t p).eraseDups.length = _
  rw [horder]

theorem get_classes (ht : t.Prepared) (hq : q < t.size) :
    (classes t p).get q = (blockNumbers t p).eraseDups.idxOf (blockOf p q) := by
  rw [classes_eq ht]
  simp [Classes.get, blockNumbers, Array.getD, hq]

theorem blockOf_mem (hq : q < t.size) : blockOf p q ∈ (blockNumbers t p).eraseDups :=
  List.mem_eraseDups.2 (List.mem_map_of_mem (List.mem_range.2 hq))

/-- The classes made from blocks that hold together what accepts the same words. -/
theorem faithful_classes (ht : t.Prepared) (hex : ∀ q < t.size, ∃ j, q ∈ p.block j)
    (hun : ∀ i j q, q ∈ p.block i → q ∈ p.block j → i = j)
    (hiff : ∀ j, ∀ r ∈ p.block j, ∀ s < t.size, s ∈ p.block j ↔ Alike t t r s) :
    (classes t p).Faithful t := by
  refine ⟨?_, ?_, ?_, ?_, ?_⟩
  · rw [classes_eq ht]
    simp [blockNumbers]
  · intro r hr s hs
    rw [get_classes ht hr, get_classes ht hs, List.idxOf_inj (blockOf_mem hr)]
    have hmr := mem_block_blockOf (hex r hr)
    have hms := mem_block_blockOf (hex s hs)
    rw [← hiff _ r hmr s hs]
    exact ⟨fun he => he ▸ hms, fun hm => hun _ _ s hm hms⟩
  · intro q hq
    rw [get_classes ht hq, classes_eq ht]
    exact List.idxOf_lt_length_of_mem (blockOf_mem hq)
  · intro c hc
    rw [classes_eq ht] at hc
    have hmem := List.mem_eraseDups.1 (List.getElem_mem hc)
    obtain ⟨q, hq, he⟩ := List.mem_map.1 hmem
    have hlt := List.mem_range.1 hq
    refine ⟨q, hlt, ?_⟩
    rw [get_classes ht hlt, he]
    exact (nodup_eraseDups _).idxOf_getElem c hc
  · intro q hq c hc
    rw [get_classes ht hq] at hc
    have hget : (blockNumbers t p)[q]? = some (blockOf p q) := by
      simp [blockNumbers, hq]
    obtain ⟨j, hj, y, hy, he⟩ := exists_idxOf_eraseDups _ hget hc
    have hjt := Nat.lt_trans hj hq
    have hyj : y = blockOf p j := by
      have hgetj : (blockNumbers t p)[j]? = some (blockOf p j) := by
        simp [blockNumbers, hjt]
      rw [hgetj] at hy
      exact (Option.some.inj hy).symm
    exact ⟨j, hj, by rw [get_classes ht hjt, ← hyj, he]⟩

end RegLang.Refinement
