import RegLang.Proofs.Dividing
import RegLang.Proofs.Quotients
/-!
# Refining partitions

A partition is never too fine: states that accept the same words stay in one block, since a
splitter is a block and so does not tell them apart.  In the end it is not too coarse: as long as
two states of one block step into different blocks on some letter, one of those blocks waits with
that letter as a splitter.

* `Refining.divide`, `Refining.splitBy`: what one division and one splitter preserve.
* `Refining.refine`: with fuel for all work refinement ends with no splitter left.
-/

namespace RegLang.Refinement

open RegLang.Graph (Alike)

variable {t : Graph} {columns : Array Column} {test : Nat → Bool} {p p' : Partition}
  {b i j k q r s x : Nat}

/-! ## Columns -/

/-- The step of a state on a letter by number. -/
def stepOf (columns : Array Column) (x q : Nat) : Nat :=
  match columns[x]? with
  | some col => col.step.getD q 0
  | none => 0

/-- Every column has the steps of all states on one letter, and every letter has a column. -/
structure Tabled (t : Graph) (columns : Array Column) : Prop where
  size_eq : ∀ (x : Nat) (col : Column), columns[x]? = some col → col.step.size = t.size
  exists_letter : ∀ x < columns.size, ∃ c, ∀ q < t.size,
    stepOf columns x q ∈ (t.state q).stepAll c
  exists_column : ∀ c, ∃ x < columns.size, ∀ q < t.size,
    stepOf columns x q ∈ (t.state q).stepAll c

theorem Tabled.stepOf_lt (hc : Tabled t columns) (ht : t.Prepared) (hx : x < columns.size)
    (hq : q < t.size) : stepOf columns x q < t.size := by
  obtain ⟨c, h⟩ := hc.exists_letter x hx
  exact ht.lt_of_mem_stepAll hq (h q hq)

theorem Tabled.alike_stepOf (hc : Tabled t columns) (ht : t.Prepared) (hx : x < columns.size)
    (hr : r < t.size) (hs : s < t.size) (h : Alike t t r s) :
    Alike t t (stepOf columns x r) (stepOf columns x s) := by
  obtain ⟨c, hstep⟩ := hc.exists_letter x hx
  exact ht.alike_of_step hr hs h (hstep r hr) (hstep s hs)

/-! ## The invariant -/

/-- The blocks divide the states, agree on acceptance and do not separate states that accept the
same words.  Where steps from one block lead to two, one of the two waits, or the test that is
under way tells the states apart. -/
structure Refining (t : Graph) (columns : Array Column) (test : Nat → Bool) (p : Partition) :
    Prop where
  exists_block : ∀ q < t.size, ∃ j, q ∈ p.block j
  unique : ∀ i j q, q ∈ p.block i → q ∈ p.block j → i = j
  lt : ∀ j, ∀ q ∈ p.block j, q < t.size
  accept : ∀ j, ∀ r ∈ p.block j, ∀ s ∈ p.block j, (t.state r).accept = (t.state s).accept
  coarse : ∀ j, ∀ r ∈ p.block j, ∀ s < t.size, Alike t t r s → s ∈ p.block j
  waits : ∀ i, ∀ r ∈ p.block i, ∀ s ∈ p.block i, ∀ x < columns.size, ∀ j k,
    stepOf columns x r ∈ p.block j → stepOf columns x s ∈ p.block k → j ≠ k →
    (j, x) ∈ p.pending ∨ (k, x) ∈ p.pending ∨ test r ≠ test s

/-! ## Dividing -/

/-- The number that a block had before the division. -/
def origin (p : Partition) (j i : Nat) : Nat := if i = p.blocks.size then j else i

theorem Divided.lt (h : Divided columns test p j p') : j < p.blocks.size := by
  obtain ⟨q, hq⟩ := List.exists_mem_of_ne_nil _ h.leave_ne
  exact lt_size_of_mem_block (List.mem_filter.1 hq).1

theorem Divided.mem_block (h : Divided columns test p j p') : q ∈ p'.block i ↔
    q ∈ p.block (origin p j i) ∧ (i = j → test q = false) ∧
      (i = p.blocks.size → test q = true) := by
  have hj := h.lt
  unfold origin
  by_cases hi : i = p.blocks.size
  · rw [if_pos hi, hi, h.leave, List.mem_filter]
    exact and_congr_right fun _ => ⟨fun ht => ⟨fun he => by omega, fun _ => ht⟩, fun ht => ht.2 rfl⟩
  · rw [if_neg hi]
    by_cases hij : i = j
    · rw [hij, h.stay, List.mem_filter, Bool.not_eq_true']
      exact and_congr_right fun _ =>
        ⟨fun ht => ⟨fun _ => ht, fun he => by omega⟩, fun ht => ht.1 rfl⟩
    · rw [h.other i hij hi]
      exact ⟨fun hq => ⟨hq, fun he => absurd he hij, fun he => absurd he hi⟩, And.left⟩

/-- Divided parts of one block are the two parts of the block that was divided. -/
theorem Divided.eq_or_of_origin_eq (h : Divided columns test p j p') (hne : i ≠ k)
    (ho : origin p j i = origin p j k) :
    (i = j ∧ k = p.blocks.size) ∨ (i = p.blocks.size ∧ k = j) := by
  have hj := h.lt
  unfold origin at ho
  split at ho <;> split at ho <;> omega

theorem Divided.mem_pending (h : Divided columns test p j p') (hx : x < columns.size)
    (hp : (origin p j i, x) ∈ p.pending) : (i, x) ∈ p'.pending := by
  unfold origin at hp
  by_cases hi : i = p.blocks.size
  · rw [if_pos hi] at hp
    rw [hi]
    exact h.both x hx hp
  · rw [if_neg hi] at hp
    exact h.subset hp

/-- The test does not tell apart what accepts the same words. -/
def Respects (t : Graph) (test : Nat → Bool) : Prop :=
  ∀ r < t.size, ∀ s < t.size, Alike t t r s → test r = test s

/-- No state is lost by a division. -/
theorem Divided.exists_block (hd : Divided columns test p j p') (hi : q ∈ p.block i) :
    ∃ k, q ∈ p'.block k := by
  have hlt := lt_size_of_mem_block hi
  by_cases hij : i = j
  · subst hij
    cases hqt : test q with
    | true =>
      refine ⟨p.blocks.size, hd.mem_block.2 ⟨?_, fun he => by omega, fun _ => hqt⟩⟩
      rwa [origin, if_pos rfl]
    | false =>
      refine ⟨i, hd.mem_block.2 ⟨?_, fun _ => hqt, fun he => by omega⟩⟩
      rwa [origin, if_neg (Nat.ne_of_lt hlt)]
  · refine ⟨i, hd.mem_block.2 ⟨?_, fun he => absurd he hij, fun he => by omega⟩⟩
    rwa [origin, if_neg (Nat.ne_of_lt hlt)]

/-- No state is in both parts of a division. -/
theorem Divided.unique (hd : Divided columns test p j p')
    (h : ∀ i k, q ∈ p.block i → q ∈ p.block k → i = k) (hi : q ∈ p'.block i)
    (hk : q ∈ p'.block k) : i = k := by
  obtain ⟨hi, hi1, hi2⟩ := hd.mem_block.1 hi
  obtain ⟨hk, hk1, hk2⟩ := hd.mem_block.1 hk
  by_contra hne
  rcases hd.eq_or_of_origin_eq hne (h _ _ hi hk) with ⟨rfl, rfl⟩ | ⟨rfl, rfl⟩
  · have h1 := hi1 rfl
    rw [hk2 rfl] at h1
    cases h1
  · have h1 := hk1 rfl
    rw [hi2 rfl] at h1
    cases h1

theorem Refining.divided (h : Refining t columns test p) (ht : Respects t test)
    (hd : Divided columns test p j p') : Refining t columns test p' := by
  refine ⟨?_, ?_, ?_, ?_, ?_, ?_⟩
  · intro q hq
    obtain ⟨i, hi⟩ := h.exists_block q hq
    exact hd.exists_block hi
  · exact fun i k q hi hk => hd.unique (fun i k => h.unique i k q) hi hk
  · intro i q hq
    exact h.lt _ q (hd.mem_block.1 hq).1
  · intro i r hr s hs
    exact h.accept _ r (hd.mem_block.1 hr).1 s (hd.mem_block.1 hs).1
  · intro i r hr s hs hrs
    obtain ⟨hr, hr1, hr2⟩ := hd.mem_block.1 hr
    have htest := ht r (h.lt _ r hr) s hs hrs
    exact hd.mem_block.2 ⟨h.coarse _ r hr s hs hrs, fun he => htest ▸ hr1 he,
      fun he => htest ▸ hr2 he⟩
  · intro i r hr s hs x hx k l hk hl hne
    have hk' := (hd.mem_block.1 hk).1
    have hl' := (hd.mem_block.1 hl).1
    by_cases ho : origin p j k = origin p j l
    · -- the steps lead to the two parts of the divided block, one of which was chosen
      rcases hd.eq_or_of_origin_eq hne ho with ⟨rfl, rfl⟩ | ⟨rfl, rfl⟩
      · exact (hd.one x hx).imp_right Or.inl
      · exact (hd.one x hx).symm.imp_right Or.inl
    · rcases h.waits _ r (hd.mem_block.1 hr).1 s (hd.mem_block.1 hs).1 x hx _ _ hk' hl' ho with
        hp | hp | hp
      · exact .inl (hd.mem_pending hx hp)
      · exact .inr (.inl (hd.mem_pending hx hp))
      · exact .inr (.inr hp)

theorem Refining.divide (h : Refining t columns test p) (ht : Respects t test) (j : Nat) :
    Refining t columns test (divide columns test p j) := by
  rcases divide_cases columns test p j with ⟨he, _⟩ | hd
  · rw [he]
    exact h
  · exact h.divided ht hd

/-! ## Splitting -/

/-- Dividing one block after another leaves blocks that agree on the test, the new ones included, if
all others agree on it. -/
theorem Refining.foldl_divide (h : Refining t columns test p) (ht : Respects t test)
    {js : List Nat} (hagree : ∀ i, i ∈ js ∨ Agree test (p.block i)) :
    Refining t columns test (js.foldl (Refinement.divide columns test) p) ∧
      ∀ i, Agree test ((js.foldl (Refinement.divide columns test) p).block i) := by
  induction js generalizing p with
  | nil => exact ⟨h, fun i => (hagree i).resolve_left List.not_mem_nil⟩
  | cons j js ih =>
    refine ih (h.divide ht j) fun i => ?_
    rcases divide_cases columns test p j with ⟨hd, hj⟩ | hd
    · rw [hd]
      rcases hagree i with hi | hi
      · refine (List.mem_cons.1 hi).symm.imp_right fun he => ?_
        rwa [he]
      · exact .inr hi
    · by_cases hi : i = j ∨ i = p.blocks.size
      · -- the two parts agree
        refine .inr fun r hr s hs => ?_
        obtain ⟨-, hr1, hr2⟩ := hd.mem_block.1 hr
        obtain ⟨-, hs1, hs2⟩ := hd.mem_block.1 hs
        rcases hi with hi | hi
        · rw [hr1 hi, hs1 hi]
        · rw [hr2 hi, hs2 hi]
      · obtain ⟨hij, hik⟩ := not_or.1 hi
        rw [hd.other i hij hik]
        exact (hagree i).imp_left fun hm => (List.mem_cons.1 hm).resolve_left hij

/-- No test is under way. -/
def noTest (_ : Nat) : Bool := false

/-- Whether the step of a state leads into a block. -/
def into (p : Partition) (b : Nat) (col : Column) (q : Nat) : Bool :=
  ((p.block b).foldl StateSet.add (.ofCapacity col.step.size)).contains (col.step.getD q 0)

theorem into_iff (hc : Tabled t columns) (h : Refining t columns test p) {col : Column}
    (hcol : columns[x]? = some col) : into p b col q = true ↔ stepOf columns x q ∈ p.block b := by
  have hstep : stepOf columns x q = col.step.getD q 0 := by
    rw [stepOf, hcol]
  rw [hstep, into, ← StateSet.mem_toList, hc.size_eq x col hcol]
  exact StateSet.mem_toList_ofList_of_lt (h.lt b)

theorem respects_into (hc : Tabled t columns) (ht : t.Prepared) (h : Refining t columns test p)
    {col : Column} (hcol : columns[x]? = some col) (hx : x < columns.size) :
    Respects t (into p b col) := by
  intro r hr s hs hrs
  have halike := hc.alike_stepOf ht hx hr hs hrs
  rw [Bool.eq_iff_iff, into_iff hc h hcol, into_iff hc h hcol]
  exact ⟨fun hm => h.coarse b _ hm _ (hc.stepOf_lt ht hx hs) halike,
    fun hm => h.coarse b _ hm _ (hc.stepOf_lt ht hx hr) halike.symm⟩

/-- Where steps lead to two blocks one of them still waits, or it was the splitter taken off. -/
theorem Refining.waits_rest (h : Refining t columns noTest p) {rest : List (Nat × Nat)}
    (hp : p.pending = (b, x) :: rest) {y : Nat} (hr : r ∈ p.block i) (hs : s ∈ p.block i)
    (hy : y < columns.size) (hj : stepOf columns y r ∈ p.block j)
    (hk : stepOf columns y s ∈ p.block k) (hne : j ≠ k) :
    (j, y) ∈ rest ∨ (k, y) ∈ rest ∨ (y = x ∧ (j = b ∨ k = b)) := by
  rcases h.waits i r hr s hs y hy j k hj hk hne with hm | hm | hm
  · rw [hp] at hm
    rcases List.mem_cons.1 hm with he | hm
    · exact .inr (.inr ⟨congrArg Prod.snd he, .inl (congrArg Prod.fst he)⟩)
    · exact .inl hm
  · rw [hp] at hm
    rcases List.mem_cons.1 hm with he | hm
    · exact .inr (.inr ⟨congrArg Prod.snd he, .inr (congrArg Prod.fst he)⟩)
    · exact .inr (.inl hm)
  · exact absurd rfl hm

/-- A splitter can be taken off once its test is under way. -/
theorem Refining.test_into (hc : Tabled t columns) (h : Refining t columns noTest p)
    {rest : List (Nat × Nat)} (hp : p.pending = (b, x) :: rest) {col : Column}
    (hcol : columns[x]? = some col) :
    Refining t columns (into p b col) { p with pending := rest } := by
  refine { h with waits := fun i r hr s hs y hy j k hj hk hne => ?_ }
  rcases h.waits_rest hp hr hs hy hj hk hne with hm | hm | ⟨rfl, hb⟩
  · exact .inl hm
  · exact .inr (.inl hm)
  · refine .inr (.inr fun he => hne ?_)
    rw [Bool.eq_iff_iff, into_iff hc h hcol, into_iff hc h hcol] at he
    rcases hb with rfl | rfl
    · exact h.unique _ _ _ (he.1 hj) hk
    · exact h.unique _ _ _ hj (he.2 hk)

/-- A test on which all blocks agree is no longer under way. -/
theorem Refining.noTest_of_agree (h : Refining t columns test p)
    (hagree : ∀ i, Agree test (p.block i)) : Refining t columns noTest p := by
  refine { h with waits := fun i r hr s hs y hy j k hj hk hne => ?_ }
  rcases h.waits i r hr s hs y hy j k hj hk hne with hm | hm | hm
  · exact .inl hm
  · exact .inr (.inl hm)
  · exact absurd (hagree i r hr s hs) hm

/-- A block with a letter splits all blocks. -/
theorem Refining.splitBy (hc : Tabled t columns) (ht : t.Prepared)
    (h : Refining t columns noTest p) {rest : List (Nat × Nat)}
    (hp : p.pending = (b, x) :: rest) :
    Refining t columns noTest (splitBy columns { p with pending := rest } b x) := by
  unfold Refinement.splitBy
  cases hcol : columns[x]? with
  | none =>
    have hx : columns.size ≤ x := Array.getElem?_eq_none_iff.1 hcol
    refine { h with waits := fun i r hr s hs y hy j k hj hk hne => ?_ }
    rcases h.waits_rest hp hr hs hy hj hk hne with hm | hm | ⟨hyx, _⟩
    · exact .inl hm
    · exact .inr (.inl hm)
    · omega
  | some col =>
    have hx : x < columns.size := by
      by_contra hlt
      rw [Array.getElem?_eq_none_iff.2 (Nat.le_of_not_lt hlt)] at hcol
      cases hcol
    have hrest : ∀ i, i ∈ List.range p.blocks.size ∨ Agree (into p b col) (p.block i) := by
      intro i
      by_cases hi : i < p.blocks.size
      · exact .inl (List.mem_range.2 hi)
      · exact .inr fun r hr => absurd (lt_size_of_mem_block hr) hi
    obtain ⟨h', hagree⟩ :=
      (h.test_into hc hp hcol).foldl_divide (respects_into hc ht h hcol hx) hrest
    exact h'.noTest_of_agree hagree

/-- With fuel for all work no splitter waits in the end. -/
theorem Refining.refine (hc : Tabled t columns) (ht : t.Prepared) (fuel : Nat)
    (h : Refining t columns noTest p) (hf : work columns p ≤ fuel) :
    Refining t columns noTest (refine columns fuel p) ∧ (refine columns fuel p).pending = [] := by
  induction fuel generalizing p with
  | zero =>
    refine ⟨h, List.eq_nil_of_length_eq_zero ?_⟩
    unfold work at hf
    show p.pending.length = 0
    omega
  | succ fuel ih =>
    unfold Refinement.refine
    cases hp : p.pending with
    | nil => exact ⟨h, hp⟩
    | cons e rest =>
      obtain ⟨b, x⟩ := e
      apply ih (h.splitBy hc ht hp)
      rw [work_splitBy]
      have hslack : slack { p with pending := rest } = slack p := rfl
      unfold work at hf ⊢
      rw [hp, List.length_cons] at hf
      rw [hslack]
      show rest.length + _ ≤ _
      omega

end RegLang.Refinement
