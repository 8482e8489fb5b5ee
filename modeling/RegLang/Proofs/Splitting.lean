import RegLang.Proofs.RefinementTables
/-!
# Splitting on tables

Working off a splitter on tables collects the states that step into it and then divides every block
of which some were collected.  The blocks are divided in the order in which they were met, so new
blocks may get other numbers than in a partition that is divided block by block; what refinement
keeps does not depend on that order.

* `Gathered.mark`, `Gathered.gather`: what collecting finds.
* `Shows.clear`, `Tables.Shows.partAll`: dividing all blocks that were met leaves nothing collected.
* `Idle.splitBy`, `Idle.refine`: one splitter, and all of them.
-/

namespace RegLang.Checked

open Table

open RegLang.Refinement (Column Partition Refining Tabled stepOf noTest Agree)

variable {n j q r x : Nat} {columns : Array Column} {blk : Nat → Nat} {c : Collection}
  {collected : List Nat} {blockOf : Array Nat} {incoming : Array (List Nat)}

/-! ## Collecting -/

/-- The tables show the states that are collected, with the blocks that these had at the time. -/
structure Collection.Shows (n : Nat) (blk : Nat → Nat) (c : Collection) (collected : List Nat) :
    Prop where
  marked : ∀ q < n, c.marked[q]? = some (collected.contains q)
  isTouched : ∀ j < n + 1, c.isTouched[j]? = some ((collected.map blk).contains j)
  leaving : ∀ j < n + 1, c.leaving[j]? = some (collected.filter fun q => blk q = j)

/-- While states are collected, every block of one of them is listed once. -/
structure Collection.Gathered (n : Nat) (blk : Nat → Nat) (c : Collection) (collected : List Nat) :
    Prop where
  shows : c.Shows n blk collected
  nodup : collected.Nodup
  touched_nodup : c.touched.Nodup
  mem_touched : ∀ j, j ∈ c.touched ↔ j ∈ collected.map blk

theorem Collection.Shows.nil_congr (h : c.Shows n blk []) (blk' : Nat → Nat) :
    c.Shows n blk' [] := ⟨h.marked, h.isTouched, h.leaving⟩

theorem Collection.Shows.marked_append (h : c.Shows n blk collected) (hq : q < n) :
    ∀ r < n, (c.marked.setIfInBounds q true)[r]? = some ((collected ++ [q]).contains r) := by
  intro r hr
  rw [getElem?_write (lt_size_of_getElem? (h.marked q hq))]
  by_cases hrq : r = q
  · simp [hrq]
  · rw [if_neg hrq, h.marked r hr]
    simp [hrq]

theorem Collection.Shows.leaving_append (h : c.Shows n blk collected) (hj : blk q < n + 1) :
    ∀ i < n + 1, (c.leaving.setIfInBounds (blk q)
      (collected.filter (fun r => blk r = blk q) ++ [q]))[i]? =
        some ((collected ++ [q]).filter fun r => blk r = i) := by
  intro i hi
  rw [getElem?_write (lt_size_of_getElem? (h.leaving (blk q) hj))]
  by_cases hij : i = blk q
  · simp [hij]
  · rw [if_neg hij, h.leaving i hi]
    simp [Ne.symm hij]

/-- A state is collected, unless it was before. -/
theorem Collection.Gathered.mark (h : c.Gathered n blk collected)
    (hblk : blockOf[q]? = some (blk q)) (hq : q < n) (hj : blk q < n + 1) :
    Succeeds (c.mark blockOf q) fun c' => ∃ collected', c'.Gathered n blk collected' ∧
      ∀ r, r ∈ collected' ↔ r ∈ collected ∨ r = q := by
  unfold Collection.mark
  rw [read_eq_ok (h.shows.marked q hq), ok_bind]
  by_cases hm : q ∈ collected
  · rw [if_pos (List.contains_iff_mem.2 hm)]
    refine .pure ⟨collected, h, fun r => ⟨.inl, fun hr => hr.elim id fun he => ?_⟩⟩
    rwa [he]
  · have hltq := lt_size_of_getElem? (h.shows.marked q hq)
    have hltt := lt_size_of_getElem? (h.shows.isTouched (blk q) hj)
    rw [if_neg (by simpa using hm), write_eq_ok hltq, ok_bind, read_eq_ok hblk, ok_bind,
      change_eq_ok (h.shows.leaving (blk q) hj), ok_bind,
      read_eq_ok (h.shows.isTouched (blk q) hj), ok_bind]
    have hmarked := h.shows.marked_append hq
    have hleaving := h.shows.leaving_append hj
    have hnodup : (collected ++ [q]).Nodup :=
      h.nodup.append (List.nodup_singleton q) (by simpa using hm)
    by_cases ht : blk q ∈ collected.map blk
    · have htouched : ∀ i, i ∈ (collected ++ [q]).map blk ↔ i ∈ collected.map blk := by
        intro i
        rw [List.map_append, List.mem_append, List.map_singleton, List.mem_singleton]
        exact ⟨fun hi => hi.elim id fun he => he ▸ ht, .inl⟩
      rw [if_pos (List.contains_iff_mem.2 ht)]
      refine .pure ⟨collected ++ [q], ⟨⟨hmarked, fun i hi => ?_, hleaving⟩, hnodup,
        h.touched_nodup, fun i => (h.mem_touched i).trans (htouched i).symm⟩, by simp⟩
      rw [h.shows.isTouched i hi, Option.some_inj, Bool.eq_iff_iff, List.contains_iff_mem,
        List.contains_iff_mem, htouched]
    · rw [if_neg (by simpa using ht), write_eq_ok hltt, ok_bind]
      refine .pure ⟨collected ++ [q], ⟨⟨hmarked, fun i hi => ?_, hleaving⟩, hnodup, ?_, ?_⟩,
        by simp⟩
      · rw [getElem?_write hltt]
        by_cases hij : i = blk q
        · simp [hij]
        · rw [if_neg hij, h.shows.isTouched i hi]
          simp [hij]
      · refine h.touched_nodup.append (List.nodup_singleton _) ?_
        rw [List.disjoint_singleton, h.mem_touched]
        exact ht
      · intro i
        simp only [List.mem_append, List.map_append, List.map_singleton, h.mem_touched]

/-- The blocks of all states are known and few. -/
def Located (n : Nat) (blk : Nat → Nat) (blockOf : Array Nat) : Prop :=
  ∀ q < n, blockOf[q]? = some (blk q) ∧ blk q < n + 1

theorem Collection.Gathered.markAll (h : c.Gathered n blk collected)
    (hblk : Located n blk blockOf) {rs : List Nat} (hrs : ∀ r ∈ rs, r < n) :
    Succeeds (rs.foldlM (Collection.mark blockOf) c) fun c' => ∃ collected',
      c'.Gathered n blk collected' ∧ ∀ r, r ∈ collected' ↔ r ∈ collected ∨ r ∈ rs := by
  refine succeeds_foldlM (I := fun done c' => ∃ collected',
    Collection.Gathered n blk c' collected' ∧ ∀ r, r ∈ collected' ↔ r ∈ collected ∨ r ∈ done)
    ⟨collected, h, by simp⟩ ?_
  rintro done q hqmem - c' ⟨collected', h', hmem⟩
  have hq : q < n := hrs q hqmem
  refine (h'.mark (hblk q hq).1 hq (hblk q hq).2).mono fun c₂ ⟨collected₂, h₂, hmem₂⟩ =>
    ⟨collected₂, h₂, fun r => ?_⟩
  rw [hmem₂, hmem, List.mem_append, List.mem_singleton, or_assoc]

/-- The table of arrivals lists the states that step into each state on each letter; a state is
active if there are some. -/
structure Arrivals (n : Nat) (columns : Array Column) (incoming : Array (List Nat)) : Prop where
  steps : ∀ q < n, ∀ x < columns.size, ∃ rs, incoming[q * columns.size + x]? = some rs ∧
    ∀ r, r ∈ rs ↔ r < n ∧ stepOf columns x r = q
  active : ∀ q < n, ∀ x < columns.size, isActive columns x q = true ↔
    ∃ r < n, stepOf columns x r = q

/-- The states that step into given ones on a letter are collected. -/
theorem Collection.Gathered.gather (h : c.Gathered n blk [])
    (hin : Arrivals n columns incoming) (hblk : Located n blk blockOf) (hx : x < columns.size)
    {qs : List Nat} (hqs : ∀ q ∈ qs, q < n) :
    Succeeds (c.gather incoming columns.size blockOf x qs) fun c' => ∃ collected,
      c'.Gathered n blk collected ∧ ∀ r, r ∈ collected ↔ r < n ∧ stepOf columns x r ∈ qs := by
  refine succeeds_foldlM (I := fun done c' => ∃ collected, Collection.Gathered n blk c' collected ∧
    ∀ r, r ∈ collected ↔ r < n ∧ stepOf columns x r ∈ done) ⟨[], h, by simp⟩ ?_
  rintro done q hqmem - c' ⟨collected, h', hmem⟩
  have hq : q < n := hqs q hqmem
  obtain ⟨rs, hrs, hsteps⟩ := hin.steps q hq x hx
  rw [read_eq_ok hrs, ok_bind]
  refine (h'.markAll hblk fun r hr => ((hsteps r).1 hr).1).mono
    fun c₂ ⟨collected₂, h₂, hmem₂⟩ => ⟨collected₂, h₂, fun r => ?_⟩
  rw [hmem₂, hmem, hsteps, List.mem_append, List.mem_singleton, and_or_left]

/-! ## Forgetting -/

/-- Some flags are taken back. -/
theorem unmark_eq {marked : Array Bool} {qs : List Nat} (hqs : ∀ q ∈ qs, q < marked.size) :
    Succeeds (qs.foldlM (fun m q => write m q false) marked) fun marked' =>
      ∀ r, marked'[r]? = if r ∈ qs then some false else marked[r]? := by
  refine (succeeds_foldlM (I := fun done marked' => marked'.size = marked.size ∧
    ∀ r, marked'[r]? = if r ∈ done then some false else marked[r]?) (by simp) ?_).mono
      fun _ h => h.2
  rintro done q hmem - marked' ⟨hsize, h'⟩
  have hq : q < marked'.size := hsize ▸ hqs q hmem
  refine .of_eq (write_eq_ok hq false) ⟨by rw [Array.size_setIfInBounds, hsize], fun r => ?_⟩
  rw [getElem?_write hq, h']
  by_cases hr : r = q <;> simp [hr]

/-- The states collected in one block are forgotten. -/
theorem Collection.Shows.clear (h : c.Shows n blk collected) (hlt : ∀ q ∈ collected, q < n)
    (hj : j < n + 1) :
    Succeeds (c.clear j (collected.filter fun q => blk q = j)) fun c' =>
      c'.Shows n blk (collected.filter fun q => blk q ≠ j) ∧ c'.touched = c.touched := by
  have hin : ∀ q ∈ collected.filter (fun q => blk q = j), q < c.marked.size := fun q hq =>
    lt_size_of_getElem? (h.marked q (hlt q (List.mem_filter.1 hq).1))
  have hltt := lt_size_of_getElem? (h.isTouched j hj)
  have hltl := lt_size_of_getElem? (h.leaving j hj)
  unfold Collection.clear
  refine (unmark_eq hin).bind fun marked hmarked => ?_
  rw [write_eq_ok hltt, ok_bind, write_eq_ok hltl, ok_bind]
  refine .pure ⟨⟨fun q hq => ?_, fun i hi => ?_, fun i hi => ?_⟩, rfl⟩
  · rw [hmarked, h.marked q hq]
    by_cases hqj : blk q = j
    · by_cases hm : q ∈ collected <;> simp [hm, hqj]
    · by_cases hm : q ∈ collected <;> simp [hm, hqj]
  · rw [getElem?_write hltt]
    by_cases hij : i = j
    · simp [hij]
    · rw [if_neg hij, h.isTouched i hi, Option.some_inj, Bool.eq_iff_iff, List.contains_iff_mem,
        List.contains_iff_mem, List.mem_map, List.mem_map]
      refine exists_congr fun q => ⟨fun ⟨hq, he⟩ => ⟨List.mem_filter.2 ⟨hq, ?_⟩, he⟩,
        fun ⟨hq, he⟩ => ⟨(List.mem_filter.1 hq).1, he⟩⟩
      simpa [he] using hij
  · rw [getElem?_write hltl]
    by_cases hij : i = j
    · rw [if_pos hij, List.filter_filter, hij, List.filter_eq_nil_iff.2 fun q _ => by simp]
    · rw [if_neg hij, h.leaving i hi, List.filter_filter]
      refine congrArg some (List.filter_congr fun q _ => ?_)
      by_cases hq : blk q = i <;> simp [hq, hij]

/-! ## Dividing what was met -/

variable {t : Tables} {p : Partition} {test : Nat → Bool}

/-- One block is divided by the states collected in it, and these are forgotten. -/
theorem Tables.Shows.part (h : t.Shows n columns p) (hc : t.collection.Shows n blk collected)
    (hlt : ∀ q ∈ collected, q < n) (hnodup : collected.Nodup) (hj : j < p.blocks.size)
    (hne : collected.filter (fun q => blk q = j) ≠ [])
    (hleaving : ∀ q, q ∈ collected.filter (fun q => blk q = j) ↔ q ∈ p.block j ∧ test q = true) :
    Succeeds (t.part n columns.size j) fun t' =>
      t'.Shows n columns (Refinement.divide columns test p j) ∧
        t'.collection.Shows n blk (collected.filter fun q => blk q ≠ j) := by
  have hjn : j < n + 1 := Nat.lt_of_lt_of_le hj h.size_le
  unfold Tables.part
  rw [read_eq_ok (hc.leaving j hjn), ok_bind]
  refine (h.divide hj (hnodup.filter _) hne hleaving).bind fun t' ⟨ht', hcollection⟩ => ?_
  rw [hcollection]
  refine (hc.clear hlt hjn).bind fun c' ⟨hc', _⟩ => .pure ⟨?_, hc'⟩
  exact ⟨ht'.blocks, ht'.queue, ht'.count, ht'.nodup, ht'.lt, ht'.bound⟩

/-- All blocks that were met are divided, and nothing stays collected. -/
theorem Tables.Shows.partAll (h : t.Shows n columns p) (hc : t.collection.Gathered n blk collected)
    (hblk : ∀ j, p.block j = membersOf n blk j)
    (hcollected : ∀ q, q ∈ collected ↔ q < n ∧ test q = true) :
    Succeeds (t.collection.touched.foldlM (Tables.part n columns.size) t) fun t' =>
      t'.Shows n columns (t.collection.touched.foldl (Refinement.divide columns test) p) ∧
        t'.collection.Shows n blk [] := by
  refine (succeeds_foldlM (I := fun done t' => Tables.Shows n columns t'
    (done.foldl (Refinement.divide columns test) p) ∧
      t'.collection.Shows n blk (collected.filter fun q => blk q ∉ done)) ?_ ?_).mono
        fun t' ⟨ht', hc'⟩ => ⟨ht', ?_⟩
  · refine ⟨h, ?_⟩
    simpa using hc.shows
  · rintro done j hmem hnew t' ⟨ht', hc'⟩
    obtain ⟨q, hq, rfl⟩ := List.mem_map.1 ((hc.mem_touched j).1 hmem)
    have hnot : blk q ∉ done := hnew hc.touched_nodup
    have hsize : blk q < p.blocks.size := by
      refine Refinement.lt_size_of_mem_block (q := q) ?_
      rw [hblk, mem_membersOf]
      exact ⟨((hcollected q).1 hq).1, rfl⟩
    obtain ⟨hblock, hle⟩ := Refinement.block_foldl_divide columns test hnot hsize
    have hlt : ∀ r ∈ collected.filter (fun q => blk q ∉ done), r < n := fun r hr =>
      ((hcollected r).1 (List.mem_filter.1 hr).1).1
    have hleaving : ∀ r, r ∈ (collected.filter fun q => blk q ∉ done).filter
        (fun r => blk r = blk q) ↔
          r ∈ (done.foldl (Refinement.divide columns test) p).block (blk q) ∧ test r = true := by
      intro r
      rw [hblock, hblk, mem_membersOf, List.mem_filter, List.mem_filter, hcollected]
      by_cases hr : blk r = blk q
      · simp [hr, hnot]
      · simp [hr]
    have hpart := ht'.part hc' hlt (hc.nodup.filter _) (Nat.lt_of_lt_of_le hsize hle)
      (List.ne_nil_of_mem (a := q) (by simp [hq, hnot])) hleaving
    refine hpart.mono fun t₂ ⟨ht₂, hc₂⟩ => ⟨?_, ?_⟩
    · rw [List.foldl_append]
      exact ht₂
    · have heq : (collected.filter fun r => blk r ∉ done).filter (fun r => blk r ≠ blk q) =
          collected.filter fun r => blk r ∉ done ++ [blk q] := by
        rw [List.filter_filter]
        refine List.filter_congr fun r _ => ?_
        simp [and_comm]
      rwa [heq] at hc₂
  · have hnil : collected.filter (fun q => blk q ∉ t.collection.touched) = [] := by
      refine List.filter_eq_nil_iff.2 fun q hq => ?_
      have hm := (hc.mem_touched (blk q)).2 (List.mem_map_of_mem hq)
      simpa using hm
    rwa [hnil] at hc'

/-! ## Splitters -/

/-- Between two splitters nothing is collected. -/
structure Tables.Idle (n : Nat) (columns : Array Column) (t : Tables) (p : Partition) : Prop where
  shows : t.Shows n columns p
  collected : t.collection.Shows n (fun _ => 0) []
  touched : t.collection.touched = []

variable {g : Graph} {b : Nat} {rest : List (Nat × Nat)}

theorem Tables.Shows.located (h : t.Shows n columns p) (hblocks : t.blocks.Shows n columns blk)
    (hmembers : ∀ j, p.block j = membersOf n blk j) : Located n blk t.blocks.blockOf := by
  intro q hq
  have hmem : q ∈ p.block (blk q) := by
    rw [hmembers, mem_membersOf]
    exact ⟨hq, rfl⟩
  exact ⟨hblocks.blockOf q hq, Nat.lt_of_lt_of_le (Refinement.lt_size_of_mem_block hmem) h.size_le⟩

/-- The tables once a splitter has been taken off the queue and its steps have been collected. -/
theorem Tables.Shows.taken (h : t.Shows n columns p) (hp : p.pending = (b, x) :: rest)
    {waiting : Array Bool} (hwaiting : (Queue.mk rest waiting).Shows n columns.size rest)
    (c : Collection) :
    Tables.Shows n columns ⟨t.blocks, ⟨rest, waiting⟩, c, t.count⟩ { p with pending := rest } where
  blocks := h.blocks
  queue := hwaiting
  count := h.count
  nodup := (List.nodup_cons.1 (hp ▸ h.nodup)).2
  lt e he := h.lt e (hp ▸ List.mem_cons_of_mem _ he)
  bound := h.bound

/-- A block that was not met has no state that passes the test. -/
theorem Collection.Gathered.agree (h : c.Gathered n blk collected)
    (hmembers : ∀ j, p.block j = membersOf n blk j)
    (htest : ∀ q, q ∈ collected ↔ q < n ∧ test q = true) (i : Nat) :
    i ∈ c.touched ∨ Agree test (p.block i) := by
  by_cases hi : i ∈ c.touched
  · exact .inl hi
  · have hfalse : ∀ q ∈ p.block i, test q = false := by
      intro q hq
      refine Bool.eq_false_iff.2 fun hm => hi ((h.mem_touched i).2 ?_)
      rw [hmembers, mem_membersOf] at hq
      exact List.mem_map.2 ⟨q, (htest q).2 ⟨hq.1, hm⟩, hq.2⟩
    exact .inr fun r hr s hs => (hfalse r hr).trans (hfalse s hs).symm

/-- A splitter is worked off. -/
theorem Tables.Idle.splitBy (h : t.Idle g.size columns p) (hc : Tabled g columns)
    (hg : g.Prepared) (hin : Arrivals g.size columns incoming)
    (href : Refining g columns noTest p) (hp : p.pending = (b, x) :: rest) :
    Succeeds (Tables.splitBy incoming g.size columns.size
      ⟨t.blocks, ⟨rest, t.queue.waiting⟩, t.collection, t.count⟩ b x) fun t' => ∃ p',
        t'.Idle g.size columns p' ∧ Refining g columns noTest p' ∧
          Refinement.work columns p' + 1 = Refinement.work columns p := by
  obtain ⟨blk, hblocks, hmembers⟩ := h.shows.blocks
  obtain ⟨hb, hx⟩ := h.shows.lt (b, x) (hp ▸ List.mem_cons_self)
  have hbn : b < g.size + 1 := Nat.lt_of_lt_of_le hb h.shows.size_le
  have hcol : columns[x]? = some columns[x] := Array.getElem?_eq_getElem hx
  have hnodup : (b, x) ∉ rest := (List.nodup_cons.1 (hp ▸ h.shows.nodup)).1
  have hqueue := h.shows.queue
  rw [hp] at hqueue
  unfold Tables.splitBy
  refine (hqueue.pop hx hbn hnodup).bind fun waiting hwaiting => ?_
  refine (hblocks.members hbn hx).bind fun qs hmem => ?_
  rw [← hmembers] at hmem
  have hidle : t.collection.Gathered g.size blk [] := by
    refine ⟨h.collected.nil_congr blk, List.nodup_nil, ?_, ?_⟩
    · rw [h.touched]
      exact List.nodup_nil
    · simp [h.touched]
  refine (hidle.gather hin (h.shows.located hblocks hmembers) hx fun q hq =>
    href.lt b q ((hmem q).1 hq).1).bind fun c ⟨collected, hgathered, hcollected⟩ => ?_
  have htest : ∀ q, q ∈ collected ↔ q < g.size ∧
      Refinement.into p b columns[x] q = true := by
    intro q
    rw [hcollected, hmem, Refinement.into_iff hc href hcol]
    refine and_congr_right fun hq => ⟨And.left, fun hm => ⟨hm, ?_⟩⟩
    exact (hin.active _ (hc.stepOf_lt hg hx hq) x hx).2 ⟨q, hq, rfl⟩
  refine ((h.shows.taken hp hwaiting c).partAll hgathered hmembers htest).bind
    fun t' ⟨ht', hc'⟩ => .pure ⟨_, ⟨⟨ht'.blocks, ht'.queue, ht'.count, ht'.nodup, ht'.lt, ht'.bound⟩,
      ⟨hc'.marked, hc'.isTouched, hc'.leaving⟩, rfl⟩, ?_, ?_⟩
  · obtain ⟨h', hagree⟩ := (href.test_into hc hp hcol).foldl_divide
      (Refinement.respects_into hc hg href hcol hx) (hgathered.agree hmembers htest)
    exact h'.noTest_of_agree hagree
  · rw [Refinement.work_foldl_divide]
    unfold Refinement.work
    rw [hp]
    show rest.length + columns.size * Refinement.slack p + 1 = _
    rw [List.length_cons]
    omega

/-- With fuel for all work no splitter waits in the end. -/
theorem Tables.Idle.refine {fuel : Nat} (h : t.Idle g.size columns p) (hc : Tabled g columns)
    (hg : g.Prepared) (hin : Arrivals g.size columns incoming)
    (href : Refining g columns noTest p) (hf : Refinement.work columns p ≤ fuel) :
    Succeeds (t.refine incoming g.size columns.size fuel) fun t' => ∃ p',
      t'.Idle g.size columns p' ∧ Refining g columns noTest p' ∧ p'.pending = [] := by
  induction fuel generalizing t p with
  | zero =>
    refine .pure ⟨p, h, href, List.eq_nil_of_length_eq_zero ?_⟩
    unfold Refinement.work at hf
    omega
  | succ fuel ih =>
    unfold Tables.refine
    rw [h.shows.queue.pending_eq]
    cases hp : p.pending with
    | nil => exact .pure ⟨p, h, href, hp⟩
    | cons e rest =>
      obtain ⟨b, x⟩ := e
      refine (h.splitBy hc hg hin href hp).bind fun t' ⟨p', h', href', hwork⟩ => ?_
      exact ih h' href' (by omega)

end RegLang.Checked
