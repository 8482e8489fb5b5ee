import RegLang.Proofs.CheckedGraphs
import RegLang.Proofs.RefinedClasses
import RegLang.Proofs.Splitting
/-!
# Classes from tables

On a prepared graph the tables can be filled, they show the partition that refinement starts from,
and the blocks left in the end have numbers for all states.  So refinement on tables succeeds, and
the classes that it finds are faithful.

* `survey_spec`, `start_spec`: the tables at the start.
* `renumber_eq`: classes from the blocks of all states.
* `refinedClasses_spec`: the whole of it.
-/

namespace RegLang.Checked

open Table

open RegLang.Refinement (Column Partition stepOf noTest size_columns)

variable {g : Graph} {n j k q r x : Nat} {done : List Nat}

/-! ## The survey -/

/-- The first block of a state. -/
def startBlock (g : Graph) (q : Nat) : Nat := if (g.state q).accept then 0 else 1

theorem startBlock_le (g : Graph) (q : Nat) : startBlock g q ≤ 1 := by
  unfold startBlock
  split <;> omega

theorem block_start (g : Graph) (columns : Array Column) (j : Nat) :
    (Refinement.start g columns).block j = membersOf g.size (startBlock g) j := by
  unfold Refinement.start membersOf
  rw [List.partition_eq_filter_filter]
  match j with
  | 0 =>
    refine List.filter_congr fun q _ => ?_
    cases h : (g.state q).accept <;> simp [startBlock, h]
  | 1 =>
    refine List.filter_congr fun q _ => ?_
    cases h : (g.state q).accept <;> simp [startBlock, h]
  | j + 2 =>
    refine (List.filter_eq_nil_iff.2 fun q _ => ?_).symm
    have hle := startBlock_le g q
    simp only [decide_eq_true_eq]
    omega

/-- The table lists the steps with a property, by where they lead. -/
def Lists (g : Graph) (incoming : Array (List Nat)) (P : Nat → Nat → Prop) : Prop :=
  ∀ p < g.size, ∀ x < g.startPoints.length, ∃ rs,
    incoming[p * g.startPoints.length + x]? = some rs ∧
      ∀ r, r ∈ rs ↔ P r x ∧ stepOf (Refinement.columns g) x r = p

theorem Lists.congr {incoming : Array (List Nat)} {P P' : Nat → Nat → Prop} (h : Lists g incoming P)
    (heq : ∀ r, ∀ x < g.startPoints.length, P r x ↔ P' r x) : Lists g incoming P' := by
  intro p hp x hx
  obtain ⟨rs, hrs, hmem⟩ := h p hp x hx
  exact ⟨rs, hrs, fun r => (hmem r).trans (and_congr_left' (heq r x hx))⟩

/-- One step is noted where it leads. -/
theorem noteStep_spec (hg : g.Prepared) {incoming : Array (List Nat)} {P : Nat → Nat → Prop}
    (h : Lists g incoming P) (hq : q < g.size) {c : Char} (hc : g.startPoints[x]? = some c) :
    Succeeds (noteStep g g.startPoints.length q incoming (c, x)) fun incoming' =>
      Lists g incoming' fun r y => P r y ∨ (r = q ∧ y = x) := by
  obtain ⟨p, hstep, hp⟩ := Refinement.step_mem_stepAll hg hq c
  have hx : x < g.startPoints.length := (List.getElem?_eq_some_iff.1 hc).1
  have hlt := hg.lt_of_mem_stepAll hq hp
  have hstepOf : stepOf (Refinement.columns g) x q = p := by
    rw [Refinement.stepOf_columns hc hq, hstep]
    rfl
  obtain ⟨rs, hrs, hmem⟩ := h p hlt x hx
  have hwrite := lt_size_of_getElem? hrs
  unfold noteStep
  rw [Graph.fetch_of_lt hq, ok_bind, hstep]
  refine .of_eq (change_eq_ok hrs _) fun p' hp' y hy => ?_
  rw [getElem?_write hwrite]
  have hiff := mul_add_eq_iff (i := p') (m := p) hy hx
  by_cases he : p' = p ∧ y = x
  · rw [if_pos (hiff.2 he), he.1, he.2]
    refine ⟨rs ++ [q], rfl, fun r => ?_⟩
    rw [List.mem_append, List.mem_singleton, hmem]
    constructor
    · rintro (⟨hr, hrp⟩ | rfl)
      · exact ⟨.inl hr, hrp⟩
      · exact ⟨.inr ⟨rfl, rfl⟩, hstepOf⟩
    · rintro ⟨hr | ⟨rfl, -⟩, hrp⟩
      · exact .inl ⟨hr, hrp⟩
      · exact .inr rfl
  · rw [if_neg fun heq => he (hiff.1 heq)]
    obtain ⟨rs', hrs', hmem'⟩ := h p' hp' y hy
    refine ⟨rs', hrs', fun r => ?_⟩
    rw [hmem', or_and_right]
    refine ⟨.inl, fun hr => hr.elim id ?_⟩
    rintro ⟨⟨rfl, rfl⟩, hrp⟩
    exact absurd ⟨hrp.symm.trans hstepOf, rfl⟩ he

/-- All steps of a state are noted. -/
theorem noteSteps_spec (hg : g.Prepared) {incoming : Array (List Nat)}
    (h : Lists g incoming fun r _ => r ∈ done) (hq : q < g.size) :
    Succeeds (g.startPoints.zipIdx.foldlM (noteStep g g.startPoints.length q) incoming)
      fun incoming' => Lists g incoming' fun r _ => r ∈ done ++ [q] := by
  refine (succeeds_foldlM (I := fun noted incoming' => Lists g incoming' fun r y =>
    r ∈ done ∨ (r = q ∧ y ∈ noted.map Prod.snd)) ?_ ?_).mono fun incoming' h' => ?_
  · simpa [Lists] using h
  · rintro noted ⟨c, y⟩ hmem - incoming' h'
    have hc : g.startPoints[y]? = some c := List.mk_mem_zipIdx_iff_getElem?.1 hmem
    refine (noteStep_spec hg h' hq hc).mono fun incoming₂ h₂ => h₂.congr fun r z _ => ?_
    rw [or_assoc, ← and_or_left, List.map_append, List.mem_append, List.map_singleton,
      List.mem_singleton]
  · refine h'.congr fun r y hy => ?_
    have hy' : y ∈ g.startPoints.zipIdx.map Prod.snd := by
      rw [List.zipIdx_map_snd, List.mem_range'_1]
      omega
    rw [List.mem_append, List.mem_singleton, and_iff_left hy']

/-- The survey after some states. -/
structure Survey.Shows (g : Graph) (s : Survey) (done : List Nat) : Prop where
  blockOf : ∀ q ∈ done, s.blockOf[q]? = some (startBlock g q)
  blockOf_size : s.blockOf.size = g.size
  size : ∀ j < g.size + 1, s.size[j]? = some (done.filter fun q => startBlock g q = j).length
  incoming : Lists g s.incoming fun r _ => r ∈ done

theorem Survey.Shows.enter (hg : g.Prepared) {s : Survey} (h : s.Shows g done) (hq : q < g.size) :
    Succeeds (s.enter g g.startPoints q) (·.Shows g (done ++ [q])) := by
  have hltq : q < s.blockOf.size := h.blockOf_size ▸ hq
  have hsize := h.size (startBlock g q) (Nat.lt_of_le_of_lt (startBlock_le g q) (by omega))
  have hltj := lt_size_of_getElem? hsize
  unfold Survey.enter
  rw [Graph.fetch_of_lt hq, ok_bind]
  change Succeeds ((write s.blockOf q (startBlock g q)).bind _) _
  rw [write_eq_ok hltq]
  change Succeeds ((change s.size (startBlock g q) (· + 1)).bind _) _
  rw [change_eq_ok hsize]
  refine (noteSteps_spec hg h.incoming hq).bind fun incoming hincoming => .pure
    ⟨fun r hr => ?_, by rw [Array.size_setIfInBounds, h.blockOf_size], fun j hj => ?_, hincoming⟩
  · rw [getElem?_write hltq]
    by_cases hrq : r = q
    · rw [if_pos hrq, hrq]
    · rw [if_neg hrq]
      exact h.blockOf r ((List.mem_append.1 hr).resolve_right fun he =>
        hrq (List.mem_singleton.1 he))
  · rw [getElem?_write hltj, List.filter_append, List.length_append]
    by_cases hjq : j = startBlock g q
    · simp [hjq]
    · rw [if_neg hjq, h.size j hj]
      simp [Ne.symm hjq]

/-- The survey of a prepared graph. -/
theorem survey_spec (hg : g.Prepared) :
    Succeeds (survey g g.startPoints) (·.Shows g (List.range g.size)) := by
  refine succeeds_foldlM (I := fun done s => Survey.Shows g s done) ⟨by simp, by simp, ?_, ?_⟩ ?_
  · intro j hj
    simp [hj]
  · intro p hp x hx
    exact ⟨[], by simp [mul_add_lt hp hx], by simp⟩
  · exact fun done q hmem _ s hs => hs.enter hg (List.mem_range.1 hmem)

/-- The table of the survey lists all arrivals. -/
theorem Survey.Shows.arrivals (hg : g.Prepared) {s : Survey} (h : s.Shows g (List.range g.size)) :
    Arrivals g.size (Refinement.columns g) s.incoming where
  steps p hp x hx := by
    rw [size_columns] at hx ⊢
    obtain ⟨rs, hrs, hmem⟩ := h.incoming p hp x hx
    exact ⟨rs, hrs, fun r => (hmem r).trans (and_congr_left' List.mem_range)⟩
  active p hp x hx := by
    rw [size_columns] at hx
    have hc : g.startPoints[x]? = some g.startPoints[x] := List.getElem?_eq_getElem hx
    have hcol : (Refinement.columns g)[x]? = some (Refinement.columnOf g g.startPoints[x]) := by
      simp [Refinement.columns, hx]
    have hsteps : ∀ r ∈ Refinement.stepsOn g g.startPoints[x], r < g.size := by
      intro r hr
      obtain ⟨q, hq, rfl⟩ := List.mem_map.1 hr
      rw [← Refinement.stepOf_columns hc (List.mem_range.1 hq)]
      exact (Refinement.tabled_columns hg).stepOf_lt hg (size_columns g ▸ hx) (List.mem_range.1 hq)
    rw [isActive, hcol, ← StateSet.mem_toList]
    refine (StateSet.mem_toList_ofList_of_lt hsteps).trans ?_
    rw [Refinement.stepsOn, List.mem_map]
    refine exists_congr fun q => ?_
    rw [List.mem_range]
    exact and_congr_right fun hq => by rw [Refinement.stepOf_columns hc hq]

/-! ## The start -/

/-- The lists have the active states for which it is their turn. -/
structure Enrolled (n : Nat) (columns : Array Column) (blk : Nat → Nat) (l : ActiveLists)
    (turn : Nat → Nat → Bool) : Prop where
  sound : l.Sound (n + 1) n
  letters : l.letters = columns.size
  owner : ∀ q < n, ∀ x < columns.size, l.owner[l.place q x]? =
    some (if isActive columns x q && turn q x then some (blk q) else none)

variable {columns : Array Column} {blk : Nat → Nat} {l : ActiveLists} {turn : Nat → Nat → Bool}

theorem Enrolled.congr (h : Enrolled n columns blk l turn) {turn' : Nat → Nat → Bool}
    (heq : ∀ q, ∀ x < columns.size, isActive columns x q = true → turn' q x = turn q x) :
    Enrolled n columns blk l turn' := by
  refine ⟨h.sound, h.letters, fun q hq x hx => ?_⟩
  rw [h.owner q hq x hx]
  cases ha : isActive columns x q with
  | false => rfl
  | true => rw [heq q x hx ha]

theorem Enrolled.owns (h : Enrolled n columns blk l turn)
    (hturn : ∀ q < n, ∀ x < columns.size, turn q x = true) :
    Owns n columns l fun q _ => blk q := by
  refine ⟨h.sound, h.letters, fun q hq x hx => ?_⟩
  rw [h.owner q hq x hx, hturn q hq x hx, Bool.and_true]

/-- An active state is put into the list of its block. -/
theorem Enrolled.add (h : Enrolled n columns blk l turn) (hq : q < n) (hx : x < columns.size)
    (hj : blk q < n + 1) (ha : isActive columns x q = true) (hturn : turn q x = false) :
    Succeeds (l.add (blk q) q x) fun l' =>
      Enrolled n columns blk l' fun r y => turn r y || decide (r = q ∧ y = x) := by
  have hxl : x < l.letters := h.letters ▸ hx
  have hnone := h.owner q hq x hx
  rw [hturn, Bool.and_false, if_neg Bool.false_ne_true] at hnone
  refine (h.sound.add hj hq hxl hnone).mono fun l' ⟨hsound, hletters, howner⟩ =>
    ⟨hsound, hletters.trans h.letters, fun r hr y hy => ?_⟩
  have hplace : l'.place r y = l.place r y := by
    rw [ActiveLists.place, ActiveLists.place, hletters]
  have hiff := ActiveLists.place_eq_iff (q := r) (k := q) (h.letters ▸ hy : y < l.letters) hxl
  rw [howner, hplace, getElem?_write (lt_size_of_getElem? hnone)]
  by_cases hry : r = q ∧ y = x
  · rw [if_pos (hiff.2 hry), hry.1, hry.2, ha]
    simp
  · rw [if_neg fun he => hry (hiff.1 he), h.owner r hr y hy, decide_eq_false hry, Bool.or_false]

/-- A state is put into the lists of its block for the letters on which it is active. -/
theorem Enrolled.activate {s : Survey} (h : Enrolled n columns blk l fun r _ => done.contains r)
    (hin : Arrivals n columns s.incoming) (hblk : Located n blk s.blockOf) (hq : q < n)
    (hnot : q ∉ done) :
    Succeeds (activate s columns.size l q) fun l' =>
      Enrolled n columns blk l' fun r _ => (done ++ [q]).contains r := by
  refine (succeeds_foldlM (I := fun letters l' => Enrolled n columns blk l' fun r y =>
    done.contains r || decide (r = q ∧ y ∈ letters)) ?_ ?_).mono fun l' h' => ?_
  · exact h.congr fun r y _ _ => by simp
  · intro letters x hxmem hnew l' h'
    have hx : x < columns.size := List.mem_range.1 hxmem
    have hfresh : x ∉ letters := hnew List.nodup_range
    obtain ⟨rs, hrs, hmem⟩ := hin.steps q hq x hx
    have hactive := hin.active q hq x hx
    rw [read_eq_ok hrs, ok_bind]
    cases rs with
    | nil =>
      -- nothing steps into the state on this letter
      refine .pure (h'.congr fun r y _ ha => ?_)
      have hne : ¬ (r = q ∧ y = x) := by
        rintro ⟨rfl, rfl⟩
        obtain ⟨p, hp, hstep⟩ := hactive.1 ha
        exact List.not_mem_nil ((hmem p).2 ⟨hp, hstep⟩)
      by_cases hr : r = q
      · have hy : y ≠ x := fun he => hne ⟨hr, he⟩
        simp [hy]
      · simp [hr]
    | cons p rs =>
      have ha := hactive.2 ⟨p, (hmem p).1 List.mem_cons_self⟩
      rw [List.isEmpty_cons, if_neg Bool.false_ne_true, read_eq_ok (hblk q hq).1, ok_bind]
      have hturn : (done.contains q || decide (q = q ∧ x ∈ letters)) = false := by
        simp [hnot, hfresh]
      refine (h'.add hq hx (hblk q hq).2 ha hturn).mono fun l₂ h₂ => h₂.congr fun r y _ _ => ?_
      by_cases hr : r = q <;> by_cases hy : y = x <;> simp [hr, hy]
  · refine h'.congr fun r y hy _ => ?_
    by_cases hr : r = q <;> simp [hr, hy]

/-- All states are put into the lists of their blocks. -/
theorem activateAll_spec {s : Survey} (hin : Arrivals n columns s.incoming)
    (hblk : Located n blk s.blockOf) (hpos : 0 < columns.size) :
    Succeeds ((List.range n).foldlM (activate s columns.size) (.new (n + 1) n columns.size))
      fun l => Owns n columns l fun q _ => blk q := by
  refine (succeeds_foldlM (I := fun done l => Enrolled n columns blk l fun r _ => done.contains r)
    ?_ ?_).mono fun l h => h.owns fun q hq _ _ => by simpa using hq
  · refine ⟨ActiveLists.sound_new _ _ hpos, rfl, fun q hq x hx => ?_⟩
    have hlt : q * columns.size + x < n * columns.size := mul_add_lt hq hx
    simp [ActiveLists.new, ActiveLists.place, hlt]
  · intro done q hmem hnew l h
    exact h.activate hin hblk (List.mem_range.1 hmem) (hnew List.nodup_range)

/-- The splitter that waits for a letter at the start. -/
def opened (columns : Array Column) (blk : Nat → Nat) (n x : Nat) : Nat × Nat :=
  match columns[x]? with
  | some col =>
    (if col.active (membersOf n blk 0) ≤ col.active (membersOf n blk 1) then 0 else 1, x)
  | none => (0, x)

theorem opened_snd : (opened columns blk n x).2 = x := by
  unfold opened
  split <;> rfl

theorem opened_lt : (opened columns blk n x).1 < 2 := by
  unfold opened
  split
  · dsimp only
    split <;> omega
  · exact Nat.zero_lt_two

theorem pending_start (g : Graph) (columns : Array Column) :
    (Refinement.start g columns).pending =
      (List.range columns.size).map (opened columns (startBlock g) g.size) := by
  have h0 := block_start g columns 0
  have h1 := block_start g columns 1
  unfold Refinement.start at h0 h1 ⊢
  simp only [Partition.block, Array.getD_eq_getD_getElem?, List.getElem?_toArray,
    List.getElem?_cons_zero, List.getElem?_cons_succ, Option.getD_some] at h0 h1
  simp only [h0, h1]
  refine List.ext_getElem (by simp) fun x hx _ => ?_
  have hx : x < columns.size := by simpa using hx
  simp [opened, hx]

/-- One of the two blocks may be empty, so that there may be one block more than states. -/
theorem slack_start_le (hn : 0 < g.size) :
    Refinement.slack (Refinement.start g columns) + 2 ≤ g.size + 1 := by
  have hlength : (membersOf g.size (startBlock g) 0).length +
      (membersOf g.size (startBlock g) 1).length = g.size := by
    have hadd := List.length_eq_length_filter_add (l := List.range g.size)
      (fun q => decide (startBlock g q = 0))
    rw [List.length_range] at hadd
    have hone : (List.range g.size).filter (fun q => !decide (startBlock g q = 0)) =
        membersOf g.size (startBlock g) 1 := by
      refine List.filter_congr fun q _ => ?_
      have hle := startBlock_le g q
      by_cases hq : startBlock g q = 0
      · simp [hq]
      · have hq1 : startBlock g q = 1 := by omega
        simp [hq1]
    rw [hone] at hadd
    exact hadd.symm
  have hsize : (Refinement.start g columns).blocks.size = 2 := rfl
  rw [Refinement.slack, hsize, Finset.sum_range_succ, Finset.sum_range_one, block_start,
    block_start]
  omega

/-- One of the first two blocks waits for each letter. -/
theorem openAll_spec {b : Blocks} (hb : b.Shows n columns blk) (hn : 0 < n) :
    Succeeds ((List.range columns.size).foldlM (Queue.open n b.active)
      ⟨[], .replicate (columns.size * (n + 1)) false⟩) fun queue =>
        queue.Shows n columns.size ((List.range columns.size).map (opened columns blk n)) := by
  refine succeeds_foldlM (I := fun done queue => Queue.Shows n columns.size queue
    (done.map (opened columns blk n))) ⟨rfl, fun x hx j hj => ?_⟩ ?_
  · simp [mul_add_lt hx hj]
  · intro done x hmem _ queue hqueue
    have hx : x < columns.size := List.mem_range.1 hmem
    have hcol : columns[x]? = some columns[x] := Array.getElem?_eq_getElem hx
    unfold Queue.open
    rw [hb.lengthAt (by omega) hcol, ok_bind, hb.lengthAt (by omega) hcol, ok_bind, List.map_append,
      List.map_singleton, opened, hcol]
    refine (hqueue.push hx ?_).bind fun waiting hwaiting => .pure hwaiting
    split <;> omega

/-- The tables show the partition that refinement starts from. -/
theorem start_spec (hg : g.Prepared) {s : Survey} (h : s.Shows g (List.range g.size)) :
    Succeeds (Tables.start g.size (Refinement.columns g).size s)
      (·.Idle g.size (Refinement.columns g) (Refinement.start g (Refinement.columns g))) := by
  have hn : 0 < g.size := Nat.lt_of_le_of_lt (Nat.zero_le _) hg.wellFormed.initial_lt
  have hpos : 0 < (Refinement.columns g).size := by
    rw [size_columns]
    exact List.length_pos_of_mem g.first_mem_startPoints
  have hblk : Located g.size (startBlock g) s.blockOf := fun q hq =>
    ⟨h.blockOf q (List.mem_range.2 hq), Nat.lt_of_le_of_lt (startBlock_le g q) (by omega)⟩
  unfold Tables.start
  refine (activateAll_spec (h.arrivals hg) hblk hpos).bind fun active howns => ?_
  have hblocks : Blocks.Shows g.size (Refinement.columns g) ⟨s.blockOf, s.size, active⟩
      (startBlock g) := ⟨fun q hq => (hblk q hq).1, h.blockOf_size, h.size, howns⟩
  refine (openAll_spec hblocks hn).bind fun queue hqueue => .pure
    ⟨⟨⟨_, hblocks, block_start g _⟩, ?_, rfl, ?_, fun e he => ?_, ?_⟩, ⟨?_, ?_, ?_⟩, rfl⟩
  · rw [pending_start]
    exact hqueue
  · rw [pending_start]
    refine List.Nodup.map_on (fun x _ y _ he => ?_) List.nodup_range
    have he := congrArg Prod.snd he
    rwa [opened_snd, opened_snd] at he
  · rw [pending_start] at he
    obtain ⟨x, hx, rfl⟩ := List.mem_map.1 he
    exact ⟨opened_lt, by rw [opened_snd]; exact List.mem_range.1 hx⟩
  · exact slack_start_le hn
  · intro q hq
    simp [Collection.empty, hq]
  · intro j hj
    simp [Collection.empty, hj]
  · intro j hj
    simp [Collection.empty, hj]

/-! ## Classes -/

variable {numbers : Array (Option Nat)} {order : List Nat} {b count : Nat}

/-- Blocks are numbered by their place in a list. -/
def Numbered (count : Nat) (numbers : Array (Option Nat)) (order : List Nat) : Prop :=
  ∀ b < count, numbers[b]? = some (if b ∈ order then some (order.idxOf b) else none)

/-- A block that is met gets the next number, unless it has one. -/
theorem number_spec (h : Numbered count numbers order.eraseDups) (hb : b < count) :
    Succeeds (number (numbers, order.eraseDups.length) b) fun s =>
      Numbered count s.1 (order ++ [b]).eraseDups ∧ s.2 = (order ++ [b]).eraseDups.length := by
  have hread := h b hb
  unfold number
  by_cases hm : b ∈ order.eraseDups
  · have hsame : (order ++ [b]).eraseDups = order.eraseDups := by
      rw [List.eraseDups_append, List.removeAll, List.filter_eq_nil_iff.2, List.eraseDups_nil,
        List.append_nil]
      intro c hc
      rw [List.mem_singleton.1 hc]
      simpa using List.mem_eraseDups.1 hm
    rw [if_pos hm] at hread
    rw [read_eq_ok hread, ok_bind, hsame]
    exact .pure ⟨h, rfl⟩
  · have hnew : (order ++ [b]).eraseDups = order.eraseDups ++ [b] := by
      rw [List.eraseDups_append, List.removeAll, List.filter_cons_of_pos, List.filter_nil]
      · rfl
      · simpa using fun hc => hm (List.mem_eraseDups.2 hc)
    rw [if_neg hm] at hread
    have hlt := lt_size_of_getElem? hread
    rw [read_eq_ok hread, ok_bind, write_eq_ok hlt, ok_bind, hnew]
    refine .pure ⟨fun c hc => ?_, by simp⟩
    rw [getElem?_write hlt]
    by_cases hcb : c = b
    · rw [if_pos hcb, hcb, if_pos (List.mem_append_right _ (List.mem_singleton_self b)),
        List.idxOf_append_of_notMem hm, List.idxOf_cons_self, Nat.add_zero]
    · rw [if_neg hcb, h c hc]
      by_cases hmc : c ∈ order.eraseDups
      · rw [if_pos hmc, if_pos (List.mem_append_left _ hmc), List.idxOf_append_of_mem hmc]
      · rw [if_neg hmc, if_neg]
        simpa [hcb] using hmc

/-- Classes are the blocks of all states, in the order in which these meet them. -/
theorem renumber_eq {blockOf : Array Nat} {initial : Nat} (hlt : ∀ b ∈ blockOf.toList, b < count)
    (hinitial : blockOf[initial]? = some b) :
    renumber blockOf initial count = .ok
      ⟨(blockOf.toList.map (b :: blockOf.toList).eraseDups.idxOf).toArray,
        (b :: blockOf.toList).eraseDups.length⟩ := by
  have hb : b < count := hlt b (by
    rw [Array.mem_toList_iff]
    exact Array.mem_of_getElem? hinitial)
  have hsize : b < (Array.replicate count (none : Option Nat)).size := by simpa using hb
  refine Succeeds.eq_ok ?_
  unfold renumber
  rw [read_eq_ok hinitial, ok_bind, write_eq_ok hsize, ok_bind]
  have hfirst : Numbered count ((Array.replicate count none).setIfInBounds b (some 0))
      [b].eraseDups := by
    intro c hc
    rw [getElem?_write hsize]
    have hsingle : [b].eraseDups = [b] := rfl
    rw [hsingle]
    by_cases hcb : c = b
    · simp [hcb]
    · simp [hcb, hc]
  refine (succeeds_foldlM (I := fun done s => Numbered count s.1 (b :: done).eraseDups ∧
    s.2 = (b :: done).eraseDups.length) ⟨hfirst, rfl⟩ ?_).bind
      fun ⟨numbers, classes⟩ ⟨hs, hcount⟩ => ?_
  · rintro done c hmem - ⟨numbers, classes⟩ ⟨hnumbers, rfl⟩
    exact number_spec hnumbers (hlt c hmem)
  · have hnumber : ∀ c ∈ blockOf.toList,
        numberOf numbers c = .ok ((b :: blockOf.toList).eraseDups.idxOf c) := by
      intro c hc
      have hread := hs c (hlt c hc)
      rw [if_pos (List.mem_eraseDups.2 (List.mem_cons_of_mem b hc))] at hread
      rw [numberOf, read_eq_ok hread]
      rfl
    dsimp only at hcount ⊢
    rw [mapM_eq_ok hnumber, ok_bind, hcount]
    exact .pure rfl

/-- The number that a state finds for its block is that of the block in the partition. -/
theorem blockOf_eq {p : Partition} (hblk : ∀ j, p.block j = membersOf n blk j) (hq : q < n) :
    Refinement.blockOf p q = blk q := by
  have hex : ∃ j, q ∈ p.block j := ⟨blk q, by rw [hblk, mem_membersOf]; exact ⟨hq, rfl⟩⟩
  have hmem := Refinement.mem_block_blockOf hex
  rw [hblk, mem_membersOf] at hmem
  exact hmem.2.symm

/-- The classes that are found on tables are faithful. -/
theorem refinedClasses_spec (hg : g.Prepared) : Succeeds (refinedClasses g) (·.Faithful g) := by
  have hcolumns := Refinement.tabled_columns hg
  have hwork := Refinement.work_start_le g (Refinement.columns g)
  unfold refinedClasses
  rw [startPoints_eq hg.wellFormed, ok_bind]
  refine (survey_spec hg).bind fun s hs => ?_
  rw [← size_columns]
  refine (start_spec hg hs).bind fun t ht => ?_
  refine (ht.refine hcolumns hg (hs.arrivals hg) (Refinement.refining_start g _) hwork).bind
    fun t' ⟨p, hidle, href, hpending⟩ => ?_
  obtain ⟨blk, hblocks, hmembers⟩ := hidle.shows.blocks
  have htoList : t'.blocks.blockOf.toList = Refinement.blockNumbers g p := by
    refine List.ext_getElem (by simp [Refinement.blockNumbers, hblocks.blockOf_size]) ?_
    intro q hq _
    have hq : q < g.size := by simpa [hblocks.blockOf_size] using hq
    have hget := hblocks.blockOf q hq
    rw [Array.getElem?_eq_some_iff] at hget
    obtain ⟨_, hget⟩ := hget
    simp [Refinement.blockNumbers, hget, blockOf_eq hmembers hq]
  have hlt : ∀ b ∈ t'.blocks.blockOf.toList, b < t'.count := by
    rw [htoList, hidle.shows.count]
    intro b hb
    obtain ⟨q, hq, rfl⟩ := List.mem_map.1 hb
    have hex := href.exists_block q (List.mem_range.1 hq)
    exact Refinement.lt_size_of_mem_block (Refinement.mem_block_blockOf hex)
  have hinitial := hblocks.blockOf g.initial hg.wellFormed.initial_lt
  rw [renumber_eq hlt hinitial, htoList, ← blockOf_eq hmembers hg.wellFormed.initial_lt]
  have hclasses : Refinement.classes g p = ⟨((Refinement.blockNumbers g p).map
      (Refinement.blockOf p g.initial :: Refinement.blockNumbers g p).eraseDups.idxOf).toArray,
        (Refinement.blockOf p g.initial :: Refinement.blockNumbers g p).eraseDups.length⟩ := by
    have hget : (Refinement.blockNumbers g p).getD g.initial 0 =
        Refinement.blockOf p g.initial := by
      simp [Refinement.blockNumbers, hg.wellFormed.initial_lt]
    rw [← hget]
    rfl
  rw [← hclasses]
  exact .pure (Refinement.faithful_classes hg href.exists_block href.unique fun j r hr s hs =>
    href.mem_block_iff hcolumns hg hpending hr hs)

end RegLang.Checked
