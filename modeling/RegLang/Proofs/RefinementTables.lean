import RegLang.Checked.Refinement
import RegLang.Proofs.ActiveLists
import RegLang.Proofs.Refining
/-!
# Tables of blocks

What the tables of refinement show: a block for every state, the states of each block that are
active on a letter, the splitters that wait, and the states collected in each block.  Each edit
finds all its indices in the tables and changes what they show in one point.

* `Shows.move`, `Shows.moveAll`: states that go to another block.
* `Tables.Shows.divide`: a block is divided as in the partition that the tables show.
-/

namespace RegLang.Checked

open Table

open RegLang.Refinement (Column Partition)

variable {n j k q r x : Nat} {columns : Array Column} {l : ActiveLists}

/-! ## Owners -/

/-- Some state steps into the state on a letter by number. -/
def isActive (columns : Array Column) (x q : Nat) : Bool :=
  match columns[x]? with
  | some col => col.image.contains q
  | none => false

/-- The lists have every state that is active on a letter, in the block that it belongs to there. -/
structure Owns (n : Nat) (columns : Array Column) (l : ActiveLists) (own : Nat → Nat → Nat) :
    Prop where
  sound : l.Sound (n + 1) n
  letters : l.letters = columns.size
  owner : ∀ q < n, ∀ x < columns.size,
    l.owner[l.place q x]? = some (if isActive columns x q then some (own q x) else none)

variable {own : Nat → Nat → Nat}

theorem Owns.congr (h : Owns n columns l own) {own' : Nat → Nat → Nat}
    (heq : ∀ q < n, ∀ x < columns.size, isActive columns x q = true → own' q x = own q x) :
    Owns n columns l own' := by
  refine ⟨h.sound, h.letters, fun q hq x hx => ?_⟩
  rw [h.owner q hq x hx]
  cases ha : isActive columns x q with
  | false => rfl
  | true => rw [heq q hq x hx ha]

/-- A state goes to another list of one letter. -/
theorem Owns.passOn (h : Owns n columns l own) (hq : q < n) (hx : x < columns.size)
    (hj : own q x = j) (hk : k < n + 1) :
    Succeeds (passOn j k q l x) fun l' =>
      Owns n columns l' fun r y => if r = q ∧ y = x then k else own r y := by
  have hxl : x < l.letters := h.letters ▸ hx
  have howner := h.owner q hq x hx
  unfold Checked.passOn ActiveLists.ownerAt
  rw [read_eq_ok howner, ok_bind]
  cases ha : isActive columns x q with
  | false =>
    refine .pure (h.congr fun r _ y _ hy => if_neg ?_)
    rintro ⟨rfl, rfl⟩
    rw [ha] at hy
    cases hy
  | true =>
    rw [ha, if_pos rfl, hj] at howner
    rw [if_pos rfl, hj, if_pos rfl]
    refine (h.sound.remove hq hxl howner).bind fun l₁ h₁ => ?_
    obtain ⟨hsound₁, hletters₁, howner₁⟩ := h₁
    have hplace : ∀ r y, l₁.place r y = l.place r y := fun r y => by
      rw [ActiveLists.place, ActiveLists.place, hletters₁]
    have hlt : l.place q x < l.owner.size := lt_size_of_getElem? howner
    have hnone : l₁.owner[l₁.place q x]? = some none := by
      rw [howner₁, hplace, getElem?_write hlt, if_pos rfl]
    refine (hsound₁.add hk hq (hletters₁ ▸ hxl) hnone).mono fun l₂ h₂ => ?_
    obtain ⟨hsound₂, hletters₂, howner₂⟩ := h₂
    refine ⟨hsound₂, hletters₂.trans (hletters₁.trans h.letters), fun r hr y hy => ?_⟩
    have hplace₂ : l₂.place r y = l.place r y := by
      rw [ActiveLists.place, ActiveLists.place, hletters₂, hletters₁]
    have hlt₁ : l.place q x < l₁.owner.size := by
      rw [howner₁, Array.size_setIfInBounds]
      exact hlt
    rw [howner₂, hplace₂, hplace, getElem?_write hlt₁, howner₁, getElem?_write hlt]
    have hiff := ActiveLists.place_eq_iff (q := r) (k := q) (h.letters ▸ hy : y < l.letters) hxl
    by_cases hry : r = q ∧ y = x
    · rw [if_pos (hiff.2 hry), if_pos hry, hry.1, hry.2, ha, if_pos rfl]
    · rw [if_neg fun he => hry (hiff.1 he), if_neg fun he => hry (hiff.1 he), if_neg hry]
      exact h.owner r hr y hy

/-- A state goes to another list of every letter. -/
theorem Owns.passOnAll {blk : Nat → Nat} (h : Owns n columns l fun r _ => blk r) (hq : q < n)
    (hj : blk q = j) (hk : k < n + 1) :
    Succeeds ((List.range columns.size).foldlM (Checked.passOn j k q) l) fun l' =>
      Owns n columns l' fun r _ => if r = q then k else blk r := by
  refine (succeeds_foldlM (I := fun done l' => Owns n columns l' fun r y =>
    if r = q ∧ y ∈ done then k else blk r) ?_ ?_).mono fun l' hl' => ?_
  · exact h.congr fun r _ y _ _ => if_neg fun he => List.not_mem_nil he.2
  · intro done x hmem hnew l' hl'
    have hnot : x ∉ done := hnew List.nodup_range
    have hpassed := hl'.passOn hq (List.mem_range.1 hmem) ((if_neg fun he => hnot he.2).trans hj) hk
    refine hpassed.mono fun l₂ h₂ => ?_
    refine h₂.congr fun r _ y _ _ => ?_
    by_cases hr : r = q
    · by_cases hy : y = x
      · simp [hr, hy]
      · simp [hr, hy]
    · simp [hr]
  · refine hl'.congr fun r _ y hy _ => ?_
    simp [hy]

/-! ## Blocks -/

/-- The states of a block, ascending. -/
def membersOf (n : Nat) (blk : Nat → Nat) (j : Nat) : List Nat :=
  (List.range n).filter fun q => blk q = j

/-- The tables show a block for every state. -/
structure Blocks.Shows (n : Nat) (columns : Array Column) (b : Blocks) (blk : Nat → Nat) :
    Prop where
  blockOf : ∀ q < n, b.blockOf[q]? = some (blk q)
  blockOf_size : b.blockOf.size = n
  size : ∀ j < n + 1, b.size[j]? = some (membersOf n blk j).length
  owns : Owns n columns b.active fun q _ => blk q

variable {b : Blocks} {blk : Nat → Nat}

theorem mem_membersOf : q ∈ membersOf n blk j ↔ q < n ∧ blk q = j := by
  simp [membersOf]

theorem nodup_membersOf : (membersOf n blk j).Nodup := List.nodup_range.filter _

/-- One more element passes a test. -/
theorem length_filter_insert {xs : List Nat} {p p' : Nat → Bool} (hnodup : xs.Nodup) (hq : q ∈ xs)
    (h : p q = false) (h' : p' q = true) (hother : ∀ r, r ≠ q → p' r = p r) :
    (xs.filter p').length = (xs.filter p).length + 1 := by
  obtain ⟨as, bs, rfl⟩ := List.append_of_mem hq
  have hnot := (List.nodup_middle.1 hnodup).notMem
  have hsame : ∀ {ys : List Nat}, q ∉ ys → ys.filter p' = ys.filter p := fun hys =>
    List.filter_congr fun r hr => hother r fun he => hys (he ▸ hr)
  rw [List.mem_append, not_or] at hnot
  rw [List.filter_append, List.filter_append, List.filter_cons_of_pos h',
    List.filter_cons_of_neg (by simp [h]), hsame hnot.1, hsame hnot.2, List.length_append,
    List.length_append, List.length_cons]
  omega

theorem Blocks.Shows.lengthAt (h : b.Shows n columns blk) (hj : j < n + 1)
    {col : Column} (hcol : columns[x]? = some col) :
    b.active.lengthAt j x = .ok (col.active (membersOf n blk j)) := by
  have hx : x < columns.size := lt_size_of_getElem? hcol
  rw [h.owns.sound.lengthAt hj (h.owns.letters ▸ hx)]
  have howned : b.active.owned n j x = (membersOf n blk j).filter col.image.contains := by
    rw [ActiveLists.owned, membersOf, List.filter_filter]
    refine List.filter_congr fun q hq => ?_
    have hactive : isActive columns x q = col.image.contains q := by
      rw [isActive, hcol]
    rw [h.owns.owner q (List.mem_range.1 hq) x hx, hactive]
    cases col.image.contains q <;> simp
  rw [howned]
  rfl

theorem Blocks.Shows.members (h : b.Shows n columns blk) (hj : j < n + 1) (hx : x < columns.size) :
    Succeeds (b.active.members j x) fun qs =>
      ∀ q, q ∈ qs ↔ q ∈ membersOf n blk j ∧ isActive columns x q = true := by
  refine (h.owns.sound.members hj (h.owns.letters ▸ hx)).mono fun qs hqs q => ?_
  rw [hqs, ActiveLists.mem_owned, mem_membersOf, and_assoc]
  refine and_congr_right fun hq => ?_
  rw [h.owns.owner q hq x hx]
  cases isActive columns x q <;> simp

/-- A state that goes to another block is missing where it was. -/
theorem length_membersOf_left (hq : q < n) (hj : blk q = j) (hne : j ≠ k) :
    (membersOf n blk j).length =
      (membersOf n (fun r => if r = q then k else blk r) j).length + 1 := by
  refine length_filter_insert List.nodup_range (List.mem_range.2 hq) ?_ (decide_eq_true hj)
    fun r hr => ?_
  · simp [hne.symm]
  · simp [hr]

theorem length_membersOf_joined (hq : q < n) (hj : blk q = j) (hne : j ≠ k) :
    (membersOf n (fun r => if r = q then k else blk r) k).length =
      (membersOf n blk k).length + 1 := by
  refine length_filter_insert List.nodup_range (List.mem_range.2 hq) (decide_eq_false ?_) ?_
    fun r hr => ?_
  · rw [hj]
    exact hne
  · simp
  · simp [hr]

theorem membersOf_other {i : Nat} (hj : blk q = j) (hij : i ≠ j) (hik : i ≠ k) :
    membersOf n (fun r => if r = q then k else blk r) i = membersOf n blk i := by
  refine List.filter_congr fun r _ => ?_
  by_cases hr : r = q
  · simp [hr, hj, Ne.symm hij, Ne.symm hik]
  · simp [hr]

/-- A state goes to another block. -/
theorem Blocks.Shows.move (h : b.Shows n columns blk) (hq : q < n) (hj : blk q = j)
    (hjn : j < n + 1) (hk : k < n + 1) (hne : j ≠ k) :
    Succeeds (b.move columns.size j k q) fun b' =>
      b'.Shows n columns fun r => if r = q then k else blk r := by
  have hsizej := h.size j hjn
  rw [length_membersOf_left hq hj hne] at hsizej
  have hsizek := h.size k hk
  have hlower := lower_eq_ok hsizej
  have hltj := lt_size_of_getElem? hsizej
  rw [← getElem?_write_of_ne hne _] at hsizek
  have hchange := change_eq_ok hsizek (· + 1)
  have hltk := lt_size_of_getElem? hsizek
  have hltq := lt_size_of_getElem? (h.blockOf q hq)
  unfold Blocks.move
  rw [hlower, ok_bind, hchange, ok_bind, write_eq_ok hltq, ok_bind]
  refine (h.owns.passOnAll hq hj hk).bind fun active hactive => .pure ⟨?_, ?_, ?_, hactive⟩
  · intro r hr
    rw [getElem?_write hltq]
    split
    · rfl
    · exact h.blockOf r hr
  · rw [Array.size_setIfInBounds, h.blockOf_size]
  · intro i hi
    rw [getElem?_write hltk, getElem?_write hltj]
    by_cases hik : i = k
    · rw [if_pos hik, hik, length_membersOf_joined hq hj hne]
    · rw [if_neg hik]
      by_cases hij : i = j
      · rw [if_pos hij, hij]
      · rw [if_neg hij, h.size i hi, membersOf_other hj hij hik]

/-- States of one block go to another. -/
theorem Blocks.Shows.moveAll (h : b.Shows n columns blk) {qs : List Nat} (hnodup : qs.Nodup)
    (hqs : ∀ q ∈ qs, q < n ∧ blk q = j) (hjn : j < n + 1) (hk : k < n + 1) (hne : j ≠ k) :
    Succeeds (qs.foldlM (Blocks.move columns.size j k) b) fun b' =>
      b'.Shows n columns fun r => if r ∈ qs then k else blk r := by
  refine succeeds_foldlM (I := fun done (b' : Blocks) => b'.Shows n columns fun r =>
    if r ∈ done then k else blk r) (by simpa using h) ?_
  intro done q hmem hnew b' hb'
  obtain ⟨hq, hj⟩ := hqs q hmem
  refine (hb'.move hq ((if_neg (hnew hnodup)).trans hj) hjn hk hne).mono fun b₂ h₂ => ?_
  have heq : (fun r => if r = q then k else if r ∈ done then k else blk r) =
      fun r => if r ∈ done ++ [q] then k else blk r := by
    funext r
    by_cases hr : r = q <;> simp [hr]
  rwa [heq] at h₂

/-! ## The queue -/

/-- The queue has these splitters, and a flag set for each of them alone. -/
structure Queue.Shows (n letters : Nat) (q : Queue) (pending : List (Nat × Nat)) : Prop where
  pending_eq : q.pending = pending
  waiting : ∀ x < letters, ∀ j < n + 1,
    q.waiting[x * (n + 1) + j]? = some (pending.contains (j, x))

variable {queue : Queue} {pending old : List (Nat × Nat)} {letters : Nat} {col : Column}

theorem Queue.Shows.push (h : queue.Shows n letters pending) (hx : x < letters) (hj : j < n + 1) :
    Succeeds (write queue.waiting (x * (n + 1) + j) true) fun waiting =>
      (Queue.mk (queue.pending ++ [(j, x)]) waiting).Shows n letters (pending ++ [(j, x)]) := by
  have hlt := lt_size_of_getElem? (h.waiting x hx j hj)
  refine .of_eq (write_eq_ok hlt true) ⟨by rw [h.pending_eq], fun y hy i hi => ?_⟩
  have hiff := mul_add_eq_iff (i := y) (m := x) hi hj
  rw [getElem?_write hlt]
  by_cases he : y = x ∧ i = j
  · rw [if_pos (hiff.2 he), he.1, he.2]
    simp
  · rw [if_neg fun heq => he (hiff.1 heq), h.waiting y hy i hi]
    simp [and_comm, he]

theorem Queue.Shows.pop (h : queue.Shows n letters ((j, x) :: pending)) (hx : x < letters)
    (hj : j < n + 1) (hnot : (j, x) ∉ pending) :
    Succeeds (write queue.waiting (x * (n + 1) + j) false) fun waiting =>
      (Queue.mk pending waiting).Shows n letters pending := by
  have hlt := lt_size_of_getElem? (h.waiting x hx j hj)
  refine .of_eq (write_eq_ok hlt false) ⟨rfl, fun y hy i hi => ?_⟩
  have hiff := mul_add_eq_iff (i := y) (m := x) hi hj
  rw [getElem?_write hlt]
  by_cases he : y = x ∧ i = j
  · rw [if_pos (hiff.2 he), he.1, he.2]
    simpa using hnot
  · rw [if_neg fun heq => he (hiff.1 heq), h.waiting y hy i hi]
    have hne : ((i, y) == (j, x)) = false := by
      simpa [and_comm] using he
    rw [List.contains_cons, hne, Bool.false_or]

/-- The choice for one letter, made on the lengths of lists. -/
theorem Queue.Shows.choose (h : queue.Shows n columns.size pending)
    (hb : b.Shows n columns blk) (hcol : columns[x]? = some col) (hj : j < n + 1) (hk : k < n + 1)
    (hold : pending.contains (j, x) = old.contains (j, x)) :
    Succeeds (queue.choose n b.active j k x) fun queue' => queue'.Shows n columns.size
      (pending ++ [Refinement.choose old j k (membersOf n blk j) (membersOf n blk k) x col]) := by
  have hx : x < columns.size := lt_size_of_getElem? hcol
  have hchosen : Refinement.choose old j k (membersOf n blk j) (membersOf n blk k) x col =
      (if 0 < col.active (membersOf n blk j) &&
        col.active (membersOf n blk j) ≤ col.active (membersOf n blk k) &&
          !pending.contains (j, x) then j else k, x) := by
    rw [Refinement.choose, hold]
    exact (apply_ite (fun i => (i, x)) _ j k).symm
  rw [hchosen]
  unfold Queue.choose
  rw [hb.lengthAt hj hcol, ok_bind, hb.lengthAt hk hcol, ok_bind,
    read_eq_ok (h.waiting x hx j hj), ok_bind]
  refine (h.push hx ?_).bind fun waiting hwaiting => .pure hwaiting
  split
  · exact hj
  · exact hk

/-- The splitter to wait for a letter by number. -/
def chosen (columns : Array Column) (old : List (Nat × Nat)) (j k : Nat) (stay leave : List Nat)
    (x : Nat) : Nat × Nat :=
  match columns[x]? with
  | some col => Refinement.choose old j k stay leave x col
  | none => (k, x)

theorem chosen_cases (stay leave : List Nat) (x : Nat) :
    chosen columns old j k stay leave x = (k, x) ∨
      (chosen columns old j k stay leave x = (j, x) ∧ (j, x) ∉ old) := by
  unfold chosen
  split
  · exact Refinement.choose_eq_or ..
  · exact .inl rfl

theorem chosen_snd (stay leave : List Nat) : (chosen columns old j k stay leave x).2 = x := by
  rcases chosen_cases stay leave x with h | ⟨h, -⟩ <;> rw [h]

theorem chosen_lt (hj : j < k) (stay leave : List Nat) :
    (chosen columns old j k stay leave x).1 < k + 1 := by
  rcases chosen_cases stay leave x with h | ⟨h, -⟩ <;> rw [h]
  · exact Nat.lt_succ_self k
  · exact Nat.lt_succ_of_lt hj

theorem toList_mapIdx_choose (stay leave : List Nat) :
    (columns.mapIdx fun x col => Refinement.choose old j k stay leave x col).toList =
      (List.range columns.size).map (chosen columns old j k stay leave) := by
  refine List.ext_getElem (by simp) fun x hx _ => ?_
  have hx : x < columns.size := by simpa using hx
  simp [chosen, hx]

theorem Queue.Shows.chooseAll (h : queue.Shows n columns.size old) (hb : b.Shows n columns blk)
    (hj : j < n + 1) (hk : k < n + 1) :
    Succeeds ((List.range columns.size).foldlM (Queue.choose n b.active j k) queue) fun queue' =>
      queue'.Shows n columns.size (old ++ (columns.mapIdx fun x col =>
        Refinement.choose old j k (membersOf n blk j) (membersOf n blk k) x col).toList) := by
  rw [toList_mapIdx_choose]
  refine succeeds_foldlM (I := fun done (queue' : Queue) => queue'.Shows n columns.size
    (old ++ done.map (chosen columns old j k (membersOf n blk j) (membersOf n blk k))))
    (by simpa using h) ?_
  intro done x hmem hnew queue' hqueue'
  have hx : x < columns.size := List.mem_range.1 hmem
  have hcol : columns[x]? = some columns[x] := Array.getElem?_eq_getElem hx
  have hold : (old ++ done.map (chosen columns old j k (membersOf n blk j)
      (membersOf n blk k))).contains (j, x) = old.contains (j, x) := by
    -- the letters that were dealt with are others
    have hnone : (j, x) ∉ done.map (chosen columns old j k (membersOf n blk j)
        (membersOf n blk k)) := by
      intro hm
      obtain ⟨y, hy, he⟩ := List.mem_map.1 hm
      have hyx : y = x := (chosen_snd _ _).symm.trans (congrArg Prod.snd he)
      exact hnew List.nodup_range (hyx ▸ hy)
    simp [hnone]
  refine (hqueue'.choose hb hcol hj hk hold).mono fun queue₂ h₂ => ?_
  rw [List.map_append, List.map_singleton, ← List.append_assoc]
  have hchosen : chosen columns old j k (membersOf n blk j) (membersOf n blk k) x =
      Refinement.choose old j k (membersOf n blk j) (membersOf n blk k) x columns[x] := by
    rw [chosen, hcol]
  rwa [hchosen]

/-! ## Dividing -/

/-- The tables show a partition: its blocks, and the splitters that wait, once each.  Blocks are few
enough for every division that can still come. -/
structure Tables.Shows (n : Nat) (columns : Array Column) (t : Tables) (p : Partition) : Prop where
  blocks : ∃ blk, t.blocks.Shows n columns blk ∧ ∀ j, p.block j = membersOf n blk j
  queue : t.queue.Shows n columns.size p.pending
  count : t.count = p.blocks.size
  nodup : p.pending.Nodup
  lt : ∀ e ∈ p.pending, e.1 < p.blocks.size ∧ e.2 < columns.size
  bound : Refinement.slack p + p.blocks.size ≤ n + 1

variable {t : Tables} {p : Partition} {test : Nat → Bool} {leaving : List Nat}

theorem Tables.Shows.size_le (h : t.Shows n columns p) : p.blocks.size ≤ n + 1 :=
  Nat.le_trans (Nat.le_add_left _ _) h.bound

theorem nodup_append_chosen (hold : old.Nodup) (hlt : ∀ e ∈ old, e.1 < k) (stay leave : List Nat)
    (m : Nat) : (old ++ (List.range m).map (chosen columns old j k stay leave)).Nodup := by
  refine hold.append (List.Nodup.map_on (fun x _ y _ he => ?_) List.nodup_range) ?_
  · have he := congrArg Prod.snd he
    rwa [chosen_snd, chosen_snd] at he
  · intro e hold hnew
    obtain ⟨x, -, rfl⟩ := List.mem_map.1 hnew
    rcases chosen_cases stay leave x with h | ⟨h, hnot⟩
    · rw [h] at hold
      exact Nat.lt_irrefl _ (hlt _ hold)
    · exact hnot (h ▸ hold)

theorem pending_parted : (Refinement.parted columns test p j).pending =
    p.pending ++ (List.range columns.size).map (chosen columns p.pending j p.blocks.size
      ((p.block j).filter fun q => !test q) ((p.block j).filter test)) := by
  rw [← toList_mapIdx_choose]
  rfl

/-- The splitters that wait after a division are still different, and those of blocks. -/
theorem Tables.Shows.waits_parted (h : t.Shows n columns p) (test : Nat → Bool)
    (hj : j < p.blocks.size) :
    (Refinement.parted columns test p j).pending.Nodup ∧
      ∀ e ∈ (Refinement.parted columns test p j).pending,
        e.1 < p.blocks.size + 1 ∧ e.2 < columns.size := by
  rw [pending_parted]
  refine ⟨nodup_append_chosen h.nodup (fun e he => (h.lt e he).1) _ _ _, fun e he => ?_⟩
  rcases List.mem_append.1 he with he | he
  · exact ⟨Nat.lt_succ_of_lt (h.lt e he).1, (h.lt e he).2⟩
  · obtain ⟨x, hx, rfl⟩ := List.mem_map.1 he
    exact ⟨chosen_lt hj _ _, by rw [chosen_snd]; exact List.mem_range.1 hx⟩

/-- The states that leave a block are those of the new one. -/
theorem block_parted (hblk : ∀ i, p.block i = membersOf n blk i)
    (hdivided : Refinement.Divided columns test p j (Refinement.parted columns test p j))
    (hleaving : ∀ q, q ∈ leaving ↔ q ∈ p.block j ∧ test q = true) (i : Nat) :
    (Refinement.parted columns test p j).block i =
      membersOf n (fun q => if q ∈ leaving then p.blocks.size else blk q) i := by
  have hj := hdivided.lt
  have hleft : ∀ q ∈ List.range n, q ∈ leaving ↔ blk q = j ∧ test q = true := fun q hq => by
    rw [hleaving, hblk, mem_membersOf]
    simp [List.mem_range.1 hq]
  have hold : ∀ q ∈ List.range n, blk q < p.blocks.size := fun q hq =>
    Refinement.lt_size_of_mem_block (j := blk q) (q := q)
      (by rw [hblk, mem_membersOf]; exact ⟨List.mem_range.1 hq, rfl⟩)
  by_cases hi : i = p.blocks.size
  · rw [hi, hdivided.leave, hblk, membersOf, List.filter_filter]
    refine List.filter_congr fun q hq => ?_
    have hlt := hold q hq
    by_cases hmem : q ∈ leaving
    · simp [hmem, (hleft q hq).1 hmem]
    · have hnot : ¬ (blk q = j ∧ test q = true) := fun he => hmem ((hleft q hq).2 he)
      simp only [hmem, if_false, Nat.ne_of_lt hlt, decide_false]
      simpa [and_comm] using hnot
  · by_cases hij : i = j
    · rw [hij, hdivided.stay, hblk, membersOf, List.filter_filter]
      refine List.filter_congr fun q hq => ?_
      by_cases hmem : q ∈ leaving
      · simp [hmem, (hleft q hq).1 hmem, Nat.ne_of_gt hj]
      · by_cases hq' : blk q = j
        · have hnot : test q ≠ true := fun he => hmem ((hleft q hq).2 ⟨hq', he⟩)
          simp [hmem, hq', hnot]
        · simp [hmem, hq']
    · rw [hdivided.other i hij hi, hblk]
      refine List.filter_congr fun q hq => ?_
      by_cases hmem : q ∈ leaving
      · simp [hmem, (hleft q hq).1 hmem, Ne.symm hi, Ne.symm hij]
      · simp [hmem]

/-- A block is divided by the states that pass a test. -/
theorem Tables.Shows.divide (h : t.Shows n columns p) (hj : j < p.blocks.size)
    (hnodup : leaving.Nodup) (hne : leaving ≠ [])
    (hleaving : ∀ q, q ∈ leaving ↔ q ∈ p.block j ∧ test q = true) :
    Succeeds (t.divide n columns.size j leaving) fun t' =>
      t'.Shows n columns (Refinement.divide columns test p j) ∧ t'.collection = t.collection := by
  obtain ⟨blk, hblocks, hmembers⟩ := h.blocks
  have hjn : j < n + 1 := Nat.lt_of_lt_of_le hj h.size_le
  have hperm : leaving.Perm ((p.block j).filter test) := by
    rw [hmembers]
    refine (List.perm_ext_iff_of_nodup hnodup (nodup_membersOf.filter _)).2 fun q => ?_
    rw [hleaving, hmembers, List.mem_filter]
  have hlength : (p.block j).length =
      leaving.length + ((p.block j).filter fun q => !test q).length := by
    rw [hperm.length_eq]
    exact List.length_eq_length_filter_add test
  have hsize := hblocks.size j hjn
  rw [← hmembers, hlength] at hsize
  unfold Tables.divide
  rw [read_eq_ok hsize, ok_bind, Refinement.divide_eq]
  by_cases hstay : (p.block j).filter (fun q => !test q) = []
  · rw [if_pos (Or.inr hstay), hstay, List.length_nil, Nat.add_zero, if_neg (Nat.lt_irrefl _)]
    exact .pure ⟨h, rfl⟩
  · have hleave : (p.block j).filter test ≠ [] := fun he => hne (List.Perm.eq_nil (he ▸ hperm))
    have hpos := List.length_pos_iff.2 hstay
    rw [if_neg (not_or.2 ⟨hleave, hstay⟩), if_pos (by omega)]
    have hdivided : Refinement.Divided columns test p j (Refinement.parted columns test p j) :=
      Refinement.divided_parted hleave hstay
    have hslack := hdivided.slack_eq
    have hbound := h.bound
    have hk : p.blocks.size < n + 1 := by omega
    have hjk : j ≠ p.blocks.size := Nat.ne_of_lt hj
    have hin : ∀ q ∈ leaving, q < n ∧ blk q = j := fun q hq => by
      have := ((hleaving q).1 hq).1
      rwa [hmembers, mem_membersOf] at this
    have hparted := block_parted hmembers hdivided hleaving
    rw [h.count]
    refine (hblocks.moveAll hnodup hin hjn hk hjk).bind fun blocks hblocks' => ?_
    refine (h.queue.chooseAll hblocks' hjn hk).bind fun queue hqueue => .pure ⟨?_, rfl⟩
    -- the parts in the tables are those of the partition, so the same splitters are chosen
    rw [← hparted, ← hparted, hdivided.stay, hdivided.leave] at hqueue
    obtain ⟨hwaits, hlt⟩ := h.waits_parted test hj
    refine ⟨⟨_, hblocks', hparted⟩, hqueue, hdivided.size_eq.symm, hwaits, fun e he => ?_, ?_⟩
    · rw [hdivided.size_eq]
      exact hlt e he
    · rw [hdivided.size_eq]
      omega

end RegLang.Checked
