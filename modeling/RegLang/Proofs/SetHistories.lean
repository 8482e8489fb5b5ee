import RegLang.Proofs.StateSets
import RegLang.Result
/-!
# Histories of sets

A set of states is made for a capacity and then changed: numbers are added and removed, one at a
time or many at once, and all of them are dropped.  However it came about, it shows a finite set of
numbers that went through the same changes: the same members and answers, as many as it says, listed
once each in ascending order, and sets with as many blocks and the same members are one.

    (ofCapacity n).changeAll cs = .ok (answers, s) → s.Shows (onAll ∅ cs).2   (changeAll_shows)

* `Valid.change`: what one change does.
* `Valid.changeAll`: what many changes do.
* `changeAll_shows`: what a set shows after any changes.
-/

namespace RegLang.StateSet

/-! ## Changes -/

/-- One change of a set. -/
inductive Change where
  | insert (i : Nat)
  | erase (i : Nat)
  | extend (is : List Nat)
  | clear

namespace Change

/-- The numbers that a change names. -/
def numbers : Change → List Nat
  | insert i | erase i => [i]
  | extend is => is
  | clear => []

/-- The answer to a change of a finite set of numbers, and the set afterwards: insertion answers
whether the number is new, and removal whether it was there. -/
def on (m : Finset Nat) : Change → Option Bool × Finset Nat
  | insert i => (some (i ∉ m), m ∪ {i})
  | erase i => (some (i ∈ m), m.erase i)
  | extend is => (none, m ∪ is.toFinset)
  | clear => (none, ∅)

/-- The answers to changes one after the other, and the finite set afterwards. -/
def onAll (m : Finset Nat) : List Change → List (Option Bool) × Finset Nat
  | [] => ([], m)
  | c :: cs => ((c.on m).1 :: (onAll (c.on m).2 cs).1, (onAll (c.on m).2 cs).2)

end Change

/-- The answer to a change of a set, and the set afterwards. -/
def change (s : StateSet) : Change → Except Fault (Option Bool × StateSet)
  | .insert i => (s.insert i).map fun r => (some r.1, r.2)
  | .erase i => .ok (some (s.erase i).1, (s.erase i).2)
  | .extend is => (s.insertAll is).map (none, ·)
  | .clear => .ok (none, s.clear)

/-- The answers to changes one after the other, and the set afterwards. -/
def changeAll (s : StateSet) : List Change → Except Fault (List (Option Bool) × StateSet)
  | [] => .ok ([], s)
  | c :: cs => do
    let (answer, s) ← s.change c
    let (answers, s) ← s.changeAll cs
    return (answer :: answers, s)

/-! ## One change -/

variable {s t : StateSet} {n : Nat} {is : List Nat} {c : Change} {cs : List Change}
  {m : Finset Nat}

theorem members_foldl_add (h : ∀ i ∈ is, i < s.capacity) :
    (is.foldl add s).members = s.members ∪ is.toFinset := by
  ext j
  rw [mem_members, contains_foldl_add, Finset.mem_union, mem_members, List.mem_toFinset]
  exact or_congr_right ⟨And.left, fun hj => ⟨hj, h j hj⟩⟩

theorem erase_fst (s : StateSet) (i : Nat) : (s.erase i).1 = s.contains i := by
  unfold StateSet.erase
  split
  · next h => exact h.symm
  · next h => exact (Bool.eq_false_iff.2 h).symm

/-- A set with the given members, as many as its size says, and with as much room as another one. -/
structure Follows (s : StateSet) (m : Finset Nat) (t : StateSet) : Prop where
  members_eq : t.members = m
  capacity_eq : t.capacity = s.capacity
  valid : t.Valid

/-- A change of a set within its capacity has the answer and the members of the same change of a
finite set of numbers. -/
theorem Valid.change (hs : s.Valid) (hc : ∀ i ∈ c.numbers, i < s.capacity) :
    ∃ t, s.change c = .ok ((c.on s.members).1, t) ∧ s.Follows (c.on s.members).2 t := by
  cases c with
  | insert i =>
    have hi : i < s.capacity := hc i List.mem_cons_self
    have hanswer : (!s.contains i) = decide (i ∉ s.members) := by
      rw [Bool.eq_iff_iff, Bool.not_eq_true', decide_eq_true_iff, mem_members, Bool.not_eq_true]
    refine ⟨s.add i, ?_, members_add hi, capacity_add s i, hs.add i⟩
    rw [StateSet.change, StateSet.insert, if_pos hi, hanswer]
    rfl
  | erase i =>
    have hanswer : (s.erase i).1 = decide (i ∈ s.members) := by
      rw [Bool.eq_iff_iff, decide_eq_true_iff, mem_members, erase_fst]
    refine ⟨(s.erase i).2, ?_, members_erase s i, capacity_erase s i, hs.erase i⟩
    rw [StateSet.change, hanswer]
    rfl
  | extend is =>
    have his : ∀ i ∈ is, i < s.capacity := hc
    refine ⟨is.foldl StateSet.add s, ?_, members_foldl_add his, capacity_foldl_add is s,
      hs.foldl_add is⟩
    rw [StateSet.change, insertAll_of_lt his]
    rfl
  | clear => exact ⟨s.clear, rfl, members_clear s, capacity_clear s, valid_clear s⟩

/-! ## Many changes -/

/-- Changes of a set within its capacity have the answers and the members of the same changes of a
finite set of numbers. -/
theorem Valid.changeAll (hs : s.Valid) (hcs : ∀ c ∈ cs, ∀ i ∈ c.numbers, i < s.capacity) :
    ∃ t, s.changeAll cs = .ok ((Change.onAll s.members cs).1, t) ∧
      s.Follows (Change.onAll s.members cs).2 t := by
  induction cs generalizing s with
  | nil => exact ⟨s, rfl, rfl, rfl, hs⟩
  | cons c cs ih =>
    obtain ⟨t, ht, hmembers, hcapacity, hvalid⟩ := hs.change (hcs c List.mem_cons_self)
    -- no change alters the capacity, so the changes that follow stay within it
    obtain ⟨u, hu, hfollows⟩ := ih hvalid fun d hd i hi =>
      hcapacity ▸ hcs d (List.mem_cons_of_mem _ hd) i hi
    rw [hmembers] at hu hfollows
    refine ⟨u, ?_, hfollows.members_eq, hfollows.capacity_eq.trans hcapacity, hfollows.valid⟩
    rw [StateSet.changeAll, ht, ok_bind]
    dsimp only
    rw [hu, ok_bind]
    rfl

/-! ## What a set shows -/

/-- A set shows a finite set of numbers by all that can be asked of it: which numbers it contains,
how many they are, and which ones an iteration gives until it ends. -/
structure Shows (s : StateSet) (m : Finset Nat) : Prop where
  contains_iff : ∀ i, s.contains i = true ↔ i ∈ m
  size_eq : s.size = m.card
  isEmpty_iff : s.isEmpty = true ↔ m = ∅
  yields_iff : ∀ is, s.start.Yields is ↔ is = s.toList
  ascending : s.toList.Pairwise (· < ·)
  mem_toList_iff : ∀ i, i ∈ s.toList ↔ i ∈ m

theorem Valid.shows (hs : s.Valid) : s.Shows s.members where
  contains_iff _ := mem_members.symm
  size_eq := hs
  isEmpty_iff := by rw [hs.isEmpty_iff, members, List.toFinset_eq_empty_iff]
  yields_iff is := ⟨fun h => h.unique s.yields_toList, fun h => h ▸ s.yields_toList⟩
  ascending := s.pairwise_toList
  mem_toList_iff i := by rw [mem_toList, mem_members]

/-- Valid sets are equal if they have as many blocks and the same members. -/
theorem Valid.eq_iff (hs : s.Valid) (ht : t.Valid) :
    s = t ↔ s.blocks.size = t.blocks.size ∧ s.members = t.members := by
  constructor
  · rintro rfl
    exact ⟨rfl, rfl⟩
  · rintro ⟨hb, hm⟩
    refine hs.ext ht hb fun i => ?_
    rw [Bool.eq_iff_iff, ← mem_members, ← mem_members, hm]

/-- A new set shows no number.  Changes that name numbers within the capacity, which is rounded up
to whole blocks, succeed.  Their answers are those of the same changes of a finite set of numbers,
and the set shows that finite set afterwards.  It equals any other set that came about so if and
only if that one has as many blocks and the same members. -/
theorem changeAll_shows (hcs : ∀ c ∈ cs, ∀ i ∈ c.numbers, i < (ofCapacity n).capacity) :
    ∃ s, (ofCapacity n).changeAll cs = .ok ((Change.onAll ∅ cs).1, s) ∧
      s.Shows (Change.onAll ∅ cs).2 ∧ s.blocks.size = (n + 63) / 64 ∧
      ∀ (k : Nat) (ds : List Change),
        (∀ d ∈ ds, ∀ i ∈ d.numbers, i < (ofCapacity k).capacity) →
        ∀ answers t, (ofCapacity k).changeAll ds = .ok (answers, t) →
          (s = t ↔ s.blocks.size = t.blocks.size ∧
            (Change.onAll ∅ cs).2 = (Change.onAll ∅ ds).2) := by
  have hrun : ∀ (k : Nat) (ds : List Change),
      (∀ d ∈ ds, ∀ i ∈ d.numbers, i < (ofCapacity k).capacity) →
      ∃ t, (ofCapacity k).changeAll ds = .ok ((Change.onAll ∅ ds).1, t) ∧
        (ofCapacity k).Follows (Change.onAll ∅ ds).2 t := by
    intro k ds hds
    have h := (valid_ofCapacity k).changeAll hds
    rwa [members_ofCapacity] at h
  obtain ⟨s, hs, hmembers, hcapacity, hvalid⟩ := hrun n cs hcs
  refine ⟨s, hs, hmembers ▸ hvalid.shows, ?_, fun k ds hds answers t ht => ?_⟩
  · simp only [capacity, ofCapacity, Array.size_replicate] at hcapacity
    omega
  · obtain ⟨u, hu, hmembers', -, hvalid'⟩ := hrun k ds hds
    rw [hu] at ht
    cases ht
    rw [hvalid.eq_iff hvalid', hmembers, hmembers']

/-- Changes of a set for numbers below 70, whose capacity is 128. -/
def changes : List Change :=
  [.insert 127, .extend [64, 3, 64, 0], .erase 3, .insert 64, .clear, .extend [70, 5], .erase 6]

/-- The set that is left is the one made for 128 numbers by one change. -/
theorem changeAll_shows_changes :
    (∀ c ∈ changes, ∀ i ∈ c.numbers, i < (ofCapacity 70).capacity) ∧
      ∃ s, (ofCapacity 70).changeAll changes = .ok ((Change.onAll ∅ changes).1, s) ∧
        s.Shows (Change.onAll ∅ changes).2 ∧
        (ofCapacity 128).changeAll [.extend [5, 70]] = .ok ([none], s) := by
  have hchanges : ∀ c ∈ changes, ∀ i ∈ c.numbers, i < (ofCapacity 70).capacity := by decide
  obtain ⟨s, hs, hshows, hblocks, heq⟩ := changeAll_shows hchanges
  have hother : (ofCapacity 128).changeAll [.extend [5, 70]] = .ok ([none], ofList 128 [5, 70]) :=
    rfl
  have hsame : s = ofList 128 [5, 70] := by
    refine (heq 128 [.extend [5, 70]] (by decide) _ _ hother).2 ⟨?_, by decide⟩
    rw [hblocks, size_blocks_ofList]
    rfl
  exact ⟨hchanges, s, hs, hshows, hsame ▸ hother⟩

end RegLang.StateSet
