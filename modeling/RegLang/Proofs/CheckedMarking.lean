import RegLang.Checked.Marking
import RegLang.Proofs.CheckedGraphs
import RegLang.Proofs.MarkedClasses
/-!
# Marking with checks that succeeds

All pairs that are marked or noted are pairs of states of the graph, so they have a place in the
tables of marks and notes; and every state is given a class, at the latest in its own turn.

* `spread_eq`, `marks_eq`: the marks are those of marking without checks.
* `markedClasses_spec`: so the classes are faithful.
-/

namespace RegLang.Checked

open Table

open RegLang.Marking (Marks Near pairsBelow nexts)

variable {g : Graph} {m : Marks} {n : Nat} {p q r : StatePair}

/-! ## Marks and notes -/

/-- The tables have a place for every pair of states below `n`, and only such pairs are noted. -/
structure Ready (n : Nat) (m : Marks) : Prop where
  sized : m.Sized n
  near : ∀ p, ∀ r ∈ m.notedAt p, Near n r

theorem isMarked_eq (hm : m.Sized n) (hp : Near n p) : isMarked m p = .ok (m.isMarked p) := by
  have hlt : m.place p < m.marked.size := hm.marked_size ▸ hm.place_lt hp
  exact read_eq_ok (by simp [Marks.isMarked, hlt])

theorem mark_eq (hm : m.Sized n) (hp : Near n p) : mark m p = .ok (m.set p) := by
  rw [mark, write_eq_ok (hm.marked_size ▸ hm.place_lt hp)]
  rfl

theorem note_eq (hm : m.Sized n) (hq : Near n q) (p : StatePair) :
    note p m q = .ok (Marks.note p m q) := by
  have hlt : m.place q < m.noted.size := hm.noted_size ▸ hm.place_lt hq
  have hnoted : m.noted.setIfInBounds (m.place q) (p :: m.noted[m.place q]) =
      m.noted.modify (m.place q) (p :: ·) := by
    refine Array.ext_getElem? fun i => ?_
    rw [getElem?_write hlt, Array.getElem?_modify]
    by_cases hi : i = m.place q
    · simp [hi, hlt]
    · rw [if_neg hi, if_neg (Ne.symm hi)]
  rw [note, change_eq_ok (Array.getElem?_eq_getElem hlt), hnoted]
  rfl

theorem Ready.set (hm : Ready n m) (p : StatePair) : Ready n (m.set p) :=
  ⟨hm.sized.set p, hm.near⟩

theorem Ready.note (hm : Ready n m) (hp : Near n p) (q : StatePair) :
    Ready n (Marks.note p m q) := by
  refine ⟨hm.sized.note p q, fun r s hs => ?_⟩
  have hmem : s = p ∨ s ∈ m.notedAt r := by
    unfold Marks.notedAt at hs ⊢
    rw [Array.getD_eq_getD_getElem?] at hs ⊢
    rw [Marks.note, Array.getElem?_modify] at hs
    split at hs
    · cases h : m.noted[m.place r]? <;> simp_all [Marks.place]
    · exact .inr hs
  rcases hmem with rfl | hmem
  · exact hp
  · exact hm.near r s hmem

theorem spread_eq {stack : List StatePair} (fuel : Nat) (hm : Ready n m)
    (hstack : ∀ p ∈ stack, Near n p) :
    spread fuel stack m = .ok (m.spread fuel stack) ∧ Ready n (m.spread fuel stack) := by
  induction fuel generalizing stack m with
  | zero => exact ⟨rfl, hm⟩
  | succ fuel ih =>
    cases stack with
    | nil => exact ⟨rfl, hm⟩
    | cons p rest =>
      have hp : Near n p := hstack p List.mem_cons_self
      have hrest : ∀ q ∈ rest, Near n q := fun q hq => hstack q (List.mem_cons_of_mem p hq)
      have hlt : m.place p < m.noted.size := hm.sized.noted_size ▸ hm.sized.place_lt hp
      have hread : m.noted[m.place p]? = some (m.notedAt p) := by simp [Marks.notedAt, hlt]
      unfold spread Marks.spread
      rw [isMarked_eq hm.sized hp, ok_bind]
      cases hmark : m.isMarked p with
      | true => exact ih hm hrest
      | false =>
        have hfresh : (m.notedAt p).filterM (fun q => (isMarked (m.set p) q).map (!·)) =
            .ok ((m.notedAt p).filter fun q => !(m.set p).isMarked q) := by
          refine filterM_eq_ok fun q hq => ?_
          rw [isMarked_eq (hm.set p).sized (hm.near p q hq)]
          rfl
        rw [if_neg Bool.false_ne_true, if_neg Bool.false_ne_true, read_eq_ok hread, ok_bind,
          mark_eq hm.sized hp, ok_bind]
        dsimp only
        rw [hfresh, ok_bind]
        refine ih (hm.set p) fun q hq => ?_
        rcases List.mem_append.1 hq with hq | hq
        · exact hm.near p q (List.mem_filter.1 hq).1
        · exact hrest q hq

/-! ## Pairs -/

theorem markApart_eq (hm : Ready g.size m) (hp : Near g.size p) : markApart g m p =
    .ok (if (g.state p.1).accept != (g.state p.2).accept then m.set p else m) := by
  rw [markApart, look_eq hp.1, ok_bind, look_eq hp.2, ok_bind, mark_eq hm.sized hp]
  split <;> rfl

theorem examine_eq (hg : g.Prepared) (hm : Ready g.size m) (hp : Near g.size p) (fuel : Nat) :
    examine (Marking.sorted g) fuel m p = .ok (Marking.examine (Marking.sorted g) fuel m p) ∧
      Ready g.size (Marking.examine (Marking.sorted g) fuel m p) := by
  have hread : ∀ q < g.size, (Marking.sorted g)[q]? = some ((Marking.sorted g).getD q []) := by
    intro q hq
    have hq : q < g.states.size := hq
    simp [Marking.sorted, hq]
  have hnear : ∀ r ∈ nexts g p, Near g.size r := fun r => Marking.near_of_mem_nexts hg hp
  have hnexts : (Marking.overlapTargets ((Marking.sorted g).getD p.1 [])
      ((Marking.sorted g).getD p.2 [])).map Marking.ordered = nexts g p :=
    Marking.nextPairs_sorted hp
  unfold examine Marking.examine
  rw [isMarked_eq hm.sized hp, ok_bind]
  cases m.isMarked p with
  | true => exact ⟨rfl, hm⟩
  | false =>
    rw [if_neg Bool.false_ne_true, if_neg Bool.false_ne_true, read_eq_ok (hread _ hp.1), ok_bind,
      read_eq_ok (hread _ hp.2), ok_bind]
    dsimp only
    rw [hnexts, anyM_eq_ok fun q hq => isMarked_eq hm.sized (hnear q hq), ok_bind,
      ← List.not_any_eq_all_not]
    cases (nexts g p).any m.isMarked with
    | true => exact spread_eq fuel hm fun q hq => List.mem_singleton.1 hq ▸ hp
    | false => exact foldlM_eq_ok hm fun m hm q hq =>
        ⟨note_eq hm.sized (hnear q (List.mem_filter.1 hq).1) p, hm.note hp q⟩

theorem ready_start (n : Nat) : Ready n ⟨n, .replicate (n * n) false, .replicate (n * n) []⟩ := by
  refine ⟨⟨rfl, Array.size_replicate, Array.size_replicate⟩, fun p r hr => ?_⟩
  unfold Marks.notedAt at hr
  rw [Array.getD_eq_getD_getElem?, Array.getElem?_replicate] at hr
  split at hr <;> cases hr

theorem marks_eq (hg : g.Prepared) : marks g = .ok (Marking.marks g) ∧
    Ready g.size (Marking.marks g) := by
  have hnear : ∀ p ∈ pairsBelow g.size, Near g.size p := fun p => Marking.near_of_mem_pairsBelow
  obtain ⟨hstart, hready⟩ := foldlM_eq_ok (f := markApart g) (ready_start g.size)
    fun m hm p hp => ⟨markApart_eq hm (hnear p hp), by split; exacts [hm.set p, hm]⟩
  rw [marks, sortedTable_eq, ok_bind, hstart, ok_bind]
  exact foldlM_eq_ok hready fun m hm p hp => examine_eq hg hm (hnear p hp) _

/-! ## Classes -/

variable {s : Array (Option Nat) × Nat} {i : Nat}

theorem joinAll_spec (hm : m.Sized n) {p c : Nat} (hp : p < n) {found : Array (Option Nat)}
    (hsize : found.size = n) {qs : List Nat} (hqs : ∀ q ∈ qs, q < n) :
    Succeeds (qs.foldlM (join m p c) found) fun found' => found'.size = n ∧ ∀ r, found'[r]? =
      if r ∈ qs ∧ m.isMarked (p, r) = false then some (some c) else found[r]? := by
  refine succeeds_foldlM (I := fun (done : List Nat) (found' : Array (Option Nat)) =>
    found'.size = n ∧ ∀ r, found'[r]? =
      if r ∈ done ∧ m.isMarked (p, r) = false then some (some c) else found[r]?)
    ⟨hsize, by simp⟩ ?_
  rintro done q hmem - found' ⟨hsize', hfound'⟩
  have hq : q < n := hqs q hmem
  rw [join, isMarked_eq hm ⟨hp, hq⟩, ok_bind]
  cases hmark : m.isMarked (p, q) with
  | true =>
    refine .pure ⟨hsize', fun r => ?_⟩
    rw [hfound' r]
    by_cases hr : r = q
    · simp [hr, hmark]
    · simp [hr]
  | false =>
    refine .of_eq (write_eq_ok (hsize' ▸ hq) _) ⟨by simpa using hsize', fun r => ?_⟩
    rw [getElem?_write (hsize' ▸ hq), hfound' r]
    by_cases hr : r = q
    · simp [hr, hmark]
    · simp [hr]

theorem assign_eq (hm : m.Sized n) (hs : s.1.size = n) (hi : i < n) :
    assign n m s i = .ok (Marking.assign m s i) := by
  have hi' : i < s.1.size := hs ▸ hi
  have hread : s.1[i]? = some (s.1.getD i none) := by
    simp [hi']
  unfold assign Marking.assign
  rw [read_eq_ok hread, ok_bind]
  cases hfound : s.1.getD i none with
  | some c => rfl
  | none =>
    refine Succeeds.eq_ok ?_
    rw [write_eq_ok hi', ok_bind, if_neg (by simp)]
    refine (joinAll_spec hm hi (by simpa using hs) fun q hq =>
      List.mem_range.1 (List.mem_filter.1 hq).1).bind fun found ⟨hsize, hjoined⟩ => .pure ?_
    refine Prod.ext (Array.ext_getElem? fun q => ?_) rfl
    rw [hjoined q, getElem?_write hi', Array.getElem?_mapIdx]
    by_cases hq : q < n
    · have hget : s.1[q]? = some s.1[q] := Array.getElem?_eq_getElem (hs ▸ hq)
      by_cases hqi : q = i
      · simp [hqi, hi']
      · simp only [hget, hqi, hq, List.mem_filter, List.mem_range, true_and, decide_eq_true_eq,
          Option.map_some, if_false, decide_false, Bool.false_or, Bool.and_eq_true,
          Bool.not_eq_true']
        split <;> rfl
    · have hqi : q ≠ i := fun he => hq (he ▸ hi)
      simp [hs, hq, hqi]

theorem size_assign (m : Marks) (s : Array (Option Nat) × Nat) (i : Nat) :
    (Marking.assign m s i).1.size = s.1.size := by
  unfold Marking.assign
  split
  · rfl
  · exact Array.size_mapIdx

/-- If every state was given a class, none is missed. -/
theorem mapM_classFound (hs : s.1.size = g.size)
    (h : ∀ q < g.size, (Marking.found s q).isSome = true) :
    s.1.toList.mapM classFound = .ok (s.1.toList.map (·.getD 0)) := by
  refine mapM_eq_ok fun c hc => ?_
  obtain ⟨q, hq, rfl⟩ := List.getElem_of_mem hc
  have hq : q < g.size := by simpa [hs] using hq
  obtain ⟨c, hc⟩ := Option.isSome_iff_exists.1 (h q hq)
  have hget : s.1.toList[q] = some c := by
    simpa [Marking.found, hs, hq] using hc
  rw [hget]
  rfl

/-- The classes that are found with checks are faithful. -/
theorem markedClasses_spec (hg : g.Prepared) : Succeeds (markedClasses g) (·.Faithful g) := by
  obtain ⟨hmarks, hready⟩ := marks_eq hg
  have hstep : ∀ s : Array (Option Nat) × Nat, s.1.size = g.size → ∀ i ∈ List.range g.size,
      assign g.size (Marking.marks g) s i = .ok (Marking.assign (Marking.marks g) s i) ∧
        (Marking.assign (Marking.marks g) s i).1.size = g.size := fun s hs i hi =>
    ⟨assign_eq hready.sized hs (List.mem_range.1 hi), (size_assign _ s i).trans hs⟩
  obtain ⟨hfold, hsize⟩ := foldlM_eq_ok (b := (Array.replicate g.size none, 0))
    Array.size_replicate hstep
  have hassigned := Marking.assigned_foldl hg (Nat.le_refl g.size)
  have hclasses := mapM_classFound hsize fun q hq =>
    (hassigned.isSome_iff q hq).2 ⟨q, hq, hq, Graph.Alike.refl g q⟩
  rw [markedClasses, hmarks, ok_bind, hfold, ok_bind]
  dsimp only
  rw [hclasses]
  refine .of_eq ?_ (Marking.faithful_classes hg)
  unfold Marking.classes
  rw [← Array.toList_map]
  rfl

end RegLang.Checked
