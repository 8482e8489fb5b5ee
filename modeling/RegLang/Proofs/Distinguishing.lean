import Mathlib.Algebra.Order.BigOperators.Group.List
import Mathlib.Algebra.Order.Ring.Nat
import RegLang.Proofs.Marks
import RegLang.Proofs.Overlaps
import RegLang.Proofs.Quotients
/-!
# Marking tells apart what can be told apart

Every pair of states is examined once.  Marks are sound, since a pair is marked only if a letter
leads it to a marked one; they are complete, since the pairs that are never marked hold together
states that agree on acceptance and whose steps are never marked either.

* `Progress.examine`: what examining one pair preserves, and that it comes to its end.
* `isMarked_marks`: the marked pairs are those of states that accept different words.
-/

namespace RegLang.Marking

open RegLang.Graph (Alike)
open Transition (sortByLower)

variable {t : Graph} {m : Marks} {p q r : StatePair}

/-! ## Pairs -/

/-- Some word is accepted from one state of the pair alone. -/
def Told (t : Graph) (p : StatePair) : Prop := ¬ Alike t t p.1 p.2

theorem ordered_swap (i j : Nat) : ordered (i, j) = ordered (j, i) := by
  unfold ordered
  dsimp only
  split <;> split <;> first | omega | rfl | skip
  have h : i = j := by omega
  rw [h]

theorem ordered_eq_or (p : StatePair) : ordered p = p ∨ ordered p = (p.2, p.1) := by
  unfold ordered
  split
  · exact .inr rfl
  · exact .inl rfl

theorem near_ordered {n : Nat} (hp : Near n p) : Near n (ordered p) := by
  rcases ordered_eq_or p with h | h <;> rw [h]
  · exact hp
  · exact ⟨hp.2, hp.1⟩

theorem told_ordered : Told t (ordered p) ↔ Told t p := by
  rcases ordered_eq_or p with h | h <;> rw [h]
  unfold Told
  exact not_congr ⟨Alike.symm, Alike.symm⟩

theorem ordered_lt (h : p.1 ≠ p.2) : (ordered p).1 < (ordered p).2 := by
  unfold ordered
  split
  · assumption
  · omega

/-- The pairs of states that one letter leads to, the smaller state first. -/
def nexts (t : Graph) (p : StatePair) : List StatePair :=
  (overlapTargets (sortByLower (t.state p.1).transitions)
    (sortByLower (t.state p.2).transitions)).map ordered

theorem mem_nexts (ht : t.Prepared) (hp : Near t.size p) : r ∈ nexts t p ↔
    ∃ c i j, i ∈ (t.state p.1).stepAll c ∧ j ∈ (t.state p.2).stepAll c ∧ ordered (i, j) = r := by
  unfold nexts
  rw [List.mem_map]
  constructor
  · rintro ⟨s, hs, rfl⟩
    obtain ⟨c, h1, h2⟩ :=
      (Transition.mem_overlapTargets_iff_stepAll (ht.disjoint hp.1) (ht.disjoint hp.2)).1 hs
    exact ⟨c, s.1, s.2, h1, h2, rfl⟩
  · rintro ⟨c, i, j, h1, h2, rfl⟩
    exact ⟨(i, j), (Transition.mem_overlapTargets_iff_stepAll (ht.disjoint hp.1)
      (ht.disjoint hp.2)).2 ⟨c, h1, h2⟩, rfl⟩

theorem near_of_mem_nexts (ht : t.Prepared) (hp : Near t.size p) (hr : r ∈ nexts t p) :
    Near t.size r := by
  obtain ⟨c, i, j, hi, hj, rfl⟩ := (mem_nexts ht hp).1 hr
  exact near_ordered ⟨ht.lt_of_mem_stepAll hp.1 hi, ht.lt_of_mem_stepAll hp.2 hj⟩

/-- A letter that leads to a pair that is told apart tells the pair apart. -/
theorem told_of_mem_nexts (ht : t.Prepared) (hp : Near t.size p) (hr : r ∈ nexts t p)
    (h : Told t r) : Told t p := by
  obtain ⟨c, i, j, hi, hj, rfl⟩ := (mem_nexts ht hp).1 hr
  rw [told_ordered] at h
  exact fun halike => h (ht.alike_of_step hp.1 hp.2 halike hi hj)

theorem length_transitions_le (t : Graph) (i : Nat) :
    (t.state i).transitions.length ≤ t.edgeCount := by
  by_cases hi : i < t.size
  · have hi' : i < t.states.size := hi
    have hmem : t.state i ∈ t.states.toList := by
      simp [Graph.state, Array.getD, hi']
    unfold Graph.edgeCount
    rw [List.length_flatMap]
    exact List.single_le_sum (fun _ _ => Nat.zero_le _) _ (List.mem_map_of_mem hmem)
  · rw [Graph.state_of_not_lt hi]
    exact Nat.zero_le _

theorem length_nexts_le (t : Graph) (p : StatePair) : (nexts t p).length ≤ 2 * t.edgeCount := by
  have h := Transition.length_overlapTargets_le (sortByLower (t.state p.1).transitions)
    (sortByLower (t.state p.2).transitions)
  have h1 := length_transitions_le t p.1
  have h2 := length_transitions_le t p.2
  unfold nexts
  unfold sortByLower at h ⊢
  rw [List.length_mergeSort, List.length_mergeSort] at h
  rw [List.length_map]
  omega

theorem mem_pairsBelow {n : Nat} : p ∈ pairsBelow n ↔ p.1 < p.2 ∧ p.2 < n := by
  obtain ⟨i, j⟩ := p
  simp only [pairsBelow, List.mem_flatMap, List.mem_range, List.mem_filterMap]
  constructor
  · rintro ⟨a, ha, b, hb, h⟩
    split at h
    · next hlt =>
      cases h
      exact ⟨hlt, hb⟩
    · cases h
  · rintro ⟨h1, h2⟩
    exact ⟨i, Nat.lt_trans h1 h2, j, h2, if_pos h1⟩

theorem length_pairsBelow_le (n : Nat) : (pairsBelow n).length ≤ n * n := by
  unfold pairsBelow
  rw [List.length_flatMap]
  have hle : ∀ l ∈ (List.range n).map (fun p => ((List.range n).filterMap fun q =>
      if p < q then some (p, q) else none).length), l ≤ n := by
    intro l hl
    obtain ⟨p, _, rfl⟩ := List.mem_map.1 hl
    exact (List.length_filterMap_le _ _).trans_eq List.length_range
  have h := List.sum_le_card_nsmul _ n hle
  rwa [List.length_map, List.length_range] at h

/-! ## The start -/

/-- Marking some pairs of a list. -/
theorem foldl_set_spec {n : Nat} {ps : List StatePair} (hps : ∀ p ∈ ps, Near n p)
    (f : StatePair → Bool) (hm : m.Sized n) :
    ∃ m' : Marks, ps.foldl (fun m p => if f p then m.set p else m) m = m' ∧ m'.Sized n ∧
      m'.noted = m.noted ∧
      ∀ q, Near n q → (m'.isMarked q = true ↔ (q ∈ ps ∧ f q = true) ∨ m.isMarked q = true) := by
  induction ps generalizing m with
  | nil => exact ⟨m, rfl, hm, rfl, fun q _ => by simp⟩
  | cons p ps ih =>
    have hp := hps p List.mem_cons_self
    have hps' : ∀ q ∈ ps, Near n q := fun q hq => hps q (List.mem_cons_of_mem _ hq)
    rw [List.foldl_cons]
    by_cases hf : f p = true
    · rw [if_pos hf]
      obtain ⟨m', h0, h1, h2, h3⟩ := ih hps' (hm.set p)
      refine ⟨m', h0, h1, h2, fun q hq => ?_⟩
      rw [h3 q hq, hm.isMarked_set hp hq, List.mem_cons]
      constructor
      · rintro (h | rfl | h)
        · exact .inl ⟨.inr h.1, h.2⟩
        · exact .inl ⟨.inl rfl, hf⟩
        · exact .inr h
      · rintro (⟨rfl | h, hq⟩ | h)
        · exact .inr (.inl rfl)
        · exact .inl ⟨h, hq⟩
        · exact .inr (.inr h)
    · rw [if_neg hf]
      obtain ⟨m', h0, h1, h2, h3⟩ := ih hps' hm
      refine ⟨m', h0, h1, h2, fun q hq => ?_⟩
      rw [h3 q hq, List.mem_cons]
      constructor
      · rintro (h | h)
        · exact .inl ⟨.inr h.1, h.2⟩
        · exact .inr h
      · rintro (⟨rfl | h, hq⟩ | h)
        · exact absurd hq hf
        · exact .inl ⟨h, hq⟩
        · exact .inr h

theorem near_of_mem_pairsBelow {n : Nat} (hp : p ∈ pairsBelow n) : Near n p := by
  obtain ⟨h1, h2⟩ := mem_pairsBelow.1 hp
  exact ⟨Nat.lt_trans h1 h2, h2⟩

theorem start_spec (t : Graph) : (start t).Sized t.size ∧ (∀ q, (start t).notedAt q = []) ∧
    (start t).waiting = 0 ∧ ∀ q, Near t.size q → ((start t).isMarked q = true ↔
      q ∈ pairsBelow t.size ∧ (t.state q.1).accept ≠ (t.state q.2).accept) := by
  have hsized : Marks.Sized t.size ⟨t.size, Array.replicate (t.size * t.size) false,
      Array.replicate (t.size * t.size) []⟩ :=
    ⟨rfl, Array.size_replicate, Array.size_replicate⟩
  obtain ⟨m, h0, h1, h2, h3⟩ := foldl_set_spec (fun p hp => near_of_mem_pairsBelow hp)
    (fun p => (t.state p.1).accept != (t.state p.2).accept) hsized
  have hstart : start t = m := h0
  have hnone : ∀ i, m.noted.getD i [] = [] := by
    intro i
    rw [h2, Array.getD_eq_getD_getElem?, Array.getElem?_replicate]
    split <;> rfl
  rw [hstart]
  refine ⟨h1, fun q => hnone _, ?_, fun q hq => ?_⟩
  · apply Finset.sum_eq_zero
    intro i _
    rw [hnone]
    split <;> rfl
  · have hfalse : Marks.isMarked ⟨t.size, Array.replicate (t.size * t.size) false,
        Array.replicate (t.size * t.size) []⟩ q = false := by
      rw [Marks.isMarked, Array.getD_eq_getD_getElem?, Array.getElem?_replicate]
      split <;> rfl
    rw [h3 q hq, hfalse]
    simp

/-! ## Examining pairs -/

/-- What holds while the pairs of `done` have been examined.  A pair is marked only if it is told
apart; a note at a pair tells what is told apart with it; an examined pair is marked, or noted at
all pairs it leads to. -/
structure Progress (t : Graph) (done : List StatePair) (m : Marks) : Prop where
  sized : m.Sized t.size
  sound : ∀ p, Near t.size p → m.isMarked p = true → Told t p
  noted : ∀ p, Near t.size p → ∀ r ∈ m.notedAt p, Near t.size r ∧ (Told t p → Told t r)
  closed : ∀ p, Near t.size p → m.isMarked p = true → ∀ r ∈ m.notedAt p, m.isMarked r = true
  accept : ∀ p ∈ pairsBelow t.size, (t.state p.1).accept ≠ (t.state p.2).accept →
    m.isMarked p = true
  examined : ∀ p ∈ done, Near t.size p ∧
    (m.isMarked p = true ∨ ∀ r ∈ nexts t p, r.1 ≠ r.2 → p ∈ m.notedAt r)
  waiting_le : m.waiting ≤ done.length * (2 * t.edgeCount)

variable {done : List StatePair}

theorem progress_start (t : Graph) : Progress t [] (start t) := by
  obtain ⟨hsized, hnoted, hwaiting, hmarked⟩ := start_spec t
  refine ⟨hsized, ?_, ?_, ?_, ?_, ?_, ?_⟩
  · intro p hp hm halike
    exact ((hmarked p hp).1 hm).2 (Graph.Prepared.accept_eq halike)
  · intro p _ r hr
    rw [hnoted] at hr
    cases hr
  · intro p _ _ r hr
    rw [hnoted] at hr
    cases hr
  · intro p hp hne
    exact (hmarked p (near_of_mem_pairsBelow hp)).2 ⟨hp, hne⟩
  · intro p hp
    cases hp
  · rw [hwaiting]
    omega

/-- Noting one pair at some others. -/
theorem foldl_note_spec {n : Nat} {qs : List StatePair} (hqs : ∀ q ∈ qs, Near n q)
    (p : StatePair) (hm : m.Sized n) :
    ∃ m' : Marks, qs.foldl (Marks.note p) m = m' ∧ m'.Sized n ∧
      (∀ r, m'.isMarked r = m.isMarked r) ∧ m'.waiting ≤ m.waiting + qs.length ∧
      ∀ r, Near n r → ∀ s, s ∈ m'.notedAt r ↔ (r ∈ qs ∧ s = p) ∨ s ∈ m.notedAt r := by
  induction qs generalizing m with
  | nil => exact ⟨m, rfl, hm, fun _ => rfl, Nat.le_refl _, fun r _ s => by simp⟩
  | cons q qs ih =>
    have hq := hqs q List.mem_cons_self
    obtain ⟨m', h0, h1, h2, h3, h4⟩ :=
      ih (fun q hq => hqs q (List.mem_cons_of_mem _ hq)) (hm.note p q)
    refine ⟨m', h0, h1, h2, ?_, fun r hr s => ?_⟩
    · have hle := hm.waiting_note (p := p) hq
      rw [List.length_cons]
      omega
    · rw [h4 r hr, hm.mem_notedAt_note hq hr, List.mem_cons, or_and_right, ← or_assoc]
      exact or_congr_left or_comm

/-- A pair that leads to no marked one is noted at what it leads to. -/
theorem Progress.note (ht : t.Prepared) (h : Progress t done m) (hp : Near t.size p)
    (hnone : ∀ r ∈ nexts t p, m.isMarked r = false) :
    Progress t (p :: done) (((nexts t p).filter fun q => q.1 != q.2).foldl (Marks.note p) m) := by
  have hmem : ∀ {r}, r ∈ (nexts t p).filter (fun q => q.1 != q.2) ↔ r ∈ nexts t p ∧ r.1 ≠ r.2 := by
    intro r
    rw [List.mem_filter, bne_iff_ne]
  obtain ⟨m', h0, h1, h2, h3, h4⟩ := foldl_note_spec
    (fun r hr => near_of_mem_nexts ht hp (hmem.1 hr).1) p h.sized
  rw [h0]
  refine ⟨h1, ?_, ?_, ?_, ?_, ?_, ?_⟩
  · intro q hq hm
    rw [h2] at hm
    exact h.sound q hq hm
  · intro q hq r hr
    rcases (h4 q hq r).1 hr with ⟨hq', rfl⟩ | hr
    · exact ⟨hp, told_of_mem_nexts ht hp (hmem.1 hq').1⟩
    · exact h.noted q hq r hr
  · intro q hq hm r hr
    rw [h2] at hm ⊢
    rcases (h4 q hq r).1 hr with ⟨hq', rfl⟩ | hr
    · rw [hnone q (hmem.1 hq').1] at hm
      cases hm
    · exact h.closed q hq hm r hr
  · intro q hq hne
    rw [h2]
    exact h.accept q hq hne
  · intro q hq
    rw [h2]
    rcases List.mem_cons.1 hq with rfl | hq
    · refine ⟨hp, .inr fun r hr hne => ?_⟩
      exact (h4 r (near_of_mem_nexts ht hp hr) q).2 (.inl ⟨hmem.2 ⟨hr, hne⟩, rfl⟩)
    · obtain ⟨hnear, hq⟩ := h.examined q hq
      refine ⟨hnear, hq.imp_right fun hq r hr hne => ?_⟩
      exact (h4 r (near_of_mem_nexts ht hnear hr) q).2 (.inr (hq r hr hne))
  · have hle := h.waiting_le
    have hlen := List.length_filter_le (fun q : StatePair => q.1 != q.2) (nexts t p)
    have hnext := length_nexts_le t p
    rw [List.length_cons, Nat.succ_mul]
    omega

/-- A pair that leads to a marked one is marked, and what was noted there with it. -/
theorem Progress.spread (h : Progress t done m) (hp : Near t.size p) (htold : Told t p)
    {fuel : Nat} (hf : 1 + m.waiting ≤ fuel) : Progress t (p :: done) (m.spread fuel [p]) ∧
      Loop.Ends Marks.turn ([p], m) ([], m.spread fuel [p]) := by
  have hstart : Marks.Spreading t.size (Told t) m [p] m [p] := by
    refine ⟨h.sized, fun _ => rfl, fun _ _ hm => hm, Nat.le_refl _, h.sound, ?_, ?_, ?_⟩
    · intro q hq
      rw [List.mem_singleton.1 hq]
      exact ⟨hp, htold⟩
    · exact fun q hq hm r hr => .inl (h.closed q hq hm r hr)
    · intro q hq
      rw [List.mem_singleton.1 hq]
      exact ⟨hp, .inr List.mem_cons_self⟩
  have hD : ∀ q, Near t.size q → Told t q → ∀ r ∈ m.notedAt q, Near t.size r ∧ Told t r := by
    intro q hq hd r hr
    obtain ⟨hr, himp⟩ := h.noted q hq r hr
    exact ⟨hr, himp hd⟩
  obtain ⟨hrun, hends⟩ := hstart.run hD fuel hf
  have hmarked : (m.spread fuel [p]).isMarked p = true :=
    (hrun.in_must p List.mem_cons_self).2.resolve_right List.not_mem_nil
  refine ⟨⟨hrun.sized, hrun.sound, ?_, ?_, ?_, ?_, ?_⟩, hends⟩
  · intro q hq r hr
    rw [hrun.noted_eq] at hr
    exact h.noted q hq r hr
  · intro q hq hm r hr
    rw [hrun.noted_eq] at hr
    exact (hrun.closed q hq hm r hr).resolve_right List.not_mem_nil
  · intro q hq hne
    exact hrun.mono q (near_of_mem_pairsBelow hq) (h.accept q hq hne)
  · intro q hq
    rcases List.mem_cons.1 hq with rfl | hq
    · exact ⟨hp, .inl hmarked⟩
    · obtain ⟨hnear, hq⟩ := h.examined q hq
      refine ⟨hnear, ?_⟩
      rcases hq with hm | hq
      · exact .inl (hrun.mono q hnear hm)
      · right
        intro r hr hne
        rw [hrun.noted_eq]
        exact hq r hr hne
  · have h1 := hrun.waiting_le
    have h2 := h.waiting_le
    rw [List.length_cons, Nat.succ_mul]
    omega

theorem getD_sorted {i : Nat} (hi : i < t.size) :
    (sorted t).getD i [] = sortByLower (t.state i).transitions := by
  have hi' : i < t.states.size := hi
  simp [sorted, Graph.state, Array.getD, hi']

theorem nextPairs_sorted (hp : Near t.size p) : nextPairs (sorted t) p = nexts t p := by
  rw [nextPairs, getD_sorted hp.1, getD_sorted hp.2]
  rfl

theorem Progress.examine (ht : t.Prepared) (h : Progress t done m) (hp : Near t.size p)
    {fuel : Nat} (hf : 1 + done.length * (2 * t.edgeCount) ≤ fuel) :
    Progress t (p :: done) (examine (sorted t) fuel m p) ∧
      Examines (sorted t) m p (examine (sorted t) fuel m p) := by
  have hnext := nextPairs_sorted hp
  have hexamine : Marking.examine (sorted t) fuel m p = if m.isMarked p = true then m
      else if (nexts t p).all (fun q => !m.isMarked q) = true then
        ((nexts t p).filter fun q => q.1 != q.2).foldl (Marks.note p) m
      else m.spread fuel [p] := by
    rw [← hnext]
    rfl
  rw [hexamine]
  cases hm : m.isMarked p with
  | true =>
    rw [if_pos rfl]
    refine ⟨{ h with examined := ?_, waiting_le := ?_ }, .known hm⟩
    · intro q hq
      rcases List.mem_cons.1 hq with rfl | hq
      · exact ⟨hp, .inl hm⟩
      · exact h.examined q hq
    · have hle := h.waiting_le
      rw [List.length_cons, Nat.succ_mul]
      omega
  | false =>
    rw [if_neg Bool.false_ne_true]
    by_cases hall : (nexts t p).all (fun q => !m.isMarked q) = true
    · rw [if_pos hall]
      have hapart : ∀ r ∈ nexts t p, m.isMarked r = false := fun r hr => by
        simpa using List.all_eq_true.1 hall r hr
      refine ⟨h.note ht hp hapart, ?_⟩
      rw [← hnext] at hapart ⊢
      exact .noted hm hapart
    · rw [if_neg hall]
      obtain ⟨r, hr, hmr⟩ : ∃ r ∈ nexts t p, m.isMarked r = true := by
        simpa using hall
      have hle := h.waiting_le
      have htold := told_of_mem_nexts ht hp hr (h.sound r (near_of_mem_nexts ht hp hr) hmr)
      exact (h.spread hp htold (by omega)).imp_right (.told hm (hnext ▸ hr) hmr)

theorem Progress.foldl_examine (ht : t.Prepared) {fuel : Nat} {ps : List StatePair}
    (h : Progress t done m) (hps : ∀ p ∈ ps, Near t.size p)
    (hf : 1 + (ps.length + done.length) * (2 * t.edgeCount) ≤ fuel) :
    Progress t (ps.reverse ++ done) (ps.foldl (Marking.examine (sorted t) fuel) m) ∧
      ExaminesAll (sorted t) ps m (ps.foldl (Marking.examine (sorted t) fuel) m) := by
  induction ps generalizing done m with
  | nil => exact ⟨h, .nil⟩
  | cons p ps ih =>
    rw [List.length_cons] at hf
    have hfuel : 1 + done.length * (2 * t.edgeCount) ≤ fuel := by
      have hle : done.length * (2 * t.edgeCount) ≤
          (ps.length + 1 + done.length) * (2 * t.edgeCount) :=
        Nat.mul_le_mul_right _ (by omega)
      omega
    obtain ⟨hnext, hfirst⟩ := h.examine ht (hps p List.mem_cons_self) hfuel
    rw [List.reverse_cons, List.append_assoc]
    refine (ih hnext (fun q hq => hps q (List.mem_cons_of_mem _ hq)) ?_).imp_right (.cons hfirst)
    rw [List.length_cons]
    have he : ps.length + (done.length + 1) = ps.length + 1 + done.length := by omega
    rw [he]
    exact hf

/-- In the end all pairs have been examined. -/
theorem progress_marks (ht : t.Prepared) :
    (∃ done, (∀ p ∈ pairsBelow t.size, p ∈ done) ∧ Progress t done (marks t)) ∧
      ExaminesAll (sorted t) (pairsBelow t.size) (start t) (marks t) := by
  have hlen := length_pairsBelow_le t.size
  have hle := Nat.mul_le_mul_right (2 * t.edgeCount) hlen
  have hfuel : 1 + ((pairsBelow t.size).length + ([] : List StatePair).length) *
      (2 * t.edgeCount) ≤ t.size * t.size * (2 * t.edgeCount) + 1 := by
    rw [List.length_nil, Nat.add_zero]
    omega
  obtain ⟨h, hends⟩ := (progress_start t).foldl_examine ht
    (fun p hp => near_of_mem_pairsBelow hp) hfuel
  exact ⟨⟨_, fun p hp => List.mem_append_left _ (List.mem_reverse.2 hp), h⟩, hends⟩

/-! ## Pairs that are never marked -/

/-- One state twice, or two that are not marked in the end. -/
def Unmarked (t : Graph) (i j : Nat) : Prop :=
  Near t.size (i, j) ∧ (i = j ∨ (marks t).isMarked (ordered (i, j)) = false)

variable {c : Char} {i j k l : Nat}

theorem ordered_mem_pairsBelow {n : Nat} (hp : Near n p) (hne : p.1 ≠ p.2) :
    ordered p ∈ pairsBelow n :=
  mem_pairsBelow.2 ⟨ordered_lt hne, (near_ordered hp).2⟩

/-- The pairs that one letter leads to are found from the pair in its order. -/
theorem ordered_mem_nexts (ht : t.Prepared) (hij : Near t.size (i, j))
    (hk : k ∈ (t.state i).stepAll c) (hl : l ∈ (t.state j).stepAll c) :
    ordered (k, l) ∈ nexts t (ordered (i, j)) := by
  apply (mem_nexts ht (near_ordered hij)).2
  rcases ordered_eq_or (i, j) with he | he <;> rw [he]
  · exact ⟨c, k, l, hk, hl, rfl⟩
  · exact ⟨c, l, k, hl, hk, ordered_swap l k⟩

theorem Unmarked.accept_eq (h : Progress t done (marks t)) (hij : Unmarked t i j) :
    (t.state i).accept = (t.state j).accept := by
  obtain ⟨hnear, rfl | hm⟩ := hij
  · rfl
  · by_contra hacc
    have hne : i ≠ j := fun he => hacc (by rw [he])
    have hmark := h.accept _ (ordered_mem_pairsBelow hnear hne) (by
      rcases ordered_eq_or (i, j) with he | he <;> rw [he]
      · exact hacc
      · exact fun h => hacc h.symm)
    rw [hm] at hmark
    cases hmark

theorem Unmarked.step (ht : t.Prepared) (h : Progress t done (marks t))
    (hdone : ∀ p ∈ pairsBelow t.size, p ∈ done) (hij : Unmarked t i j)
    (hk : k ∈ (t.state i).stepAll c) (hl : l ∈ (t.state j).stepAll c) : Unmarked t k l := by
  obtain ⟨hnear, hij⟩ := hij
  have hself : i = j → k = l := by
    rintro rfl
    exact (ht.disjoint hnear.1).stepAll_unique hk hl
  refine ⟨⟨ht.lt_of_mem_stepAll hnear.1 hk, ht.lt_of_mem_stepAll hnear.2 hl⟩, ?_⟩
  by_cases hkl : k = l
  · exact .inl hkl
  have hm := hij.resolve_left fun he => hkl (hself he)
  have hnext := ordered_mem_nexts ht hnear hk hl
  have hmem := ordered_mem_pairsBelow hnear fun he => hkl (hself he)
  -- the pair was noted at what it leads to, so it would be marked as well
  have hnoted := ((h.examined _ (hdone _ hmem)).2.resolve_left (by simp [hm])) _ hnext
    (Nat.ne_of_lt (ordered_lt hkl))
  right
  rw [Bool.eq_false_iff]
  intro hmark
  have hclosed := h.closed _ (near_of_mem_nexts ht (near_ordered hnear) hnext) hmark _ hnoted
  rw [hm] at hclosed
  cases hclosed

/-- Two states are marked exactly if they accept different words. -/
theorem isMarked_marks (ht : t.Prepared) (hij : i < j) (hj : j < t.size) :
    (marks t).isMarked (i, j) = true ↔ ¬ Alike t t i j := by
  obtain ⟨⟨done, hdone, h⟩, -⟩ := progress_marks ht
  have hnear : Near t.size (i, j) := ⟨Nat.lt_trans hij hj, hj⟩
  refine ⟨h.sound (i, j) hnear, fun hne => ?_⟩
  by_contra hm
  have hunmarked : Unmarked t i j := by
    refine ⟨hnear, .inr ?_⟩
    rw [ordered, if_neg (Nat.lt_asymm hij)]
    exact Bool.eq_false_iff.2 hm
  apply hne
  apply ht.alike_of_respects (R := Unmarked t) _ _ hnear.1 hnear.2 hunmarked
  · exact fun p q hpq => hpq.accept_eq h
  · exact fun p q hpq c r s hr hs => hpq.step ht h hdone hr hs

end RegLang.Marking
