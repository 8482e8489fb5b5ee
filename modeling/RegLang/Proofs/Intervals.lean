import RegLang.Proofs.Chaining
import RegLang.Proofs.EdgeClosure
import RegLang.Proofs.Minimization
import RegLang.Proofs.Tasks
/-!
# Numbers in an interval

With a fixed width the tree of tasks accepts the numbers in an interval.  Without one its start
absorbs the items behind leading zeros and loops on zero, so a number may have fewer digits than
the tree is deep, or more.

* `mem_epsilonClosure_of_star`: edges that nothing continues are all there is to their closure.
* `accepts_skipZeros`: what is accepted behind zeros.
* `computes_ofInterval`: the numbers between two bounds.
-/

namespace RegLang

/-! ## Edges that nothing continues -/

theorem mem_epsilonClosure_of_star {pairs : List StatePair} {p : StatePair}
    (h : ∀ p ∈ pairs, ∀ k ∈ pairs, k.1 ≠ p.2) : p ∈ epsilonClosure pairs ↔ p ∈ pairs := by
  obtain ⟨a, b⟩ := p
  rw [mem_epsilonClosure]
  refine ⟨fun hab => ?_, fun hab => .single hab⟩
  obtain ⟨x, hax, hxb⟩ := Relation.TransGen.head'_iff.1 hab
  obtain rfl | ⟨y, hxy, -⟩ := hxb.cases_head
  · exact hax
  · exact absurd rfl (h (a, x) hax (x, y) hxy)

namespace Interval

open RegLang.Graph (Covers NeverEnters WellFormed)

variable {g : Graph} {places : List Nat} {p q r : Nat} {c : Char} {v w x y : Word}

/-! ## Zeros that are skipped -/

/-- The empty edges from the start to some places. -/
def edges (places : List Nat) (g : Graph) : List StatePair :=
  epsilonClosure ((places.filter (· != g.initial)).map (g.initial, ·))

theorem mem_edges {e : StatePair} :
    e ∈ edges places g ↔ e.1 = g.initial ∧ e.2 ∈ places ∧ e.2 ≠ g.initial := by
  have hpairs : ∀ e, e ∈ (places.filter (· != g.initial)).map (g.initial, ·) ↔
      e.1 = g.initial ∧ e.2 ∈ places ∧ e.2 ≠ g.initial := by
    rintro ⟨a, b⟩
    rw [List.mem_map]
    constructor
    · rintro ⟨q, hq, he⟩
      obtain ⟨rfl, rfl⟩ := Prod.mk.inj he
      obtain ⟨hq, hne⟩ := List.mem_filter.1 hq
      exact ⟨rfl, hq, bne_iff_ne.1 hne⟩
    · rintro ⟨rfl, hb, hne⟩
      exact ⟨b, List.mem_filter.2 ⟨hb, bne_iff_ne.2 hne⟩, rfl⟩
  unfold edges
  rw [mem_epsilonClosure_of_star, hpairs]
  intro p hp k hk
  rw [hpairs] at hp hk
  rw [hk.1]
  exact hp.2.2.symm

/-- The places that the start absorbs. -/
def absorbed (places : List Nat) (g : Graph) : List Nat := (edges places g).map (·.2)

theorem mem_absorbed : p ∈ absorbed places g ↔ p ∈ places ∧ p ≠ g.initial := by
  unfold absorbed
  rw [List.mem_map]
  constructor
  · rintro ⟨e, he, rfl⟩
    exact (mem_edges.1 he).2
  · exact fun h => ⟨(g.initial, p), mem_edges.2 ⟨rfl, h⟩, rfl⟩

theorem foldl_absorb {pairs : List StatePair} {i : Nat} (h : ∀ p ∈ pairs, p.1 = i) :
    pairs.foldl (fun g p => g.absorb p.1 p.2) g = g.absorbFrom i (pairs.map (·.2)) := by
  induction pairs generalizing g with
  | nil => rfl
  | cons p pairs ih =>
    rw [List.foldl_cons, List.map_cons, h p List.mem_cons_self,
      ih fun q hq => h q (List.mem_cons_of_mem _ hq)]
    rfl

theorem skipZeros_eq (places : List Nat) (g : Graph) : skipZeros places g =
    (((g.absorbFrom g.initial (absorbed places g)).setDeterministic false).addTransition g.initial
      (.single '0' g.initial)).setDeterministic false := by
  show ((((edges places g).foldl (fun g p => g.absorb p.1 p.2) g).setDeterministic
    false).addTransition _ _).setDeterministic false = _
  rw [foldl_absorb fun p hp => (mem_edges.1 hp).1]
  rfl

theorem initial_skipZeros : (skipZeros places g).initial = g.initial := by
  rw [skipZeros_eq, Graph.initial_setDeterministic, Graph.initial_addTransition,
    Graph.initial_setDeterministic, Graph.initial_absorbFrom]

theorem state_skipZeros_of_ne (hq : q ≠ g.initial) : (skipZeros places g).state q = g.state q := by
  rw [skipZeros_eq, Graph.state_setDeterministic, Graph.addTransition, Graph.state_modify,
    if_neg fun h => hq h.1, Graph.state_setDeterministic, Graph.state_absorbFrom_of_ne hq]

theorem state_skipZeros_initial (hg : g.WellFormed) : (skipZeros places g).state g.initial =
    ((g.absorbFrom g.initial (absorbed places g)).state g.initial).push
      (.single '0' g.initial) := by
  rw [skipZeros_eq, Graph.state_setDeterministic, Graph.addTransition, Graph.state_modify,
    Graph.state_setDeterministic, Graph.size_setDeterministic, Graph.size_absorbFrom,
    if_pos ⟨rfl, hg.initial_lt⟩]

theorem initial_notMem_absorbed : g.initial ∉ absorbed places g := fun h =>
  (mem_absorbed.1 h).2 rfl

/-- The start or a place that it absorbs. -/
def Start (places : List Nat) (g : Graph) (p : Nat) : Prop := p = g.initial ∨ p ∈ places

theorem start_iff : Start places g p ↔ p = g.initial ∨ p ∈ absorbed places g := by
  unfold Start
  rw [mem_absorbed]
  by_cases hp : p = g.initial
  · simp [hp]
  · simp [hp]

theorem accept_skipZeros (hg : g.WellFormed) :
    ((skipZeros places g).state g.initial).accept = true ↔
      ∃ p, Start places g p ∧ (g.state p).accept = true := by
  rw [state_skipZeros_initial hg, State.accept_push,
    Graph.accept_absorbFrom hg.initial_lt initial_notMem_absorbed]
  simp only [start_iff, or_and_right, exists_or, exists_eq_left]

/-- The start steps where one of the places does, or stays on a zero. -/
theorem mem_stepAll_skipZeros (hg : g.WellFormed) :
    r ∈ ((skipZeros places g).state g.initial).stepAll c ↔
      (∃ p, Start places g p ∧ r ∈ (g.state p).stepAll c) ∨ (c = '0' ∧ r = g.initial) := by
  rw [state_skipZeros_initial hg, State.mem_stepAll_push,
    Graph.mem_stepAll_absorbFrom hg.initial_lt initial_notMem_absorbed, Graph.single_contains_iff]
  simp only [start_iff, or_and_right, exists_or, exists_eq_left]
  exact or_congr_right (and_congr_right fun _ => eq_comm)

/-- All but the start go on as before. -/
theorem covers_skipZeros (hnever : g.NeverEnters g.initial) :
    Covers id (· ≠ g.initial) g (skipZeros places g) :=
  hnever.covers fun _ hq => state_skipZeros_of_ne hq

/-- Any zeros, and then what one of the places accepts. -/
theorem accepts_skipZeros (hg : g.WellFormed) (hnever : g.NeverEnters g.initial) :
    (skipZeros places g).Accepts w ↔ ∃ k v, List.replicate k '0' ++ v = w ∧
      ∃ p, Start places g p ∧ g.AcceptsFrom p v := by
  have hrest : ∀ p c r, r ∈ (g.state p).stepAll c → ∀ {w},
      ((skipZeros places g).AcceptsFrom r w ↔ g.AcceptsFrom r w) := fun p c r hr _ =>
    (covers_skipZeros hnever).acceptsFrom_iff (p := r) fun he => hnever p c (he ▸ hr)
  unfold Graph.Accepts
  rw [initial_skipZeros]
  induction w with
  | nil =>
    rw [Graph.acceptsFrom_nil_iff, accept_skipZeros hg]
    constructor
    · rintro ⟨p, hp, ha⟩
      exact ⟨0, [], rfl, p, hp, Graph.acceptsFrom_nil_iff.2 ha⟩
    · rintro ⟨k, v, he, p, hp, hv⟩
      obtain ⟨_, rfl⟩ := List.append_eq_nil_iff.1 he
      exact ⟨p, hp, Graph.acceptsFrom_nil_iff.1 hv⟩
  | cons c w ih =>
    rw [Graph.acceptsFrom_cons_iff]
    constructor
    · rintro ⟨r, hr, hw⟩
      rcases (mem_stepAll_skipZeros hg).1 hr with ⟨p, hp, hr⟩ | ⟨rfl, rfl⟩
      · exact ⟨0, c :: w, rfl, p, hp, Graph.acceptsFrom_cons_iff.2 ⟨r, hr, (hrest p c r hr).1 hw⟩⟩
      · obtain ⟨k, v, rfl, hv⟩ := ih.1 hw
        exact ⟨k + 1, v, rfl, hv⟩
    · rintro ⟨k, v, he, p, hp, hv⟩
      cases k with
      | zero =>
        obtain rfl : v = c :: w := he
        obtain ⟨r, hr, hw⟩ := Graph.acceptsFrom_cons_iff.1 hv
        exact ⟨r, (mem_stepAll_skipZeros hg).2 (.inl ⟨p, hp, hr⟩), (hrest p c r hr).2 hw⟩
      | succ k =>
        obtain ⟨rfl, rfl⟩ := List.cons.inj he
        exact ⟨g.initial, (mem_stepAll_skipZeros hg).2 (.inr ⟨rfl, rfl⟩),
          ih.2 ⟨k, v, rfl, p, hp, hv⟩⟩

/-! ## Items behind zeros -/

open Numeral (AllDigits value)

variable {t t' : Task} {it it' : Item} {fuel j k : Nat} {way : List Nat}

/-- A zero leads from one task to another that the lower bound still is part of. -/
inductive AfterZero : Task → Task → Prop
  | same (x y : Word) : AfterZero (.between ('0' :: x) ('0' :: y)) (.between x y)
  | apart {d : Char} (x y : Word) (h : '0' ≠ d) :
      AfterZero (.between ('0' :: x) (d :: y)) (.atLeast x)
  | lower (x : Word) : AfterZero (.atLeast ('0' :: x)) (.atLeast x)

/-- The lower bound demands at least one more digit. -/
inductive Demands : Task → Prop
  | between (c d : Char) (x y : Word) : Demands (.between (c :: x) (d :: y))
  | atLeast (c : Char) (x : Word) : Demands (.atLeast (c :: x))

theorem AfterZero.mem_row (h : AfterZero t t') : ('0', '0', 0 :: way, t') ∈ row (way, t) := by
  cases h with
  | same x y =>
    unfold row
    rw [Task.branches_between_same]
    exact List.mem_cons_self
  | apart x y h =>
    simp only [row, Task.branches, if_neg h]
    exact List.mem_mapIdx.2 ⟨0, by simp, rfl⟩
  | lower x => exact List.mem_cons_self

/-- Behind a zero the next task holds of what the task holds of. -/
theorem AfterZero.holds_iff (h : AfterZero t t') (ht : t.Valid) :
    t.Holds ('0' :: w) ↔ t'.Holds w := by
  cases h with
  | same x y =>
    rw [Task.holds_between_cons_same ht.1 ht.2.1 (Nat.add_right_cancel ht.2.2.1)]
    exact and_iff_right rfl
  | @apart d x y h =>
    have hlt : '0' < d := by
      have hle := (Numeral.isDigit_iff.1 (Numeral.allDigits_cons.1 ht.2.1).1).1
      rw [Alphabet.le_iff_rank] at hle
      rw [Alphabet.lt_iff_rank]
      exact Nat.lt_of_le_of_ne hle fun he => h (Alphabet.rank_inj he)
    rw [Task.holds_between_cons_of_lt ht.1 ht.2.1 (Nat.add_right_cancel ht.2.2.1) hlt]
    constructor
    · rintro (⟨_, hw⟩ | ⟨he, _⟩ | ⟨hlt, _⟩)
      · exact hw
      · exact absurd he h
      · exact absurd hlt (Char.lt_irrefl _)
    · exact fun hw => .inl ⟨rfl, hw⟩
  | lower x =>
    rw [Task.holds_atLeast_cons ht]
    constructor
    · rintro (⟨_, hw⟩ | ⟨hlt, _⟩)
      · exact hw
      · exact absurd hlt (Char.lt_irrefl _)
    · exact fun hw => .inl ⟨rfl, hw⟩

theorem AfterZero.valid (h : AfterZero t t') (ht : t.Valid) : t'.Valid := by
  have hrow : ('0', '0', [0], t') ∈ row ([], t) := h.mem_row
  exact valid_of_mem_row ht hrow

/-- A lower bound that admits a zero begins with one. -/
theorem eq_zero_of_holds_atLeast (hx : AllDigits (c :: x))
    (hw : (Task.atLeast (c :: x)).Holds ('0' :: w)) : c = '0' := by
  have hle := (Numeral.isDigit_iff.1 (Numeral.allDigits_cons.1 hx).1).1
  rcases (Task.holds_atLeast_cons hx).1 hw with ⟨he, _⟩ | ⟨hlt, _⟩
  · exact he.symm
  · rw [Alphabet.le_iff_rank] at hle
    rw [Alphabet.lt_iff_rank] at hlt
    omega

theorem exists_afterZero (ht : t.Valid) (hd : Demands t) (hw : t.Holds ('0' :: w)) :
    ∃ t', AfterZero t t' := by
  cases hd with
  | between c d x y =>
    obtain rfl := eq_zero_of_holds_atLeast ht.1 ((Task.holds_between ht.2.2.1).1 hw).1
    by_cases hzero : '0' = d
    · subst hzero
      exact ⟨_, .same x y⟩
    · exact ⟨_, .apart x y hzero⟩
  | atLeast c x =>
    obtain rfl := eq_zero_of_holds_atLeast ht hw
    exact ⟨_, .lower x⟩

theorem mem_padding_succ : it ∈ padding (fuel + 1) (way, t) ↔ Demands t ∧
    (it = (way, t) ∨ ∃ t', AfterZero t t' ∧ it ∈ padding fuel (0 :: way, t')) := by
  match t with
  | .any n =>
    exact ⟨fun h => absurd h List.not_mem_nil, fun h => nomatch h.1⟩
  | .atMost y =>
    exact ⟨fun h => absurd h List.not_mem_nil, fun h => nomatch h.1⟩
  | .atLeast [] =>
    exact ⟨fun h => absurd h List.not_mem_nil, fun h => nomatch h.1⟩
  | .between [] y =>
    exact ⟨fun h => absurd h List.not_mem_nil, fun h => nomatch h.1⟩
  | .between (c :: x) [] =>
    exact ⟨fun h => absurd h List.not_mem_nil, fun h => nomatch h.1⟩
  | .atLeast (c :: x) =>
    rw [and_iff_right (Demands.atLeast c x)]
    show it ∈ (way, _) :: (if c = '0' then padding fuel (0 :: way, .atLeast x) else []) ↔ _
    rw [List.mem_cons, List.mem_ite_nil_right]
    apply or_congr_right
    constructor
    · rintro ⟨rfl, h⟩
      exact ⟨_, .lower x, h⟩
    · rintro ⟨_, ⟨⟩, h⟩
      exact ⟨rfl, h⟩
  | .between (c :: x) (d :: y) =>
    rw [and_iff_right (Demands.between c d x y)]
    show it ∈ (way, _) :: (if c = '0' then padding fuel (0 :: way, if c = d then .between x y
      else .atLeast x) else []) ↔ _
    rw [List.mem_cons, List.mem_ite_nil_right]
    apply or_congr_right
    constructor
    · rintro ⟨rfl, h⟩
      by_cases hzero : '0' = d
      · rw [if_pos hzero] at h
        subst hzero
        exact ⟨_, .same x y, h⟩
      · rw [if_neg hzero] at h
        exact ⟨_, .apart x y hzero, h⟩
    · rintro ⟨_, ⟨⟩ | ⟨_, _, hne⟩, h⟩
      · exact ⟨rfl, by rwa [if_pos rfl]⟩
      · exact ⟨rfl, by rwa [if_neg hne]⟩

/-- A task that demands a digit holds of words that have one. -/
theorem Demands.ne_nil (hd : Demands t) (hw : t.Holds w) : w ≠ [] := by
  rintro rfl
  cases hd with
  | between c d x y => cases hw.2.1
  | atLeast c x => cases hw.2.1

/-- Behind a zero the lower bound goes on, so it demands what is still to be read. -/
theorem AfterZero.demands (h : AfterZero t t') (ht : t'.Valid) (hw : t'.Holds w) (hne : w ≠ []) :
    Demands t' := by
  obtain ⟨c, w, rfl⟩ := List.exists_cons_of_ne_nil hne
  cases h with
  | same x y =>
    match x, y, ht, hw with
    | [], _, _, hw => cases hw.2.1
    | _ :: _, [], ht, _ => cases ht.2.2.1
    | c :: x, d :: y, _, _ => exact .between c d x y
  | apart x y h =>
    match x, hw with
    | [], hw => cases hw.2.1
    | c :: x, _ => exact .atLeast c x
  | lower x =>
    match x, hw with
    | [], hw => cases hw.2.1
    | c :: x, _ => exact .atLeast c x

/-- What an item behind zeros holds of, the first item holds of behind these zeros. -/
theorem exists_zeros_of_mem_padding (hlen : x.length = y.length) (ht : t.Valid)
    (hmem : (way, t) ∈ treeItems x y) (hit : it ∈ padding fuel (way, t)) :
    it ∈ treeItems x y ∧ it.2.Valid ∧
      ∀ w, it.2.Holds w → w ≠ [] ∧ ∃ j, t.Holds (List.replicate j '0' ++ w) := by
  induction fuel generalizing way t with
  | zero => cases hit
  | succ fuel ih =>
    obtain ⟨hd, rfl | ⟨t', hzero, hit⟩⟩ := mem_padding_succ.1 hit
    · exact ⟨hmem, ht, fun w hw => ⟨hd.ne_nil hw, 0, hw⟩⟩
    · have hrow : ('0', '0', 0 :: way, t') ∈ row (way, t) := hzero.mem_row
      have hmem' := closedUnder_treeItems hlen _ hmem _ hrow
      obtain ⟨h1, h2, h3⟩ := ih (hzero.valid ht) hmem' hit
      refine ⟨h1, h2, fun w hw => ?_⟩
      obtain ⟨hne, j, hj⟩ := h3 w hw
      exact ⟨hne, j + 1, (hzero.holds_iff ht).2 hj⟩

/-- What the first item holds of behind zeros, an item behind zeros holds of. -/
theorem exists_mem_padding (ht : t.Valid) (hd : Demands t) (hw : w ≠ [])
    (hzeros : t.Holds (List.replicate j '0' ++ w)) (hfuel : j < fuel) :
    ∃ it ∈ padding fuel (way, t), it.2.Holds w := by
  induction fuel generalizing way t j with
  | zero => cases hfuel
  | succ fuel ih =>
    cases j with
    | zero => exact ⟨(way, t), mem_padding_succ.2 ⟨hd, .inl rfl⟩, hzeros⟩
    | succ j =>
      obtain ⟨t', ht'⟩ := exists_afterZero ht hd hzeros
      have hrest := (ht'.holds_iff ht).1 hzeros
      have hd' : Demands t' := ht'.demands (ht'.valid ht) hrest (by simp [hw])
      obtain ⟨it, hit, hholds⟩ := ih (ht'.valid ht) hd' hrest (Nat.lt_of_succ_lt_succ hfuel)
      exact ⟨it, mem_padding_succ.2 ⟨hd, .inr ⟨t', ht', hit⟩⟩, hholds⟩

/-! ## The numbers between two bounds -/

variable {lo hi digits width : Nat}

/-- The digits of the lower and of the upper bound. -/
abbrev boundTask (width lo hi : Nat) : Task :=
  .between (Numeral.padded 10 width lo) (Numeral.padded 10 width hi)

theorem length_padded_lo (h : lo ≤ hi) (hw : (Numeral.decimal hi).length ≤ width) :
    (Numeral.padded 10 width lo).length = width :=
  Numeral.length_padded_of_le (Nat.le_trans (Numeral.length_decimal_mono h) hw)

theorem valid_boundTask (h : lo ≤ hi) (hw : (Numeral.decimal hi).length ≤ width) :
    (boundTask width lo hi).Valid := by
  refine ⟨Numeral.allDigits_padded _ _, Numeral.allDigits_padded _ _, ?_, ?_⟩
  · rw [length_padded_lo h hw, Numeral.length_padded_of_le hw]
  · rwa [Numeral.value_padded, Numeral.value_padded]

theorem holds_boundTask (h : lo ≤ hi) (hw : (Numeral.decimal hi).length ≤ width) :
    (boundTask width lo hi).Holds w ↔
      AllDigits w ∧ w.length = width ∧ lo ≤ value w ∧ value w ≤ hi := by
  show AllDigits w ∧ w.length = (Numeral.padded 10 width lo).length ∧
    value (Numeral.padded 10 width lo) ≤ value w ∧ value w ≤ value (Numeral.padded 10 width hi) ↔ _
  rw [length_padded_lo h hw, Numeral.value_padded, Numeral.value_padded]

/-- The tree of the two bounds. -/
abbrev boundGraph (width lo hi : Nat) : Graph :=
  treeGraph (Numeral.padded 10 width lo) (Numeral.padded 10 width hi)

/-- With a fixed width the tree accepts the numbers of that width. -/
theorem accepts_boundGraph (h : lo ≤ hi) (hd : 0 < digits)
    (hw : (Numeral.decimal hi).length ≤ digits) :
    (boundGraph digits lo hi).Accepts w ↔ w ∈ numbersBetween lo hi digits := by
  rw [accepts_treeGraph (valid_boundTask h hw), holds_boundTask h hw]
  constructor
  · rintro ⟨hall, hlen, hlo, hhi⟩
    refine ⟨?_, hall, hlo, hhi, .inr hlen⟩
    rintro rfl
    rw [← hlen] at hd
    exact absurd hd (Nat.lt_irrefl 0)
  · rintro ⟨_, hall, hlo, hhi, hlen⟩
    exact ⟨hall, hlen.resolve_left (Nat.ne_of_gt hd), hlo, hhi⟩

/-- The place of an item in the tree of the two bounds. -/
abbrev boundPlace (width lo hi : Nat) : Item → Nat :=
  place (Numeral.padded 10 width lo) (Numeral.padded 10 width hi)

/-- The places behind zeros. -/
def paddedPlaces (width lo hi : Nat) : List Nat :=
  (padding (width + 1) ([], boundTask width lo hi)).map (boundPlace width lo hi)

theorem demands_boundTask (h : lo ≤ hi) (hw : (Numeral.decimal hi).length ≤ width)
    (hpos : 0 < width) : Demands (boundTask width lo hi) := by
  obtain ⟨c, x, hx⟩ := List.exists_cons_of_length_pos (by rwa [length_padded_lo h hw])
  obtain ⟨d, y, hy⟩ := List.exists_cons_of_length_pos (by rwa [Numeral.length_padded_of_le hw])
  unfold boundTask
  rw [hx, hy]
  exact .between c d x y

/-- The places that begin a number accept what the items behind zeros hold of. -/
theorem exists_start_iff (h : lo ≤ hi) (hw : (Numeral.decimal hi).length ≤ width)
    (hpos : 0 < width) :
    (∃ p, Start (paddedPlaces width lo hi) (boundGraph width lo hi) p ∧
      (boundGraph width lo hi).AcceptsFrom p w) ↔
    ∃ it ∈ padding (width + 1) ([], boundTask width lo hi), it.2.Holds w := by
  have hvalid := valid_boundTask h hw
  have hstart := start_mem_treeItems (Numeral.padded 10 width lo) (Numeral.padded 10 width hi)
  have hitem : ∀ it ∈ padding (width + 1) ([], boundTask width lo hi),
      ((boundGraph width lo hi).AcceptsFrom (boundPlace width lo hi it) w ↔ it.2.Holds w) := by
    intro it hit
    obtain ⟨hmem, ht, _⟩ := exists_zeros_of_mem_padding hvalid.2.2.1 hvalid hstart hit
    exact acceptsFrom_treeGraph hvalid.2.2.1 hmem ht
  have hfirst : ([], boundTask width lo hi) ∈ padding (width + 1) ([], boundTask width lo hi) :=
    mem_padding_succ.2 ⟨demands_boundTask h hw hpos, .inl rfl⟩
  constructor
  · rintro ⟨p, rfl | hp, hacc⟩
    · have hplace : boundPlace width lo hi ([], boundTask width lo hi) = 0 := place_start _ _
      refine ⟨_, hfirst, (hitem _ hfirst).1 ?_⟩
      rw [hplace]
      exact hacc
    · obtain ⟨it, hit, rfl⟩ := List.mem_map.1 hp
      exact ⟨it, hit, (hitem it hit).1 hacc⟩
  · rintro ⟨it, hit, hholds⟩
    exact ⟨_, .inr (List.mem_map_of_mem hit), (hitem it hit).2 hholds⟩

theorem neverEnters_boundGraph (h : lo ≤ hi) (hw : (Numeral.decimal hi).length ≤ width) :
    (boundGraph width lo hi).NeverEnters (boundGraph width lo hi).initial :=
  initial_notMem_stepAll_treeGraph (valid_boundTask h hw).2.2.1

/-- What an item behind zeros holds of is a number between the bounds. -/
theorem between_of_mem_padding (h : lo ≤ hi) (hw : (Numeral.decimal hi).length ≤ width)
    (hit : it ∈ padding (width + 1) ([], boundTask width lo hi)) (hv : it.2.Holds v) :
    v ≠ [] ∧ AllDigits v ∧ lo ≤ value v ∧ value v ≤ hi := by
  have hvalid := valid_boundTask h hw
  have hstart := start_mem_treeItems (Numeral.padded 10 width lo) (Numeral.padded 10 width hi)
  obtain ⟨_, _, hzeros⟩ := exists_zeros_of_mem_padding hvalid.2.2.1 hvalid hstart hit
  obtain ⟨hne, j, hj⟩ := hzeros v hv
  obtain ⟨hall, _, hlo, hhi⟩ := (holds_boundTask h hw).1 hj
  rw [Numeral.value_zeros_append] at hlo hhi
  exact ⟨hne, (Numeral.allDigits_append.1 hall).2, hlo, hhi⟩

/-- A number between the bounds that is not too long is what some item behind zeros holds of. -/
theorem mem_padding_of_between (h : lo ≤ hi) (hw : (Numeral.decimal hi).length ≤ width)
    (hne : v ≠ []) (hall : AllDigits v) (hlen : j + v.length = width) (hlo : lo ≤ value v)
    (hhi : value v ≤ hi) :
    ∃ it ∈ padding (width + 1) ([], boundTask width lo hi), it.2.Holds v := by
  have hpos : 0 < width := by
    have hv := List.length_pos_iff.2 hne
    omega
  refine exists_mem_padding (j := j) (valid_boundTask h hw) (demands_boundTask h hw hpos) hne ?_
    (by omega)
  rw [holds_boundTask h hw, Numeral.value_zeros_append, List.length_append, List.length_replicate]
  exact ⟨Numeral.allDigits_append.2 ⟨Numeral.allDigits_zeros j, hall⟩, hlen, hlo, hhi⟩

/-- With zeros skipped the tree accepts the numbers of any length. -/
theorem accepts_skipZeros_boundGraph (h : lo ≤ hi)
    (hwidth : width = (Numeral.decimal hi).length) :
    (skipZeros (paddedPlaces width lo hi) (boundGraph width lo hi)).Accepts w ↔
      w ∈ numbersBetween lo hi 0 := by
  have hw : (Numeral.decimal hi).length ≤ width := Nat.le_of_eq hwidth.symm
  have hpos : 0 < width := hwidth ▸ Numeral.length_decimal_pos hi
  rw [accepts_skipZeros (wellFormed_treeGraph (valid_boundTask h hw).2.2.1)
    (neverEnters_boundGraph h hw)]
  simp only [exists_start_iff h hw hpos]
  constructor
  · rintro ⟨k, v, rfl, it, hit, hv⟩
    obtain ⟨hne, hall, hlo, hhi⟩ := between_of_mem_padding h hw hit hv
    rw [← Numeral.value_zeros_append k v] at hlo hhi
    exact ⟨by simp [hne], Numeral.allDigits_append.2 ⟨Numeral.allDigits_zeros k, hall⟩, hlo, hhi,
      .inl rfl⟩
  · rintro ⟨hne, hall, hlo, hhi, _⟩
    rcases Nat.le_total w.length width with hle | hge
    · have hlen : width - w.length + w.length = width := Nat.sub_add_cancel hle
      exact ⟨0, w, rfl, mem_padding_of_between h hw hne hall hlen hlo hhi⟩
    · -- a word that is too long has zeros in front
      have hlt : value w < 10 ^ width := by
        rw [hwidth]
        exact Nat.lt_of_le_of_lt hhi (Numeral.lt_pow_length_decimal hi)
      obtain ⟨v, he, hlen⟩ := Numeral.exists_zeros_append hall hlt hge
      generalize w.length - width = k at he
      subst he
      rw [Numeral.value_zeros_append] at hlo hhi
      have hv : v ≠ [] := List.ne_nil_of_length_pos (by omega)
      exact ⟨k, v, rfl, mem_padding_of_between h hw hv (Numeral.allDigits_append.1 hall).2
        (by omega : 0 + v.length = width) hlo hhi⟩

/-- The graph of an interval whose bounds fit into its width. -/
theorem graph_spec (h : lo ≤ hi) (hd : digits = 0 ∨ (Numeral.decimal hi).length ≤ digits) :
    (graph lo hi digits).WellFormed ∧ (graph lo hi digits).Truthful ∧
      (graph lo hi digits).language = numbersBetween lo hi digits := by
  rcases Nat.eq_zero_or_pos digits with rfl | hpos
  · have heq : graph lo hi 0 = (skipZeros (paddedPlaces (Numeral.decimal hi).length lo hi)
        (boundGraph (Numeral.decimal hi).length lo hi)).compact := rfl
    rw [heq]
    refine ⟨Graph.wellFormed_compact _, fun hflag => ?_, ?_⟩
    · rw [Graph.deterministic_compact] at hflag
      cases hflag
    · ext w
      exact Graph.accepts_compact.trans (accepts_skipZeros_boundGraph h rfl)
  · have hw := hd.resolve_left (Nat.ne_of_gt hpos)
    have heq : graph lo hi digits = (boundGraph digits lo hi).compact := by
      unfold graph
      simp only [hpos, if_true]
      rfl
    rw [heq]
    refine ⟨Graph.wellFormed_compact _, fun _ => ?_, ?_⟩
    · exact (isDeterministic_treeGraph (valid_boundTask h hw).2.2.1).compact
    · ext w
      exact Graph.accepts_compact.trans (accepts_boundGraph h hpos hw)

end Interval

namespace Automaton

variable {lo hi digits : Nat}

/-- Bounds that are in order and fit into the width are those of a graph, which is minimized. -/
theorem ofInterval_eq_minimize (h : lo ≤ hi)
    (hd : digits = 0 ∨ (Numeral.decimal hi).length ≤ digits) :
    ofInterval lo hi digits = (graph (Interval.graph lo hi digits)).minimize .hopcroft := by
  have hfits : ¬ (decide (0 < digits) && decide (digits < (Numeral.decimal hi).length)) = true := by
    rw [Bool.and_eq_true, decide_eq_true_iff, decide_eq_true_iff]
    omega
  unfold ofInterval
  rw [if_neg (Nat.not_lt.2 h), if_neg hfits]

/-- The numbers between two bounds that are in order and fit into the width. -/
theorem computes_ofInterval (h : lo ≤ hi)
    (hd : digits = 0 ∨ (Numeral.decimal hi).length ≤ digits) :
    Computes (ofInterval lo hi digits) (numbersBetween lo hi digits) := by
  obtain ⟨hwf, ht, hl⟩ := Interval.graph_spec h hd
  rw [ofInterval_eq_minimize h hd, ← hl]
  exact computes_minimize .hopcroft (a := .graph _) ⟨hwf, ht⟩

end Automaton

end RegLang
