import RegLang.Proofs.Linking
import RegLang.Proofs.Running
import RegLang.Proofs.Unfolding
/-!
# Sets of states as states

The subset construction makes a deterministic graph of the words that some state of the start set
accepts.  All it needs to know of the places that the sets hold is that steps stay among them and
that the start points of the graph include the bounds of their transitions.

* `accepts_subsetConstruction`, `isDeterministic_subsetConstruction`.
* `accepts_determinize`, `isDeterministic_determinize`: determinizing, with or without need.
-/

namespace RegLang.Graph

variable {g : Graph} {P : Nat → Prop} {p q : Nat} {c : Char} {w : Word}

/-- Places in the arena, closed under steps, whose transitions the start points take account of. -/
structure Surveyed (g : Graph) (P : Nat → Prop) : Prop where
  lt : ∀ q, P q → q < g.size
  closed : ∀ p c q, P p → q ∈ (g.state p).stepAll c → P q
  cut : ∀ q, P q → ∀ t ∈ (g.state q).transitions, ∀ c ∈ boundaries t, c ∈ g.startPoints

theorem mem_startPoints (hq : g.IsReachable q) {t : Transition}
    (ht : t ∈ (g.state q).transitions) (hc : c ∈ boundaries t) : c ∈ g.startPoints := by
  rw [startPoints, SortedList.mem_ofList]
  apply List.mem_cons_of_mem
  rw [List.mem_flatMap]
  exact ⟨q, mem_reachable_iff.2 hq, List.mem_flatMap.2 ⟨t, ht, hc⟩⟩

theorem pairwise_startPoints (g : Graph) : g.startPoints.Pairwise (· < ·) :=
  Alphabet.pairwise_ofList _

theorem WellFormed.surveyed (hg : g.WellFormed) : Surveyed g g.IsReachable where
  lt _ hq := hg.lt_of_isReachable hq
  closed _ _ _ hp hq := hp.stepAll hq
  cut _ hq _ ht _ hc := mem_startPoints hq ht hc

/-! ## Rows -/

/-- All letters of a class lead to the same set. -/
theorem move_eq_of_class (hP : Surveyed g P) {ms : List Nat} (hms : ∀ q ∈ ms, P q)
    {r : Char × Char} (hr : r ∈ classes g.startPoints) (hc : r.1 ≤ c ∧ c ≤ r.2) :
    g.move ms c = g.move ms r.1 := by
  have hstep : ∀ q ∈ ms, (g.state q).stepAll c = (g.state q).stepAll r.1 := by
    intro q hq
    unfold State.stepAll
    rw [List.filter_congr]
    intro t ht
    rw [Bool.eq_iff_iff]
    exact class_uniform g.pairwise_startPoints hr (hP.cut q (hms q hq) t ht) hc
  have hflat : (ms.flatMap fun q => (g.state q).stepAll c) =
      ms.flatMap fun q => (g.state q).stepAll r.1 := List.flatMap_congr hstep
  unfold move
  rw [hflat]

theorem mem_subsetRow {ks : List (Char × Char)} {s : StateSet} {r : Char × Char × StateSet} :
    r ∈ g.subsetRow ks s ↔ ∃ k ∈ ks, (g.move s.toList k.1).toList ≠ [] ∧
      (k.1, k.2, g.move s.toList k.1) = r := by
  unfold subsetRow
  rw [List.mem_filterMap]
  apply exists_congr
  intro k
  apply and_congr_right
  intro _
  show (if (g.move s.toList k.1).isEmpty = true then none
    else some (k.1, k.2, g.move s.toList k.1)) = some r ↔ _
  by_cases he : (g.move s.toList k.1).isEmpty = true
  · rw [if_pos he]
    simp [(valid_move g _ _).isEmpty_iff.1 he]
  · rw [if_neg he, Option.some.injEq]
    have hne : (g.move s.toList k.1).toList ≠ [] := fun h => he ((valid_move g _ _).isEmpty_iff.2 h)
    simp [hne]

theorem ordered_subsetRow (g : Graph) : Ordered (g.subsetRow (classes g.startPoints)) := by
  intro s r hr
  obtain ⟨k, hk, _, rfl⟩ := mem_subsetRow.1 hr
  exact (class_bounds g.pairwise_startPoints hk).2.1

theorem pairwise_subsetRow (g : Graph) (s : StateSet) :
    (g.subsetRow (classes g.startPoints) s).Pairwise fun r r' => r.2.1 < r'.1 := by
  unfold subsetRow
  rw [List.pairwise_filterMap]
  apply (pairwise_classes g.pairwise_startPoints).imp
  intro k k' hlt r hr r' hr'
  dsimp only at hr hr'
  split at hr
  · cases hr
  · split at hr'
    · cases hr'
    · cases hr
      cases hr'
      exact hlt

theorem closedUnder_subsetRow (g : Graph) (ks : List (Char × Char)) :
    ClosedUnder (g.subsetRow ks) (StateSet.all g.size) := by
  intro s _ r hr
  obtain ⟨k, _, _, rfl⟩ := mem_subsetRow.1 hr
  exact StateSet.ofList_mem_all _ _

/-! ## The machine of sets -/

/-- Whether a set of states accepts. -/
def acceptsAny (g : Graph) (s : StateSet) : Bool := s.toList.any fun q => (g.state q).accept

/-- The sets of states with the steps of the subset construction. -/
abbrev subsets (g : Graph) : Machine StateSet :=
  .ofRows g.acceptsAny (g.subsetRow (classes g.startPoints))

theorem subsets_step_iff (hP : Surveyed g P) {s t : StateSet} (hs : ∀ q ∈ s.toList, P q) :
    g.subsets.step s c t ↔ t = g.move s.toList c ∧ t.toList ≠ [] := by
  constructor
  · rintro ⟨r, hr, hc, rfl⟩
    obtain ⟨k, hk, hne, rfl⟩ := mem_subsetRow.1 hr
    exact ⟨(move_eq_of_class hP hs hk hc).symm, hne⟩
  · rintro ⟨rfl, hne⟩
    obtain ⟨k, hk, hc⟩ := exists_class g.pairwise_startPoints (c := c)
      ⟨Alphabet.first, g.first_mem_startPoints, Alphabet.first_le c⟩
    have he := move_eq_of_class hP hs hk hc
    rw [he] at hne ⊢
    exact ⟨_, mem_subsetRow.2 ⟨k, hk, hne, rfl⟩, hc, rfl⟩

theorem Surveyed.mem_move (hP : Surveyed g P) {ms : List Nat} (hms : ∀ q ∈ ms, P q) :
    q ∈ (g.move ms c).toList ↔ ∃ p ∈ ms, q ∈ (g.state p).stepAll c :=
  mem_toList_move fun p hp r hr => hP.lt r (hP.closed p c r (hms p hp) hr)

theorem Surveyed.of_mem_move (hP : Surveyed g P) {ms : List Nat} (hms : ∀ q ∈ ms, P q) :
    ∀ q ∈ (g.move ms c).toList, P q := by
  intro q hq
  obtain ⟨p, hp, hq⟩ := (hP.mem_move hms).1 hq
  exact hP.closed p c q (hms p hp) hq

/-- A set accepts what one of its members accepts. -/
theorem accepts_subsets (hP : Surveyed g P) {s : StateSet} (hs : ∀ q ∈ s.toList, P q) :
    g.subsets.Accepts s w ↔ ∃ q ∈ s.toList, g.AcceptsFrom q w := by
  induction w generalizing s with
  | nil =>
    rw [Machine.accepts_nil_iff]
    show acceptsAny g s = true ↔ _
    simp only [acceptsAny, List.any_eq_true, acceptsFrom_nil_iff]
  | cons c w ih =>
    rw [Machine.accepts_cons_iff]
    simp only [acceptsFrom_cons_iff]
    constructor
    · rintro ⟨t, ht, hw⟩
      obtain ⟨rfl, _⟩ := (subsets_step_iff hP hs).1 ht
      obtain ⟨q, hq, hw⟩ := (ih (hP.of_mem_move hs)).1 hw
      obtain ⟨p, hp, hq⟩ := (hP.mem_move hs).1 hq
      exact ⟨p, hp, q, hq, hw⟩
    · rintro ⟨p, hp, q, hq, hw⟩
      have hmem := (hP.mem_move hs).2 ⟨p, hp, hq⟩
      exact ⟨g.move s.toList c, (subsets_step_iff hP hs).2 ⟨rfl, List.ne_nil_of_mem hmem⟩,
        (ih (hP.of_mem_move hs)).2 ⟨q, hmem, hw⟩⟩

/-! ## The subset construction -/

theorem capacity_ofList (n : Nat) (xs : List Nat) :
    (StateSet.ofList n xs).capacity = (StateSet.ofCapacity n).capacity :=
  StateSet.capacity_foldl_add xs _

/-- The graph of the sets before it is trimmed. -/
def subsetGraph (g : Graph) (xs : List Nat) : Graph :=
  unfold g.acceptsAny (g.subsetRow (classes g.startPoints))
    (1 <<< (StateSet.ofList g.size xs).capacity) (.ofList g.size xs)

theorem subsetConstruction_eq (g : Graph) (xs : List Nat) :
    g.subsetConstruction (.ofList g.size xs) = (g.subsetGraph xs).trim := rfl

theorem length_all_le (n : Nat) (xs : List Nat) :
    (StateSet.all n).length ≤ 1 <<< (StateSet.ofList n xs).capacity := by
  rw [StateSet.length_all, capacity_ofList]

theorem accepts_subsetGraph (hP : Surveyed g P) {xs : List Nat} (hxs : ∀ q ∈ xs, P q) :
    (g.subsetGraph xs).Accepts w ↔ ∃ q ∈ xs, g.AcceptsFrom q w := by
  have hmem : ∀ q, q ∈ (StateSet.ofList g.size xs).toList ↔ q ∈ xs := fun q =>
    StateSet.mem_toList_ofList_of_lt fun q hq => hP.lt q (hxs q hq)
  have hs : ∀ q ∈ (StateSet.ofList g.size xs).toList, P q := fun q hq => hxs q ((hmem q).1 hq)
  rw [subsetGraph, accepts_unfold (ordered_subsetRow g) (StateSet.ofList_mem_all _ _)
    (closedUnder_subsetRow g _) (length_all_le _ _), accepts_subsets hP hs]
  simp only [hmem]

theorem isDeterministic_subsetGraph (g : Graph) (xs : List Nat) :
    (g.subsetGraph xs).IsDeterministic :=
  isDeterministic_unfold (ordered_subsetRow g) (StateSet.ofList_mem_all _ _)
    (closedUnder_subsetRow g _) (length_all_le _ _) fun s _ => (pairwise_subsetRow g s).imp .inl

theorem accepts_subsetConstruction (hP : Surveyed g P) {xs : List Nat} (hxs : ∀ q ∈ xs, P q) :
    (g.subsetConstruction (.ofList g.size xs)).Accepts w ↔ ∃ q ∈ xs, g.AcceptsFrom q w := by
  rw [subsetConstruction_eq, accepts_trim, accepts_subsetGraph hP hxs]

theorem isDeterministic_subsetConstruction (g : Graph) (xs : List Nat) :
    (g.subsetConstruction (.ofList g.size xs)).IsDeterministic :=
  (isDeterministic_subsetGraph g xs).trim

/-! ## Determinizing -/

theorem accepts_determinize (hg : g.WellFormed) : g.determinize.Accepts w ↔ g.Accepts w := by
  unfold determinize
  split
  · exact Iff.rfl
  · show (g.subsetConstruction (.ofList g.size [g.initial])).Accepts w ↔ _
    rw [accepts_subsetConstruction hg.surveyed]
    · simp [Accepts]
    · intro q hq
      rw [List.mem_singleton.1 hq]
      exact g.isReachable_initial

theorem isDeterministic_determinize (ht : g.Truthful) : g.determinize.IsDeterministic := by
  unfold determinize
  split
  · next h => exact ht h
  · exact isDeterministic_subsetConstruction g [g.initial]

theorem WellFormed.determinize (hg : g.WellFormed) : g.determinize.WellFormed := by
  unfold Graph.determinize
  split
  · exact hg
  · exact (trimmed_trim _).wellFormed

end RegLang.Graph
