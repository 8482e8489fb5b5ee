import RegLang.Proofs.Determinism
import RegLang.Proofs.Exploration
import RegLang.Proofs.Merging
/-!
# Normal forms keep the language

Reducing, compacting, totalizing and trimming change the stored form of a graph and not what it
accepts.

* `covers_reduce`, `covers_compact`: reducing keeps all steps, compacting renumbers them.
* `mem_stepAll_totalize`: a total graph steps into the sink where there was no step.
* `trimmed_trim`, `accepts_trim`: what trimming leaves.
-/

namespace RegLang

open Transition (Normal Reads)

namespace State

theorem mapTargets_eq_self {f : Nat → Nat} {s : State}
    (h : ∀ t ∈ s.transitions, f t.target = t.target) : s.mapTargets f = s := by
  have hmap : s.transitions.map (fun t => t.retarget (f t.target)) = s.transitions := by
    conv_rhs => rw [← List.map_id s.transitions]
    apply List.map_congr_left
    intro t ht
    rw [h t ht]
    rfl
  unfold mapTargets
  rw [hmap]

/-- Normal transitions are disjoint if those that share a letter have one target. -/
theorem disjoint_of_normal {s : State} (hn : Normal s.transitions)
    (h : ∀ t ∈ s.transitions, ∀ u ∈ s.transitions, ∀ c, t.contains c = true →
      u.contains c = true → t.target = u.target) : s.Disjoint := by
  apply hn.imp_of_mem
  rintro t u ht hu ha c ⟨hct, hcu⟩
  have hq : t.target = u.target := h t ht u hu c hct hcu
  rw [Transition.contains_iff_rank] at hct hcu
  unfold Transition.Apart at ha
  omega

/-- Merging disjoint transitions leaves disjoint ones. -/
theorem Disjoint.reduce {s : State} (h : s.Disjoint) : s.reduce.Disjoint := by
  refine disjoint_of_normal (normal_reduce s) fun t ht u hu c hct hcu => ?_
  apply h.stepAll_unique (c := c)
  · exact mem_stepAll_reduce.1 (mem_stepAll.2 ⟨t, ht, hct, rfl⟩)
  · exact mem_stepAll_reduce.1 (mem_stepAll.2 ⟨u, hu, hcu, rfl⟩)

/-- Merging transitions to a single target leaves disjoint ones. -/
theorem disjoint_reduce_of_target {s : State} {q : Nat} (h : ∀ t ∈ s.transitions, t.target = q) :
    s.reduce.Disjoint := by
  have htarget : ∀ t ∈ s.reduce.transitions, t.target = q := by
    intro t ht
    obtain ⟨u, hu, -, he⟩ := mem_stepAll.1
      (mem_stepAll_reduce.1 (mem_stepAll.2 ⟨t, ht, t.contains_lo, rfl⟩))
    rw [← he]
    exact h u hu
  exact disjoint_of_normal (normal_reduce s) fun t ht u hu _ _ _ =>
    (htarget t ht).trans (htarget u hu).symm

end State

namespace Graph

variable {g : Graph} {p q : Nat} {c : Char} {w : Word}

theorem state_modifyAll_of_lt {places : List Nat} {f : State → State} (hq : q < g.size) :
    (g.modifyAll places f).state q = if q ∈ places then f (g.state q) else g.state q := by
  have h' : q < g.states.size := hq
  simp [modifyAll, state, Array.getD, h']

theorem ext_state {g h : Graph} (hsize : g.size = h.size)
    (hstate : ∀ q < g.size, g.state q = h.state q) (hi : g.initial = h.initial)
    (hd : g.deterministic = h.deterministic) (hc : g.hashCode = h.hashCode) : g = h := by
  have hstates : g.states = h.states := by
    apply Array.ext hsize
    intro i h1 h2
    have hs := hstate i h1
    simpa [state, Array.getD, h1, h2] using hs
  obtain ⟨s, i, d, k⟩ := g
  obtain ⟨s', i', d', k'⟩ := h
  simp only at hstates hi hd hc
  rw [hstates, hi, hd, hc]

/-! ## Reduction -/

theorem state_reduce (hq : g.IsReachable q) : g.reduce.state q = (g.state q).reduce := by
  by_cases hlt : q < g.size
  · rw [reduce, state_modifyAll_of_lt hlt, if_pos (mem_reachable_iff.2 hq)]
  · have hlt' : ¬ q < g.reduce.size := by rwa [size_reduce]
    rw [state_of_not_lt hlt, state_of_not_lt hlt']
    simp [State.reduce, Transition.sortByTarget, Transition.merge]

/-- Reducing keeps every step. -/
theorem covers_reduce (g : Graph) : Covers id (fun _ => True) g g.reduce := by
  have hstate : ∀ q, g.reduce.state q = (g.state q).reduce ∨ g.reduce.state q = g.state q := by
    intro q
    by_cases hlt : q < g.size
    · rw [reduce, state_modifyAll_of_lt hlt]
      split
      · exact .inl rfl
      · exact .inr rfl
    · right
      rw [state_of_not_lt hlt, state_of_not_lt (by rwa [size_reduce])]
  refine ⟨fun _ _ => trivial, ?_, ?_⟩
  · intro q _
    show (g.reduce.state q).accept = true ↔ (g.state q).accept = true
    rcases hstate q with h | h <;> rw [h]
    exact Iff.rfl
  · intro q c p _
    show p ∈ (g.reduce.state q).stepAll c ↔ ∃ r, r ∈ (g.state q).stepAll c ∧ id r = p
    simp only [id_eq, exists_eq_right]
    rcases hstate q with h | h <;> rw [h]
    exact State.mem_stepAll_reduce

theorem acceptsFrom_reduce : g.reduce.AcceptsFrom q w ↔ g.AcceptsFrom q w :=
  g.covers_reduce.acceptsFrom_iff (p := q) trivial

theorem isReachable_reduce : g.reduce.IsReachable q ↔ g.IsReachable q := by
  rw [g.covers_reduce.isReachable_iff trivial rfl]
  simp

theorem IsDeterministic.reduce (h : g.IsDeterministic) : g.reduce.IsDeterministic := by
  intro q hq
  rw [isReachable_reduce] at hq
  rw [state_reduce hq]
  exact (h q hq).reduce

/-! ## Compaction -/

theorem exists_reachable_eq_cons (g : Graph) : ∃ l, g.reachable = g.initial :: l :=
  exists_explore_eq_cons _ _ _

theorem idxOf_initial (g : Graph) : g.reachable.idxOf g.initial = 0 := by
  obtain ⟨l, hl⟩ := g.exists_reachable_eq_cons
  rw [hl, List.idxOf_cons_self]

theorem idxOf_range {n : Nat} (hq : q < n) : (List.range n).idxOf q = q := by
  have h := (List.nodup_range : (List.range n).Nodup).idxOf_getElem q (by simpa using hq)
  rwa [List.getElem_range] at h

@[simp] theorem size_compact (g : Graph) : g.compact.size = g.reachable.length := by
  unfold compact
  dsimp only
  split
  · next h => rw [h, List.length_range]
  · simp [size]

@[simp] theorem initial_compact (g : Graph) : g.compact.initial = 0 := by
  unfold compact
  dsimp only
  split
  · next h =>
    obtain ⟨l, hl⟩ := g.exists_reachable_eq_cons
    rw [h] at hl
    cases hn : g.size with
    | zero =>
      rw [hn] at hl
      cases hl
    | succ n =>
      rw [hn, List.range_succ_eq_map] at hl
      exact (List.cons.inj hl).1.symm
  · rfl

/-- A reachable state is found at its place in breadth-first order. -/
theorem state_compact (hq : g.IsReachable q) :
    g.compact.state (g.reachable.idxOf q) = (g.state q).mapTargets g.reachable.idxOf := by
  have hmem : q ∈ g.reachable := mem_reachable_iff.2 hq
  by_cases h : g.reachable = List.range g.size
  · have hlt : ∀ p, g.IsReachable p → (List.range g.size).idxOf p = p := by
      intro p hp
      apply idxOf_range
      rw [← List.mem_range, ← h]
      exact mem_reachable_iff.2 hp
    rw [compact_eq_self h, h, hlt q hq, State.mapTargets_eq_self]
    intro t ht
    exact hlt _ (hq.target (State.mem_targets.2 ⟨t, ht, rfl⟩))
  · have hi : g.reachable.idxOf q < g.reachable.length := List.idxOf_lt_length_of_mem hmem
    unfold compact
    dsimp only
    rw [if_neg h]
    simp [state, Array.getD, hi]

/-- Compacting renumbers the reachable states. -/
theorem covers_compact (g : Graph) : Covers g.reachable.idxOf g.IsReachable g g.compact :=
  .of_mapTargets (fun _ _ hp hq => hp.target hq) fun _ hp => state_compact hp

theorem accepts_compact : g.compact.Accepts w ↔ g.Accepts w := by
  unfold Accepts
  rw [initial_compact, ← g.idxOf_initial]
  exact g.covers_compact.acceptsFrom_iff g.isReachable_initial

/-- The places of a compact graph are those of reachable states. -/
theorem exists_idxOf_eq (hq : q < g.compact.size) :
    ∃ p, g.IsReachable p ∧ g.reachable.idxOf p = q := by
  rw [size_compact] at hq
  exact ⟨g.reachable[q], mem_reachable_iff.1 (List.getElem_mem hq),
    g.nodup_reachable.idxOf_getElem q hq⟩

theorem isReachable_compact (hq : q < g.compact.size) : g.compact.IsReachable q := by
  rw [g.covers_compact.isReachable_iff g.isReachable_initial
    (g.initial_compact.trans g.idxOf_initial.symm)]
  exact exists_idxOf_eq hq

theorem wellFormed_compact (g : Graph) : g.compact.WellFormed where
  initial_lt := by
    obtain ⟨l, hl⟩ := g.exists_reachable_eq_cons
    rw [initial_compact, size_compact, hl]
    exact Nat.zero_lt_succ _
  target_lt q hq t ht := by
    obtain ⟨p, hp, rfl⟩ := exists_idxOf_eq hq
    rw [state_compact hp] at ht
    obtain ⟨u, hu, rfl⟩ := List.mem_map.1 ht
    rw [size_compact]
    exact List.idxOf_lt_length_of_mem
      (mem_reachable_iff.2 (hp.target (State.mem_targets.2 ⟨u, hu, rfl⟩)))

theorem IsDeterministic.compact (h : g.IsDeterministic) : g.compact.IsDeterministic := by
  intro q hq
  obtain ⟨p, hp, rfl⟩ := exists_idxOf_eq (g.wellFormed_compact.lt_of_isReachable hq)
  rw [state_compact hp]
  exact (h p hp).mapTargets _

/-! ## Totality -/

theorem mem_stepAll_fill {sink : Nat} {s : State} :
    p ∈ (fill sink s).stepAll c ↔ p ∈ s.stepAll c ∨ (p = sink ∧ s.stepAll c = []) := by
  have hgap : (∃ r ∈ gaps (some Alphabet.first) (Transition.sortByLower s.transitions),
      (Transition.between r.1 r.2 sink).contains c = true) ↔ s.stepAll c = [] := by
    have h := mem_gaps_iff (Transition.pairwise_sortByLower s.transitions)
      (n := some Alphabet.first) (c := c)
    simp only [Option.some.injEq, exists_eq_left', Alphabet.first_le, true_and,
      Transition.mem_sortByLower] at h
    rw [show s.stepAll c = [] ↔ ∀ t ∈ s.transitions, t.contains c = false by
      simp [State.stepAll], ← h]
    constructor
    · rintro ⟨r, hr, hc⟩
      rw [Transition.between_of_le (gap_bounds _ hr).2, Transition.contains_iff] at hc
      exact ⟨r, hr, hc⟩
    · rintro ⟨r, hr, hc⟩
      refine ⟨r, hr, ?_⟩
      rw [Transition.between_of_le (gap_bounds _ hr).2, Transition.contains_iff]
      exact hc
  rw [← hgap]
  simp only [State.mem_stepAll, fill, List.mem_append, List.mem_map]
  constructor
  · rintro ⟨t, ht | ⟨r, hr, rfl⟩, hc, rfl⟩
    · exact .inl ⟨t, ht, hc, rfl⟩
    · exact .inr ⟨Transition.between_target _ _ _, r, hr, hc⟩
  · rintro (⟨t, ht, hc, rfl⟩ | ⟨rfl, r, hr, hc⟩)
    · exact ⟨t, .inl ht, hc, rfl⟩
    · exact ⟨_, .inr ⟨r, hr, rfl⟩, hc, Transition.between_target _ _ _⟩

/-- The transitions that fill the gaps of a state. -/
def filling (sink : Nat) (s : State) : List Transition :=
  (gaps (some Alphabet.first) (Transition.sortByLower s.transitions)).map fun r =>
    Transition.between r.1 r.2 sink

theorem transitions_fill (sink : Nat) (s : State) :
    (fill sink s).transitions = s.transitions ++ filling sink s := rfl

/-- What fills a gap leads to the sink, on letters of the gap alone. -/
theorem mem_filling {sink : Nat} {s : State} {t : Transition} (ht : t ∈ filling sink s) :
    t.target = sink ∧
      ∃ r ∈ gaps (some Alphabet.first) (Transition.sortByLower s.transitions),
        t.lo = r.1 ∧ t.hi = r.2 := by
  obtain ⟨r, hr, rfl⟩ := List.mem_map.1 ht
  refine ⟨Transition.between_target _ _ _, r, hr, ?_⟩
  rw [Transition.between_of_le (gap_bounds _ hr).2]
  exact ⟨rfl, rfl⟩

/-- Gaps are filled where no transition applies. -/
theorem contains_eq_false_of_filling {sink : Nat} {s : State} {t u : Transition}
    (ht : t ∈ filling sink s) (hc : t.contains c = true) (hu : u ∈ s.transitions) :
    u.contains c = false := by
  obtain ⟨-, r, hr, hlo, hhi⟩ := mem_filling ht
  rw [Transition.contains_iff, hlo, hhi] at hc
  exact ((mem_gaps_iff (Transition.pairwise_sortByLower s.transitions)).1 ⟨r, hr, hc⟩).2 u
    (Transition.mem_sortByLower.2 hu)

/-- Each gap is filled once. -/
theorem disjoint_filling (sink : Nat) (s : State) :
    (filling sink s).Pairwise fun t u => ∀ c, ¬ (t.contains c = true ∧ u.contains c = true) := by
  apply List.pairwise_map.2
  apply (pairwise_gaps _ _).imp_of_mem
  rintro r r' hr hr' hlt c ⟨h1, h2⟩
  rw [Transition.between_of_le (gap_bounds _ hr).2, Transition.contains_iff_rank] at h1
  rw [Transition.between_of_le (gap_bounds _ hr').2, Transition.contains_iff_rank] at h2
  rw [Alphabet.lt_iff_rank] at hlt
  exact absurd (Nat.le_trans h2.1 h1.2) (Nat.not_le_of_lt hlt)

/-- Filling the gaps of disjoint transitions leaves disjoint ones. -/
theorem disjoint_fill {sink : Nat} {s : State} (h : s.Disjoint) : (fill sink s).Disjoint := by
  apply List.pairwise_append.2 ⟨h, disjoint_filling sink s, ?_⟩
  rintro t ht u hu c ⟨h1, h2⟩
  rw [contains_eq_false_of_filling hu h2 ht] at h1
  cases h1

theorem state_eq_getElem? (g : Graph) (q : Nat) : g.state q = g.states[q]?.getD {} := by
  rw [state, Array.getD_eq_getD_getElem?]

theorem state_totalize (g : Graph) (q : Nat) : g.totalize.state q =
    if q = g.size then { transitions := [Transition.onAny g.size] }
    else (g.modifyAll g.reachable (fill g.size)).state q := by
  have hsize : (g.modifyAll g.reachable (fill g.size)).states.size = g.size :=
    g.size_modifyAll g.reachable (fill g.size)
  rw [state_eq_getElem?, state_eq_getElem?]
  show ((g.modifyAll g.reachable (fill g.size)).states.push _)[q]?.getD {} = _
  rw [Array.getElem?_push, hsize]
  split <;> rfl

theorem state_totalize_of_lt (hq : q < g.size) : g.totalize.state q =
    if q ∈ g.reachable then fill g.size (g.state q) else g.state q := by
  rw [state_totalize, if_neg (Nat.ne_of_lt hq), state_modifyAll_of_lt hq]

theorem state_totalize_sink (g : Graph) :
    g.totalize.state g.size = { transitions := [Transition.onAny g.size] } := by
  rw [state_totalize, if_pos rfl]

theorem mem_stepAll_totalize (hg : g.WellFormed) (hq : g.IsReachable q) :
    p ∈ (g.totalize.state q).stepAll c ↔
      p ∈ (g.state q).stepAll c ∨ (p = g.size ∧ (g.state q).stepAll c = []) := by
  rw [state_totalize_of_lt (hg.lt_of_isReachable hq), if_pos (mem_reachable_iff.2 hq),
    mem_stepAll_fill]

theorem mem_stepAll_sink : p ∈ (g.totalize.state g.size).stepAll c ↔ p = g.size := by
  rw [state_totalize_sink, State.mem_stepAll]
  constructor
  · rintro ⟨t, ht, _, rfl⟩
    rw [List.mem_singleton.1 ht]
    exact Transition.between_target _ _ _
  · rintro rfl
    exact ⟨_, List.mem_singleton.2 rfl, Transition.onAny_contains _ _,
      Transition.between_target _ _ _⟩

theorem accept_totalize (hg : g.WellFormed) (hq : g.IsReachable q) :
    (g.totalize.state q).accept = (g.state q).accept := by
  rw [state_totalize_of_lt (hg.lt_of_isReachable hq), if_pos (mem_reachable_iff.2 hq)]
  rfl

theorem not_acceptsFrom_sink : ¬ g.totalize.AcceptsFrom g.size w := by
  induction w with
  | nil =>
    rw [acceptsFrom_nil_iff, state_totalize_sink]
    exact Bool.false_ne_true
  | cons c w ih =>
    rw [acceptsFrom_cons_iff]
    rintro ⟨p, hp, hw⟩
    rw [mem_stepAll_sink] at hp
    subst hp
    exact ih hw

theorem acceptsFrom_totalize (hg : g.WellFormed) (hq : g.IsReachable q) :
    g.totalize.AcceptsFrom q w ↔ g.AcceptsFrom q w := by
  induction w generalizing q with
  | nil => rw [acceptsFrom_nil_iff, acceptsFrom_nil_iff, accept_totalize hg hq]
  | cons c w ih =>
    rw [acceptsFrom_cons_iff, acceptsFrom_cons_iff]
    constructor
    · rintro ⟨p, hp, hw⟩
      rcases (mem_stepAll_totalize hg hq).1 hp with hp | ⟨rfl, _⟩
      · exact ⟨p, hp, (ih (hq.stepAll hp)).1 hw⟩
      · exact absurd hw not_acceptsFrom_sink
    · rintro ⟨p, hp, hw⟩
      exact ⟨p, (mem_stepAll_totalize hg hq).2 (.inl hp), (ih (hq.stepAll hp)).2 hw⟩

/-- Totalizing adds no reachable state but the sink. -/
theorem isReachable_of_totalize (hg : g.WellFormed) (hq : g.totalize.IsReachable q) :
    g.IsReachable q ∨ q = g.size := by
  refine hq.induct (P := fun q => g.IsReachable q ∨ q = g.size) (.inl g.isReachable_initial) ?_
  rintro p c r _ (hp | rfl) hr
  · rcases (mem_stepAll_totalize hg hp).1 hr with hr | ⟨rfl, _⟩
    · exact .inl (hp.stepAll hr)
    · exact .inr rfl
  · exact .inr (mem_stepAll_sink.1 hr)

/-- Every reachable state of a total graph has a step on every letter. -/
theorem exists_step_totalize (hg : g.WellFormed) (hq : g.totalize.IsReachable q) (c : Char) :
    ∃ p, p ∈ (g.totalize.state q).stepAll c := by
  rcases isReachable_of_totalize hg hq with hq | rfl
  · cases hs : (g.state q).stepAll c with
    | nil => exact ⟨g.size, (mem_stepAll_totalize hg hq).2 (.inr ⟨rfl, hs⟩)⟩
    | cons p ps =>
      refine ⟨p, (mem_stepAll_totalize hg hq).2 (.inl ?_)⟩
      rw [hs]
      exact List.mem_cons_self
  · exact ⟨g.size, mem_stepAll_sink.2 rfl⟩

theorem IsDeterministic.totalize (hg : g.WellFormed) (h : g.IsDeterministic) :
    g.totalize.IsDeterministic := by
  intro q hq
  rcases isReachable_of_totalize hg hq with hq | rfl
  · rw [state_totalize_of_lt (hg.lt_of_isReachable hq), if_pos (mem_reachable_iff.2 hq)]
    exact disjoint_fill (h q hq)
  · rw [state_totalize_sink]
    exact List.pairwise_singleton _ _

theorem WellFormed.totalize (hg : g.WellFormed) : g.totalize.WellFormed where
  initial_lt := by
    rw [size_totalize]
    exact Nat.lt_succ_of_lt hg.initial_lt
  target_lt q hq t ht := by
    rw [size_totalize] at hq ⊢
    rcases Nat.lt_or_eq_of_le (Nat.le_of_lt_succ hq) with hlt | rfl
    · rw [state_totalize_of_lt hlt] at ht
      split at ht
      · rcases List.mem_append.1 ht with ht | ht
        · have hlt := hg.target_lt q hlt t ht
          omega
        · obtain ⟨r, _, rfl⟩ := List.mem_map.1 ht
          rw [Transition.between_target]
          omega
      · have hlt := hg.target_lt q hlt t ht
        omega
    · rw [state_totalize_sink] at ht
      rw [List.mem_singleton.1 ht]
      show (Transition.between _ _ g.size).target < _
      rw [Transition.between_target]
      omega

/-! ## Trimming -/

/-- The graph without its transitions to states that are not live. -/
def prune (g : Graph) : Graph :=
  { g with states := g.states.map (restrict g.live), hashCode := none }

theorem trim_eq (g : Graph) : g.trim = g.prune.compact.reduce := rfl

theorem state_prune (g : Graph) (q : Nat) : g.prune.state q = restrict g.live (g.state q) := by
  rw [state_eq_getElem?, state_eq_getElem?]
  show (g.states.map (restrict g.live))[q]?.getD {} = _
  rw [Array.getElem?_map]
  cases g.states[q]? <;> rfl

theorem mem_stepAll_prune :
    p ∈ (g.prune.state q).stepAll c ↔ p ∈ (g.state q).stepAll c ∧ g.IsLive p := by
  rw [state_prune, State.mem_stepAll, State.mem_stepAll]
  simp only [restrict, List.mem_filter, List.contains_eq_mem, decide_eq_true_eq, mem_live_iff]
  constructor
  · rintro ⟨t, ⟨ht, hl⟩, hc, rfl⟩
    exact ⟨⟨t, ht, hc, rfl⟩, hl⟩
  · rintro ⟨⟨t, ht, hc, rfl⟩, hl⟩
    exact ⟨t, ⟨ht, hl⟩, hc, rfl⟩

theorem acceptsFrom_prune (hq : g.IsReachable q) :
    g.prune.AcceptsFrom q w ↔ g.AcceptsFrom q w := by
  induction w generalizing q with
  | nil =>
    rw [acceptsFrom_nil_iff, acceptsFrom_nil_iff, state_prune]
    exact Iff.rfl
  | cons c w ih =>
    simp only [acceptsFrom_cons_iff, mem_stepAll_prune]
    constructor
    · rintro ⟨p, ⟨hp, _⟩, hw⟩
      exact ⟨p, hp, (ih (hq.stepAll hp)).1 hw⟩
    · rintro ⟨p, hp, hw⟩
      exact ⟨p, ⟨hp, hq.stepAll hp, w, hw⟩, (ih (hq.stepAll hp)).2 hw⟩

theorem isReachable_of_prune (hq : g.prune.IsReachable q) : g.IsReachable q :=
  hq.induct g.isReachable_initial fun _ _ _ _ hp hr => hp.stepAll (mem_stepAll_prune.1 hr).1

theorem IsDeterministic.prune (h : g.IsDeterministic) : g.prune.IsDeterministic := by
  intro q hq
  rw [state_prune]
  exact (h q (isReachable_of_prune hq)).sublist List.filter_sublist

/-- A graph whose arena holds the reachable states only, the initial one first, whose transitions
all lead to states that can accept, and stand in normal form. -/
structure Trimmed (m : Graph) : Prop where
  wellFormed : m.WellFormed
  initial_eq : m.initial = 0
  reachable : ∀ q < m.size, m.IsReachable q
  live : ∀ q < m.size, ∀ t ∈ (m.state q).transitions, ∃ w, m.AcceptsFrom t.target w
  normal : ∀ q < m.size, Normal (m.state q).transitions

theorem WellFormed.reduce (hg : g.WellFormed) : g.reduce.WellFormed where
  initial_lt := by
    rw [size_reduce]
    exact hg.initial_lt
  target_lt q hq t ht := by
    rw [size_reduce] at hq ⊢
    obtain ⟨c, hc⟩ := State.exists_mem_stepAll (State.mem_targets.2 ⟨t, ht, rfl⟩)
    obtain ⟨r, hr, he⟩ := (g.covers_reduce.step (s := q) trivial).1 hc
    rw [← he]
    exact hg.lt_of_mem_stepAll hq hr

theorem trimmed_trim (g : Graph) : g.trim.Trimmed := by
  rw [trim_eq]
  have hwf := g.prune.wellFormed_compact
  refine ⟨hwf.reduce, initial_compact _, ?_, ?_, ?_⟩
  · intro q hq
    rw [size_reduce] at hq
    exact isReachable_reduce.2 (isReachable_compact hq)
  · intro q hq t ht
    rw [size_reduce] at hq
    obtain ⟨c, hc⟩ := State.exists_mem_stepAll (State.mem_targets.2 ⟨t, ht, rfl⟩)
    obtain ⟨r, hr, he⟩ := (g.prune.compact.covers_reduce.step (s := q) trivial).1 hc
    obtain ⟨p, hp, rfl⟩ := exists_idxOf_eq hq
    obtain ⟨u, hu, rfl⟩ := (g.prune.covers_compact.step hp).1 hr
    obtain ⟨hu', _, w, hw⟩ := mem_stepAll_prune.1 hu
    refine ⟨w, ?_⟩
    rw [← he, id_eq, acceptsFrom_reduce, g.prune.covers_compact.acceptsFrom_iff (hp.stepAll hu),
      acceptsFrom_prune ((isReachable_of_prune hp).stepAll hu')]
    exact hw
  · intro q hq
    rw [size_reduce] at hq
    rw [state_reduce (isReachable_compact hq)]
    exact State.normal_reduce _

theorem accepts_trim : g.trim.Accepts w ↔ g.Accepts w := by
  rw [trim_eq]
  exact acceptsFrom_reduce.trans (accepts_compact.trans (acceptsFrom_prune g.isReachable_initial))

theorem IsDeterministic.trim (h : g.IsDeterministic) : g.trim.IsDeterministic :=
  h.prune.compact.reduce

end Graph

end RegLang
