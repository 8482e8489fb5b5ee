import RegLang.Proofs.Minimality
import RegLang.Proofs.Reversal
/-!
# Canonical numbering

A graph of discovered sets has its transitions in ascending order of letters, so breadth-first
order meets new states in the order of the words that lead there.  Together with minimality this
leaves no choice at all: reducing such a graph gives one and the same graph for one language.

* `Ascending.eraseDups_targets`: the order in which ascending transitions first meet their targets
  depends on what they read alone.
* `Canonical.reduce_eq`: canonical graphs of one language reduce to equal graphs.
* `canonical_reversedSubsets`: reversing a deterministic graph makes a canonical one.
* `minimal_reverse_reverse`, `reverse_reverse_eq`: two reversals make the minimal graph, and the
  same one for every graph of a language.
-/

namespace RegLang

namespace Transition

open Alphabet (rank)

/-! ## Ascending transitions -/

/-- Some letter leads to `p` and no letter up to there to `q`. -/
def Before (ts : List Transition) (p q : Nat) : Prop :=
  ∃ c, Reads ts c p ∧ ∀ d, rank d ≤ rank c → ¬ Reads ts d q

theorem Before.asymm {ts : List Transition} {p q : Nat} (h : Before ts p q) :
    ¬ Before ts q p := by
  rintro ⟨d, hd, hq⟩
  obtain ⟨c, hc, hp⟩ := h
  rcases Nat.le_total (rank c) (rank d) with hle | hle
  · exact hq c hle hc
  · exact hp d hle hd

theorem mem_eraseDups_targets {ts : List Transition} {q : Nat} :
    q ∈ (ts.map (·.target)).eraseDups ↔ ∃ c, Reads ts c q := by
  rw [List.mem_eraseDups, List.mem_map]
  constructor
  · rintro ⟨t, ht, rfl⟩
    exact ⟨t.lo, t, ht, t.contains_lo, rfl⟩
  · rintro ⟨c, t, ht, _, rfl⟩
    exact ⟨t, ht, rfl⟩

/-- Targets other than `q` are read alike with and without the transitions to `q`. -/
theorem reads_filter_iff {ts : List Transition} {q r : Nat} {c : Char} (hr : r ≠ q) :
    Reads (ts.filter fun t => !t.target == q) c r ↔ Reads ts c r := by
  constructor
  · rintro ⟨t, ht, hc, he⟩
    exact ⟨t, (List.mem_filter.1 ht).1, hc, he⟩
  · rintro ⟨t, ht, hc, rfl⟩
    exact ⟨t, List.mem_filter.2 ⟨ht, by simpa using hr⟩, hc, rfl⟩

/-- Ascending transitions meet their targets one before the other. -/
theorem Ascending.pairwise_before {ts : List Transition} (h : Ascending ts) :
    (ts.map (·.target)).eraseDups.Pairwise (Before ts) := by
  induction hn : ts.length using Nat.strongRecOn generalizing ts with
  | _ n ih =>
    cases ts with
    | nil => exact List.Pairwise.nil
    | cons t us =>
      obtain ⟨ht, hus⟩ := List.pairwise_cons.1 h
      have hlen := List.length_filter_le (fun u : Transition => !u.target == t.target) us
      rw [List.length_cons] at hn
      rw [List.map_cons, List.eraseDups_cons, List.filter_map]
      have hfilter : Ascending (us.filter fun u => !u.target == t.target) :=
        hus.sublist List.filter_sublist
      have htail := ih _ (by omega) hfilter rfl
      have hne : ∀ q ∈ ((us.filter fun u => !u.target == t.target).map (·.target)).eraseDups,
          q ≠ t.target := by
        intro q hq
        rw [List.mem_eraseDups, List.mem_map] at hq
        obtain ⟨u, hu, rfl⟩ := hq
        simpa using (List.mem_filter.1 hu).2
      have hreads : ∀ {c q}, q ≠ t.target → (Reads (t :: us) c q ↔
          Reads (us.filter fun u => !u.target == t.target) c q) := by
        intro c q hq
        rw [reads_filter_iff hq, reads_cons_iff]
        exact or_iff_right fun h => hq h.2.symm
      apply List.pairwise_cons.2 ⟨?_, ?_⟩
      · intro q hq
        refine ⟨t.lo, ⟨t, List.mem_cons_self, t.contains_lo, rfl⟩, ?_⟩
        rintro d hd ⟨u, hu, hc, he⟩
        rcases List.mem_cons.1 hu with rfl | hu
        · exact hne q hq he.symm
        · have hlt := ht u hu
          have hle := t.rank_lo_le_hi
          rw [contains_iff_rank] at hc
          omega
      · apply htail.imp_of_mem
        rintro p q hp hq ⟨c, hc, hd⟩
        exact ⟨c, (hreads (hne p hp)).2 hc, fun d hle hr => hd d hle ((hreads (hne q hq)).1 hr)⟩

/-- The order of the targets depends on what the transitions read alone. -/
theorem Ascending.eraseDups_targets {ts us : List Transition} (h : Ascending ts)
    (h' : Ascending us) (hr : ∀ c q, Reads ts c q ↔ Reads us c q) :
    (ts.map (·.target)).eraseDups = (us.map (·.target)).eraseDups := by
  have hperm : (ts.map (·.target)).eraseDups.Perm (us.map (·.target)).eraseDups := by
    apply (List.perm_ext_iff_of_nodup (nodup_eraseDups _) (nodup_eraseDups _)).2
    intro q
    simp only [mem_eraseDups_targets, hr]
  have hbefore : Before us = Before ts := by
    funext p q
    simp only [Before, hr]
  have hus := h'.pairwise_before
  rw [hbefore] at hus
  exact hperm.eq_of_pairwise (fun p q _ _ hpq hqp => absurd hqp hpq.asymm) h.pairwise_before hus

end Transition

namespace Graph

open Transition (Ascending Reads)

variable {g h : Graph} {p q : Nat} {c : Char} {w : Word}

/-! ## Canonical graphs -/

/-- A compact graph without dead ends, whose states are told apart by what they accept and have
their transitions in ascending order. -/
structure Canonical (g : Graph) : Prop where
  wellFormed : g.WellFormed
  reachable : g.reachable = List.range g.size
  ascending : ∀ q < g.size, Ascending (g.state q).transitions
  noDeadEnds : g.NoDeadEnds
  distinct : g.Distinct

theorem Canonical.isReachable (hg : g.Canonical) (hq : q < g.size) : g.IsReachable q := by
  rw [← mem_reachable_iff, hg.reachable]
  exact List.mem_range.2 hq

theorem Canonical.minimal (hg : g.Canonical) : g.Minimal where
  isDeterministic q hq := by
    apply (hg.ascending q (hg.wellFormed.lt_of_isReachable hq)).imp
    rintro t u hlt c ⟨ht, hu⟩
    rw [Transition.contains_iff_rank] at ht hu
    omega
  noDeadEnds := hg.noDeadEnds
  distinct := hg.distinct

/-- Exploration of a graph does not change with more fuel than it has. -/
theorem reachable_eq_explore {n : Nat} (hn : g.edgeCount + 1 ≤ n) :
    g.reachable = explore (fun q => (g.state q).targets) n [g.initial] := by
  have hs : [g.initial] ⊆ g.mentioned := List.cons_subset_cons _ (List.nil_subset _)
  exact (explore_eq_of_le hs (fun p _ => g.targets_subset_mentioned p)
    (Nat.le_of_eq g.length_mentioned) hn).symm

/-- A covering keeps the order in which the targets of a state are first met. -/
theorem Canonical.eraseDups_targets (hg : g.Canonical) (hh : h.Canonical) {f : Nat → Nat}
    (hf : Covers f g.IsReachable g h) (hq : g.IsReachable q) (hfq : h.IsReachable (f q)) :
    (h.state (f q)).targets.eraseDups = ((g.state q).targets.map f).eraseDups := by
  have hasc := hg.ascending q (hg.wellFormed.lt_of_isReachable hq)
  have hasc' := hh.ascending (f q) (hh.wellFormed.lt_of_isReachable hfq)
  have hmap : (g.state q).targets.map f = ((g.state q).mapTargets f).targets := by
    simp [State.targets, State.mapTargets]
  have hmapped : Ascending ((g.state q).mapTargets f).transitions := List.pairwise_map.2 hasc
  rw [hmap]
  apply hasc'.eraseDups_targets hmapped
  intro c r
  rw [← State.mem_stepAll_iff_reads, ← State.mem_stepAll_iff_reads, State.mem_stepAll_mapTargets]
  exact hf.step hq

/-- If the images of the first numbers, in order, are the first numbers again, then each number is
its own image. -/
theorem eq_self_of_map_range {f : Nat → Nat} {m n : Nat}
    (h : List.range n = (List.range m).map f) : m = n ∧ ∀ q < m, f q = q := by
  have hlen := congrArg List.length h
  rw [List.length_map, List.length_range, List.length_range] at hlen
  refine ⟨hlen.symm, fun q hq => ?_⟩
  have hget := congrArg (·[q]?) h
  simp only [List.getElem?_map] at hget
  rw [List.getElem?_range (hlen ▸ hq), List.getElem?_range hq] at hget
  exact (Option.some.inj hget).symm

/-- The states of canonical graphs of one language have the same numbers. -/
theorem Canonical.exists_covers (hg : g.Canonical) (hh : h.Canonical)
    (hl : ∀ w, g.Accepts w ↔ h.Accepts w) : g.size = h.size ∧ Covers id g.IsReachable g h := by
  obtain ⟨f, hi, hf, ha⟩ := hh.minimal.exists_covers hg.minimal.isDeterministic hg.noDeadEnds hl
  have inj : ∀ p q, g.IsReachable p → g.IsReachable q → f p = f q → p = q := by
    intro p q hp hq he
    have hpa := (ha p hp).2
    rw [he] at hpa
    exact hg.distinct p q hp hq (hpa.trans (ha q hq).2.symm)
  have hstart : ∀ q ∈ [g.initial], g.IsReachable q := fun q hq =>
    List.mem_singleton.1 hq ▸ g.isReachable_initial
  -- both graphs are explored in lockstep
  have hlock := explore_map (fun q => (g.state q).targets) (fun q => (h.state q).targets) inj
    (fun p q hp hq => hp.target hq) (fun q hq => hg.eraseDups_targets hh hf hq (ha q hq).1)
    (max (g.edgeCount + 1) (h.edgeCount + 1)) hstart
  rw [List.map_singleton, hi, ← reachable_eq_explore (Nat.le_max_left _ _),
    ← reachable_eq_explore (Nat.le_max_right _ _), hg.reachable, hh.reachable] at hlock
  obtain ⟨hsize, hself⟩ := eq_self_of_map_range hlock
  exact ⟨hsize, hf.congr fun q hq => hself q (hg.wellFormed.lt_of_isReachable hq)⟩

/-- Canonical graphs of one language reduce to equal graphs. -/
theorem Canonical.reduce_eq (hg : g.Canonical) (hh : h.Canonical)
    (hl : ∀ w, g.Accepts w ↔ h.Accepts w) (hi : g.initial = h.initial)
    (hd : g.deterministic = h.deterministic) : g.reduce = h.reduce := by
  obtain ⟨hsize, hf⟩ := hg.exists_covers hh hl
  apply ext_state
  · rw [size_reduce, size_reduce, hsize]
  · intro q hq
    rw [size_reduce] at hq
    have hr := hg.isReachable hq
    rw [state_reduce hr, state_reduce (hh.isReachable (hsize ▸ hq))]
    have hacc : (g.state q).accept = (h.state q).accept := Bool.eq_iff_iff.2 (hf.accept hr).symm
    have htrans : (g.state q).reduce.transitions = (h.state q).reduce.transitions := by
      apply (State.normal_reduce _).eq_of_reads (State.normal_reduce _)
      intro c r
      rw [← State.mem_stepAll_iff_reads, ← State.mem_stepAll_iff_reads, State.mem_stepAll_reduce,
        State.mem_stepAll_reduce]
      have hstep : r ∈ (h.state q).stepAll c ↔ ∃ s, s ∈ (g.state q).stepAll c ∧ id s = r :=
        hf.step hr
      simpa using hstep.symm
    show State.mk _ _ = State.mk _ _
    rw [hacc]
    exact congrArg (State.mk _) htrans
  · exact hi
  · exact hd
  · rfl

/-- Trimming a canonical graph is reducing it. -/
theorem Canonical.trim_eq_reduce (hg : g.Canonical) (hc : g.hashCode = none) :
    g.trim = g.reduce := by
  have hprune : g.prune = g := by
    have hsize : g.prune.size = g.size := by simp [prune, size]
    apply ext_state hsize
    · intro q hq
      rw [hsize] at hq
      have hr := hg.isReachable hq
      have hfilter : (g.state q).transitions.filter (fun t => g.live.contains t.target) =
          (g.state q).transitions := by
        apply List.filter_eq_self.2
        intro t ht
        have hmem := State.mem_targets.2 ⟨t, ht, rfl⟩
        rw [List.contains_iff_mem, mem_live_iff]
        exact ⟨hr.target hmem, hg.noDeadEnds q hr _ hmem⟩
      rw [state_prune, restrict, hfilter]
    · rfl
    · rfl
    · exact hc.symm
  rw [trim_eq, hprune, compact_eq_self hg.reachable]

/-! ## Reversing a deterministic graph -/

/-- The sets that are met when the reversed words are read. -/
def metSets (g : Graph) : List StateSet :=
  discover (g.reverse.subsetRow (classes g.reverse.startPoints))
    (1 <<< (StateSet.ofList g.reverse.size g.acceptStates).capacity)
    (.ofList g.reverse.size g.acceptStates)

theorem reversedSubsets_eq (g : Graph) : g.reversedSubsets =
    ofItems g.reverse.acceptsAny (g.reverse.subsetRow (classes g.reverse.startPoints)) g.metSets :=
  rfl

theorem of_mem_metSets (hg : g.WellFormed) {s : StateSet} (hs : s ∈ g.metSets) :
    s ∈ StateSet.all g.reverse.size ∧ ∀ q ∈ s.toList, g.IsLive q :=
  mem_discover_subsets (surveyed_reverse hg) (fun _ hq => isLive_of_mem_acceptStates hq) hs

theorem closedUnder_metSets (g : Graph) :
    ClosedUnder (g.reverse.subsetRow (classes g.reverse.startPoints)) g.metSets :=
  closedUnder_discover (StateSet.ofList_mem_all _ _) (closedUnder_subsetRow _ _)
    (length_all_le _ _)

/-- A met set accepts what its members accept. -/
theorem acceptsFrom_reversedSubsets {s : StateSet} (hs : s ∈ g.metSets) :
    g.reversedSubsets.AcceptsFrom (g.metSets.idxOf s) w ↔ g.reverse.subsets.Accepts s w :=
  acceptsFrom_ofItems (ordered_subsetRow _) g.closedUnder_metSets hs

theorem wellFormed_reversedSubsets (g : Graph) : g.reversedSubsets.WellFormed :=
  wellFormed_ofItems g.closedUnder_metSets (nodup_discover _ _ _)
    (List.ne_nil_of_mem start_mem_discover)

theorem exists_metSet (hq : q < g.reversedSubsets.size) : ∃ s ∈ g.metSets, g.metSets.idxOf s = q :=
  exists_idxOf_items q (by rwa [reversedSubsets_eq, size_ofItems] at hq) (nodup_discover _ _ _)

/-- Every set that is led to has a member, which accepts the reversal of a word that led there. -/
theorem noDeadEnds_reversedSubsets (hg : g.WellFormed) : g.reversedSubsets.NoDeadEnds := by
  intro q hq r hr
  obtain ⟨s, hs, rfl⟩ := exists_metSet (g.wellFormed_reversedSubsets.lt_of_isReachable hq)
  rw [reversedSubsets_eq, targets_ofItems hs, List.mem_map] at hr
  obtain ⟨t, ht, rfl⟩ := hr
  obtain ⟨e, he, rfl⟩ := List.mem_map.1 ht
  have hmem : e.2.2 ∈ g.metSets := g.closedUnder_metSets s hs e he
  have hlive := (of_mem_metSets hg hmem).2
  obtain ⟨k, _, hne, rfl⟩ := mem_subsetRow.1 he
  obtain ⟨p, hp⟩ := List.exists_mem_of_ne_nil _ hne
  obtain ⟨u, hu⟩ := (hlive p hp).1
  refine ⟨u.reverse, (acceptsFrom_reversedSubsets hmem).2 ?_⟩
  refine (accepts_subsets (surveyed_reverse hg) hlive).2 ⟨p, hp, ?_⟩
  rw [acceptsFrom_reverse hg (hlive p hp).1, List.reverse_reverse]
  exact hu

/-- Reversing a deterministic graph makes a canonical one. -/
theorem canonical_reversedSubsets (hg : g.WellFormed) (hd : g.IsDeterministic) :
    g.reversedSubsets.Canonical where
  wellFormed := g.wellFormed_reversedSubsets
  reachable := reachable_unfold (StateSet.ofList_mem_all _ _) (closedUnder_subsetRow _ _)
    (length_all_le _ _)
  ascending q hq := by
    obtain ⟨s, hs, rfl⟩ := exists_metSet hq
    rw [reversedSubsets_eq, state_ofItems hs]
    apply List.pairwise_map.2
    apply (pairwise_subsetRow _ s).imp_of_mem
    intro r r' hr hr' hlt
    rw [Transition.between_of_le (ordered_subsetRow _ s r hr),
      Transition.between_of_le (ordered_subsetRow _ s r' hr')]
    exact Alphabet.lt_iff_rank.1 hlt
  noDeadEnds := noDeadEnds_reversedSubsets hg
  distinct p q hp hq hpq := by
    obtain ⟨s, hs, rfl⟩ := exists_metSet (g.wellFormed_reversedSubsets.lt_of_isReachable hp)
    obtain ⟨t, ht, rfl⟩ := exists_metSet (g.wellFormed_reversedSubsets.lt_of_isReachable hq)
    have hst : s = t := by
      apply eq_of_accepts_subsets hg hd (of_mem_metSets hg hs) (of_mem_metSets hg ht)
      intro w
      rw [← acceptsFrom_reversedSubsets hs, ← acceptsFrom_reversedSubsets ht]
      exact hpq w
    rw [hst]

/-! ## Two reversals -/

/-- The graph that the first of two reversals leaves. -/
theorem wellFormed_reverseDeterminize (g : Graph) : g.reverseDeterminize.WellFormed :=
  (trimmed_trim g.reversedSubsets).wellFormed

theorem canonical_reverse_reverse (g : Graph) :
    g.reverseDeterminize.reversedSubsets.Canonical :=
  canonical_reversedSubsets g.wellFormed_reverseDeterminize (isDeterministic_reverseDeterminize g)

theorem accepts_reverse_reverse (hg : g.WellFormed) :
    g.reverseDeterminize.reverseDeterminize.Accepts w ↔ g.Accepts w := by
  rw [accepts_reverseDeterminize g.wellFormed_reverseDeterminize, accepts_reverseDeterminize hg,
    List.reverse_reverse]

/-- Two reversals minimize. -/
theorem minimal_reverse_reverse (g : Graph) :
    g.reverseDeterminize.reverseDeterminize.Minimal :=
  g.canonical_reverse_reverse.distinct.minimal_trim
    g.canonical_reverse_reverse.minimal.isDeterministic

theorem reverse_reverse_eq_reduce (g : Graph) : g.reverseDeterminize.reverseDeterminize =
    g.reverseDeterminize.reversedSubsets.reduce :=
  g.canonical_reverse_reverse.trim_eq_reduce rfl

/-- Two reversals make equal graphs of graphs with the same language. -/
theorem reverse_reverse_eq (hg : g.WellFormed) (hh : h.WellFormed)
    (hl : ∀ w, g.Accepts w ↔ h.Accepts w) :
    g.reverseDeterminize.reverseDeterminize = h.reverseDeterminize.reverseDeterminize := by
  have hinit : ∀ k : Graph, k.reversedSubsets.initial = 0 := fun _ => rfl
  have hflag : ∀ k : Graph, k.reversedSubsets.deterministic = true := fun _ => rfl
  rw [reverse_reverse_eq_reduce, reverse_reverse_eq_reduce]
  refine g.canonical_reverse_reverse.reduce_eq h.canonical_reverse_reverse ?_
    ((hinit _).trans (hinit _).symm) ((hflag _).trans (hflag _).symm)
  intro w
  rw [accepts_reversedSubsets g.wellFormed_reverseDeterminize,
    accepts_reversedSubsets h.wellFormed_reverseDeterminize, accepts_reverseDeterminize hg,
    accepts_reverseDeterminize hh, hl]

end Graph

end RegLang
