import RegLang.Proofs.NormalForms
/-!
# Minimal graphs

A deterministic graph is minimal if its transitions lead to states that can accept and no two of
its reachable states accept the same words.  A deterministic graph without dead ends covers every
minimal graph of its language, state for state by what they accept.

* `Minimal.exists_covers`: the covering.
* `Minimal.exists_isomorphism`: normal minimal graphs of one language differ in numbering alone.
* `Distinct.stateCount_le`: no deterministic graph has fewer states than there are to tell apart.
* `Distinct.smallestOf`: what is known then of a graph whose states all lead to acceptance.
-/

namespace RegLang.Graph

open Transition (Normal Reads)

variable {g h : Graph} {p q : Nat} {c : Char} {w : Word}

/-! ## Definitions -/

/-- Two states accept the same words. -/
def Alike (g h : Graph) (p q : Nat) : Prop := ∀ w, g.AcceptsFrom p w ↔ h.AcceptsFrom q w

/-- Transitions of reachable states lead to states that can accept. -/
def NoDeadEnds (g : Graph) : Prop :=
  ∀ q, g.IsReachable q → ∀ r ∈ (g.state q).targets, ∃ w, g.AcceptsFrom r w

/-- Different reachable states accept different words. -/
def Distinct (g : Graph) : Prop :=
  ∀ p q, g.IsReachable p → g.IsReachable q → Alike g g p q → p = q

/-- Deterministic, without dead ends, and without two states that accept the same words. -/
structure Minimal (g : Graph) : Prop where
  isDeterministic : g.IsDeterministic
  noDeadEnds : g.NoDeadEnds
  distinct : g.Distinct

/-- The initial state stands alone, leads nowhere, and rejects. -/
structure Barren (g : Graph) : Prop where
  transitions_eq : (g.state g.initial).transitions = []
  eq_initial : ∀ q, g.IsReachable q → q = g.initial
  rejects : ∀ w, ¬ g.Accepts w

theorem Alike.refl (g : Graph) (q : Nat) : Alike g g q q := fun _ => Iff.rfl

theorem Alike.symm (hpq : Alike g h p q) : Alike h g q p := fun w => (hpq w).symm

theorem Alike.trans {k : Graph} {r : Nat} (hpq : Alike g h p q) (hqr : Alike h k q r) :
    Alike g k p r := fun w => (hpq w).trans (hqr w)

/-! ## States that accept the same words -/

/-- A reachable state other than the initial one is the target of a transition. -/
theorem IsReachable.eq_initial_or_mem_targets (hq : g.IsReachable q) :
    q = g.initial ∨ ∃ p, g.IsReachable p ∧ q ∈ (g.state p).targets := by
  refine hq.induct (P := fun q => q = g.initial ∨ ∃ p, g.IsReachable p ∧ q ∈ (g.state p).targets)
    (.inl rfl) ?_
  intro p c r hp _ hr
  exact .inr ⟨p, hp, targets_of_mem_stepAll hr⟩

theorem NoDeadEnds.eq_initial_or (hg : g.NoDeadEnds) (hq : g.IsReachable q) :
    q = g.initial ∨ ∃ w, g.AcceptsFrom q w := by
  rcases hq.eq_initial_or_mem_targets with rfl | ⟨p, hp, ht⟩
  · exact .inl rfl
  · exact .inr (hg p hp q ht)

/-- Without dead ends there is nothing but the initial state if no word is accepted. -/
theorem NoDeadEnds.barren (hg : g.NoDeadEnds) (hl : ∀ w, ¬ g.Accepts w) : g.Barren := by
  have hnone : (g.state g.initial).targets = [] := by
    apply List.eq_nil_iff_forall_not_mem.2
    intro r hr
    obtain ⟨w, hw⟩ := hg g.initial g.isReachable_initial r hr
    obtain ⟨c, hc⟩ := State.exists_mem_stepAll hr
    exact hl (c :: w) (acceptsFrom_cons_iff.2 ⟨r, hc, hw⟩)
  refine ⟨List.map_eq_nil_iff.1 hnone, fun q hq => ?_, hl⟩
  refine hq.induct (P := fun q => q = g.initial) rfl ?_
  rintro p c r _ rfl hr
  have ht := targets_of_mem_stepAll hr
  rw [hnone] at ht
  cases ht

/-- If a word is accepted, the initial state leads to acceptance as well. -/
theorem live_of_accepts (hl : ∃ w, g.Accepts w) (hq : q = g.initial ∨ ∃ w, g.AcceptsFrom q w) :
    ∃ w, g.AcceptsFrom q w := by
  rcases hq with rfl | hw
  · exact hl
  · exact hw

/-- Without dead ends every reachable state leads to acceptance, unless there is no more than an
initial state that rejects. -/
theorem NoDeadEnds.live_or_barren (hg : g.NoDeadEnds) (hq : g.IsReachable q) :
    (∃ w, g.AcceptsFrom q w) ∨ g.Barren := by
  by_cases hl : ∃ w, g.Accepts w
  · exact .inl (live_of_accepts hl (hg.eq_initial_or hq))
  · exact .inr (hg.barren (not_exists.1 hl))

/-- A state that is initial or can accept has a state like it in every deterministic graph of the
language: the one that a word which leads to it leads to there. -/
theorem exists_alike (hg : g.IsDeterministic) (hh : h.IsDeterministic)
    (hl : ∀ w, g.Accepts w ↔ h.Accepts w) (hq : g.IsReachable q)
    (hlive : q = g.initial ∨ ∃ w, g.AcceptsFrom q w) : ∃ p, h.IsReachable p ∧ Alike g h q p := by
  rcases hlive with rfl | ⟨w, hw⟩
  · exact ⟨h.initial, h.isReachable_initial, hl⟩
  · obtain ⟨u, hu⟩ := hq
    obtain ⟨p, hp, _⟩ := exists_path_of_accepts ((hl _).1 ((hg.acceptsFrom_iff hu).1 hw))
    refine ⟨p, ⟨u, hp⟩, fun v => ?_⟩
    rw [hg.acceptsFrom_iff hu, hh.acceptsFrom_iff hp, hl]

/-- Where a step leads to a state that can accept, the same step is there from every state like
the first, to a state like the target. -/
theorem Alike.exists_step (hg : g.IsDeterministic) (hh : h.IsDeterministic) (hp : g.IsReachable p)
    (hq : h.IsReachable q) (hpq : Alike g h p q) {r : Nat} (hr : r ∈ (g.state p).stepAll c)
    (hw : g.AcceptsFrom r w) : ∃ s, s ∈ (h.state q).stepAll c ∧ Alike g h r s := by
  obtain ⟨s, hs, _⟩ := acceptsFrom_cons_iff.1
    ((hpq (c :: w)).1 (acceptsFrom_cons_iff.2 ⟨r, hr, hw⟩))
  refine ⟨s, hs, fun v => ?_⟩
  rw [← hg.acceptsFrom_cons_iff hp hr, ← hh.acceptsFrom_cons_iff hq hs]
  exact hpq (c :: v)

/-! ## The covering -/

/-- A deterministic graph without dead ends covers every minimal graph of its language. -/
theorem Minimal.exists_covers (hh : h.Minimal) (hg : g.IsDeterministic) (hd : g.NoDeadEnds)
    (hl : ∀ w, g.Accepts w ↔ h.Accepts w) :
    ∃ f : Nat → Nat, f g.initial = h.initial ∧ Covers f g.IsReachable g h ∧
      ∀ q, g.IsReachable q → h.IsReachable (f q) ∧ Alike g h q (f q) := by
  have hex : ∀ q, ∃ p, g.IsReachable q → h.IsReachable p ∧ Alike g h q p := by
    intro q
    by_cases hq : g.IsReachable q
    · obtain ⟨p, hp⟩ := exists_alike hg hh.isDeterministic hl hq (hd.eq_initial_or hq)
      exact ⟨p, fun _ => hp⟩
    · exact ⟨0, fun h => absurd h hq⟩
  choose f hf using hex
  refine ⟨f, ?_, ⟨fun hp hq => hp.stepAll hq, ?_, ?_⟩, hf⟩
  · obtain ⟨hr, ha⟩ := hf g.initial g.isReachable_initial
    exact hh.distinct _ _ hr h.isReachable_initial (ha.symm.trans hl)
  · intro q hq
    exact acceptsFrom_nil_iff.symm.trans (((hf q hq).2 []).symm.trans acceptsFrom_nil_iff)
  · intro q c t hq
    obtain ⟨hfq, ha⟩ := hf q hq
    constructor
    · intro ht
      obtain ⟨w, hw⟩ := hh.noDeadEnds _ hfq t (targets_of_mem_stepAll ht)
      obtain ⟨r, hr, hra⟩ := ha.symm.exists_step hh.isDeterministic hg hfq hq ht hw
      obtain ⟨hfr, hra'⟩ := hf r (hq.stepAll hr)
      exact ⟨r, hr, hh.distinct _ _ hfr (hfq.stepAll ht) (hra.trans hra').symm⟩
    · rintro ⟨r, hr, rfl⟩
      obtain ⟨w, hw⟩ := hd q hq r (targets_of_mem_stepAll hr)
      obtain ⟨s, hs, hsa⟩ := ha.exists_step hg hh.isDeterministic hq hfq hr hw
      obtain ⟨hfr, hra⟩ := hf r (hq.stepAll hr)
      rw [hh.distinct _ _ hfr (hfq.stepAll hs) (hra.symm.trans hsa)]
      exact hs

/-! ## The number of states -/

/-- A map of one list into another that tells the members apart makes it no longer. -/
theorem length_le_of_injOn {xs ys : List Nat} (hxs : xs.Nodup) (f : Nat → Nat)
    (hf : ∀ x ∈ xs, f x ∈ ys) (inj : ∀ x ∈ xs, ∀ y ∈ xs, f x = f y → x = y) :
    xs.length ≤ ys.length := by
  have hn : (xs.map f).Nodup := List.Nodup.map_on (fun x hx y hy he => inj x hx y hy he) hxs
  have hsub : xs.map f ⊆ ys := by
    intro y hy
    obtain ⟨x, hx, rfl⟩ := List.mem_map.1 hy
    exact hf x hx
  have hle := (hn.subperm hsub).length_le
  rwa [List.length_map] at hle

/-- No deterministic graph has fewer reachable states than there are states that accept different
words. -/
theorem Distinct.stateCount_le (hh : h.Distinct) (hhd : h.IsDeterministic)
    (hlive : ∀ q, h.IsReachable q → q = h.initial ∨ ∃ w, h.AcceptsFrom q w)
    (hg : g.IsDeterministic) (hl : ∀ w, h.Accepts w ↔ g.Accepts w) :
    h.stateCount ≤ g.stateCount := by
  have hex : ∀ q, ∃ p, h.IsReachable q → g.IsReachable p ∧ Alike h g q p := by
    intro q
    by_cases hq : h.IsReachable q
    · obtain ⟨p, hp⟩ := exists_alike hhd hg hl hq (hlive q hq)
      exact ⟨p, fun _ => hp⟩
    · exact ⟨0, fun h => absurd h hq⟩
  choose f hf using hex
  apply length_le_of_injOn h.nodup_reachable f
  · intro q hq
    exact mem_reachable_iff.2 (hf q (mem_reachable_iff.1 hq)).1
  · intro p hp q hq he
    rw [mem_reachable_iff] at hp hq
    have hpa := (hf p hp).2
    rw [he] at hpa
    exact hh p q hp hq (hpa.trans (hf q hq).2.symm)

/-- A deterministic graph of the words with a property, flagged so, all of whose states lead to
acceptance, each on words of its own.  No deterministic graph of these words has fewer states. -/
structure SmallestOf (P : Word → Prop) (h : Graph) : Prop where
  wellFormed : h.WellFormed
  accepts_iff : ∀ w, h.Accepts w ↔ P w
  flag : h.deterministic = true
  isDeterministic : h.IsDeterministic
  live : ∀ q, h.IsReachable q → ∃ w, h.AcceptsFrom q w
  distinct : ∀ p q, h.IsReachable p → h.IsReachable q →
    (∀ w, h.AcceptsFrom p w ↔ h.AcceptsFrom q w) → p = q
  stateCount_le : ∀ k : Graph, k.IsDeterministic → (∀ w, k.Accepts w ↔ P w) →
    h.stateCount ≤ k.stateCount

/-- States that are told apart make a graph the smallest. -/
theorem Distinct.smallestOf {P : Word → Prop} (hd : h.Distinct) (hwf : h.WellFormed)
    (hf : h.deterministic = true) (hdet : h.IsDeterministic) (hl : ∀ w, h.Accepts w ↔ P w)
    (hlive : ∀ q, h.IsReachable q → ∃ w, h.AcceptsFrom q w) : SmallestOf P h where
  wellFormed := hwf
  accepts_iff := hl
  flag := hf
  isDeterministic := hdet
  live := hlive
  distinct := hd
  stateCount_le _ hk hkl :=
    hd.stateCount_le hdet (fun q hq => .inr (hlive q hq)) hk fun w => (hl w).trans (hkl w).symm

/-! ## Isomorphisms -/

/-- A one-to-one correspondence of reachable states that keeps the initial state, acceptance and
the intervals of transitions. -/
structure Isomorphism (f : Nat → Nat) (g h : Graph) : Prop where
  initial : f g.initial = h.initial
  reachable : ∀ q, g.IsReachable q → h.IsReachable (f q)
  injective : ∀ p q, g.IsReachable p → g.IsReachable q → f p = f q → p = q
  surjective : ∀ q, h.IsReachable q → ∃ p, g.IsReachable p ∧ f p = q
  accept : ∀ q, g.IsReachable q → (h.state (f q)).accept = (g.state q).accept
  transitions : ∀ q, g.IsReachable q →
    (h.state (f q)).transitions.Perm ((g.state q).mapTargets f).transitions

theorem Isomorphism.perm_reachable {f : Nat → Nat} (hf : Isomorphism f g h) :
    h.reachable.Perm (g.reachable.map f) := by
  have hn : (g.reachable.map f).Nodup := by
    apply List.Nodup.map_on _ g.nodup_reachable
    intro p hp q hq
    exact hf.injective p q (mem_reachable_iff.1 hp) (mem_reachable_iff.1 hq)
  apply (List.perm_ext_iff_of_nodup h.nodup_reachable hn).2
  intro q
  rw [mem_reachable_iff, List.mem_map]
  constructor
  · intro hq
    obtain ⟨p, hp, he⟩ := hf.surjective q hq
    exact ⟨p, mem_reachable_iff.2 hp, he⟩
  · rintro ⟨p, hp, rfl⟩
    exact hf.reachable p (mem_reachable_iff.1 hp)

theorem Isomorphism.transitionCount_eq {f : Nat → Nat} (hf : Isomorphism f g h) :
    g.transitionCount = h.transitionCount := by
  have hlen : ∀ q ∈ g.reachable,
      (g.state q).transitions.length = (h.state (f q)).transitions.length := by
    intro q hq
    rw [(hf.transitions q (mem_reachable_iff.1 hq)).length_eq]
    exact (List.length_map _).symm
  unfold transitionCount
  rw [List.length_flatMap, List.length_flatMap, (hf.perm_reachable.map _).sum_nat, List.map_map]
  exact congrArg List.sum (List.map_congr_left hlen)

/-- Transitions in normal form correspond where their steps do. -/
theorem perm_mapTargets {s t : State} {f : Nat → Nat} (hs : Normal s.transitions)
    (ht : Normal t.transitions)
    (inj : ∀ p ∈ s.targets, ∀ q ∈ s.targets, f p = f q → p = q)
    (hstep : ∀ c q, q ∈ t.stepAll c ↔ ∃ r, r ∈ s.stepAll c ∧ f r = q) :
    t.transitions.Perm (s.mapTargets f).transitions := by
  have hreads : ∀ u ∈ s.transitions, (fun c => Reads t.transitions c (f u.target)) =
      fun c => Reads s.transitions c u.target := by
    intro u hu
    funext c
    rw [← State.mem_stepAll_iff_reads, ← State.mem_stepAll_iff_reads, hstep]
    apply propext
    constructor
    · rintro ⟨r, hr, he⟩
      obtain ⟨v, hv, _, rfl⟩ := State.mem_stepAll.1 hr
      rwa [← inj _ (State.mem_targets.2 ⟨v, hv, rfl⟩) _ (State.mem_targets.2 ⟨u, hu, rfl⟩) he]
    · exact fun hr => ⟨_, hr, rfl⟩
  have hn : (s.mapTargets f).transitions.Nodup := by
    apply List.Nodup.map_on _ hs.nodup
    intro u hu v hv he
    have hq := inj _ (State.mem_targets.2 ⟨u, hu, rfl⟩) _ (State.mem_targets.2 ⟨v, hv, rfl⟩)
      (congrArg Transition.target he)
    exact Transition.ext_rank (congrArg (fun t => Alphabet.rank t.lo) he)
      (congrArg (fun t => Alphabet.rank t.hi) he) hq
  apply (List.perm_ext_iff_of_nodup ht.nodup hn).2
  intro u
  constructor
  · intro hu
    have hmem : u.target ∈ t.stepAll u.lo := State.mem_stepAll.2 ⟨u, hu, u.contains_lo, rfl⟩
    obtain ⟨r, hr, he⟩ := (hstep _ _).1 hmem
    obtain ⟨v, hv, _, rfl⟩ := State.mem_stepAll.1 hr
    refine List.mem_map.2 ⟨u.retarget v.target, hs.mem_iff.2 ?_, ?_⟩
    · have hrun := ht.mem_iff.1 hu
      rwa [← he, hreads v hv] at hrun
    · show (u.retarget v.target).retarget (f v.target) = u
      rw [he]
      rfl
  · intro hu
    obtain ⟨v, hv, rfl⟩ := List.mem_map.1 hu
    apply ht.mem_iff.2
    show Transition.IsRun (fun c => Reads t.transitions c (f v.target)) v.lo v.hi
    rw [hreads v hv]
    exact hs.mem_iff.1 hv

/-- Minimal graphs of one language in normal form differ in the numbering of their states alone. -/
theorem Minimal.exists_isomorphism (hg : g.Minimal) (hh : h.Minimal) (hgt : g.Trimmed)
    (hht : h.Trimmed) (hl : ∀ w, g.Accepts w ↔ h.Accepts w) : ∃ f, Isomorphism f g h := by
  obtain ⟨f, hi, hf, ha⟩ := hh.exists_covers hg.isDeterministic hg.noDeadEnds hl
  have inj : ∀ p q, g.IsReachable p → g.IsReachable q → f p = f q → p = q := by
    intro p q hp hq he
    have hpa := (ha p hp).2
    rw [he] at hpa
    exact hg.distinct p q hp hq (hpa.trans (ha q hq).2.symm)
  refine ⟨f, hi, fun q hq => (ha q hq).1, inj, ?_, ?_, ?_⟩
  · intro q hq
    exact (hf.isReachable_iff g.isReachable_initial hi.symm).1 hq
  · intro q hq
    exact Bool.eq_iff_iff.2 (hf.accept hq)
  · intro q hq
    apply perm_mapTargets (hgt.normal q (hgt.wellFormed.lt_of_isReachable hq))
      (hht.normal (f q) (hht.wellFormed.lt_of_isReachable (ha q hq).1))
    · intro r hr s hs
      exact inj r s (hq.target hr) (hq.target hs)
    · intro c r
      exact hf.step hq

/-! ## Trimming -/

/-- A state of the trimmed graph stands for a reachable state that accepts the same words. -/
theorem exists_alike_trim (hq : q < g.trim.size) :
    ∃ p, g.IsReachable p ∧ g.prune.reachable.idxOf p = q ∧ Alike g.trim g q p := by
  rw [trim_eq, size_reduce] at hq
  obtain ⟨p, hp, rfl⟩ := exists_idxOf_eq hq
  refine ⟨p, isReachable_of_prune hp, rfl, fun w => ?_⟩
  rw [trim_eq, acceptsFrom_reduce, g.prune.covers_compact.acceptsFrom_iff hp,
    acceptsFrom_prune (isReachable_of_prune hp)]

theorem Distinct.trim (hg : g.Distinct) : g.trim.Distinct := by
  intro p q hp hq hpq
  obtain ⟨a, ha, rfl, hap⟩ :=
    exists_alike_trim ((trimmed_trim g).wellFormed.lt_of_isReachable hp)
  obtain ⟨b, hb, rfl, hbq⟩ :=
    exists_alike_trim ((trimmed_trim g).wellFormed.lt_of_isReachable hq)
  rw [hg a b ha hb (hap.symm.trans (hpq.trans hbq))]

theorem Trimmed.noDeadEnds (hg : g.Trimmed) : g.NoDeadEnds := by
  intro q hq r hr
  obtain ⟨t, ht, rfl⟩ := State.mem_targets.1 hr
  exact hg.live q (hg.wellFormed.lt_of_isReachable hq) t ht

/-- A trimmed graph that accepts nothing is a single state that rejects and leads nowhere. -/
theorem Trimmed.lone (hg : g.Trimmed) (hl : ∀ w, ¬ g.Accepts w) : g.size = 1 ∧ g.state 0 = {} := by
  obtain ⟨hnone, honly, -⟩ := hg.noDeadEnds.barren hl
  rw [hg.initial_eq] at hnone honly
  have hlt := hg.wellFormed.initial_lt
  have hlast := honly (g.size - 1) (hg.reachable _ (by omega))
  have hreject : (g.state 0).accept = false := by
    rw [Bool.eq_false_iff, ← hg.initial_eq]
    exact fun h => hl [] (acceptsFrom_nil_iff.2 h)
  refine ⟨by omega, ?_⟩
  cases hs : g.state 0 with
  | mk accept transitions =>
    rw [hs] at hnone hreject
    dsimp only at hnone hreject
    rw [hnone, hreject]

/-- Trimming makes a graph minimal whose states are told apart already. -/
theorem Distinct.minimal_trim (hg : g.Distinct) (hd : g.IsDeterministic) : g.trim.Minimal where
  isDeterministic := hd.trim
  noDeadEnds := (trimmed_trim g).noDeadEnds
  distinct := hg.trim

end RegLang.Graph
