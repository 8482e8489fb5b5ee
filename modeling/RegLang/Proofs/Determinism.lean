import Mathlib.Data.List.Pairwise
import RegLang.Proofs.Machine
/-!
# Deterministic graphs

In a deterministic graph a word leads to at most one state, so what a reachable state accepts is
what the graph accepts behind any word that leads there.

    g.Path g.initial u q → (g.AcceptsFrom q v ↔ g.Accepts (u ++ v))      (acceptsFrom_iff)
-/

namespace RegLang

namespace State

variable {s : State} {c : Char}

/-! ## Disjoint transitions -/

theorem Disjoint.eq_of_contains (h : s.Disjoint) {t u : Transition} (ht : t ∈ s.transitions)
    (hu : u ∈ s.transitions) (hct : t.contains c = true) (hcu : u.contains c = true) : t = u := by
  by_contra hne
  have hsymm : Std.Symm fun t u : Transition =>
      ∀ c, ¬ (t.contains c = true ∧ u.contains c = true) :=
    ⟨fun t u h c hc => h c hc.symm⟩
  exact h.forall ht hu hne c ⟨hct, hcu⟩

theorem Disjoint.stepAll_unique (h : s.Disjoint) {p q : Nat} (hp : p ∈ s.stepAll c)
    (hq : q ∈ s.stepAll c) : p = q := by
  obtain ⟨t, ht, hct, rfl⟩ := mem_stepAll.1 hp
  obtain ⟨u, hu, hcu, rfl⟩ := mem_stepAll.1 hq
  rw [h.eq_of_contains ht hu hct hcu]

theorem Disjoint.step_eq_some_iff (h : s.Disjoint) {q : Nat} :
    s.step c = some q ↔ q ∈ s.stepAll c := by
  constructor
  · exact mem_stepAll_of_step
  · intro hq
    cases hs : s.step c with
    | none =>
      rw [step_eq_none_iff.1 hs] at hq
      cases hq
    | some p => rw [h.stepAll_unique (mem_stepAll_of_step hs) hq]

/-- Every target is stepped to on some letter. -/
theorem exists_mem_stepAll {q : Nat} (h : q ∈ s.targets) : ∃ c, q ∈ s.stepAll c := by
  obtain ⟨t, ht, rfl⟩ := mem_targets.1 h
  exact ⟨t.lo, mem_stepAll.2
    ⟨t, ht, Transition.contains_iff.2 ⟨Char.le_refl _, t.lo_le_hi⟩, rfl⟩⟩

theorem Disjoint.mapTargets (h : s.Disjoint) (f : Nat → Nat) : (s.mapTargets f).Disjoint :=
  List.pairwise_map.2 h

/-- Two intervals share no letter if one ends before the other begins. -/
theorem disjoint_iff_pairwise_lt :
    s.Disjoint ↔ s.transitions.Pairwise fun t u => t.hi < u.lo ∨ u.hi < t.lo := by
  refine List.Pairwise.iff fun {t u} => ?_
  have ht := t.lo_le_hi
  have hu := u.lo_le_hi
  simp only [Transition.contains_iff, Alphabet.le_iff_toNat, Alphabet.lt_iff_toNat] at ht hu ⊢
  constructor
  · intro h
    have hlo := h t.lo
    have hlo' := h u.lo
    omega
  · intro h c
    omega

instance (s : State) : Decidable s.Disjoint := decidable_of_iff' _ disjoint_iff_pairwise_lt

end State

namespace Graph

variable {g : Graph} {p q r : Nat} {u v w : Word}

/-! ## Well-formed graphs -/

theorem WellFormed.lt_of_mem_stepAll (h : g.WellFormed) (hp : p < g.size) {c : Char}
    (hq : q ∈ (g.state p).stepAll c) : q < g.size := by
  obtain ⟨t, ht, _, rfl⟩ := State.mem_stepAll.1 hq
  exact h.target_lt p hp t ht

theorem WellFormed.lt_of_mem_targets (h : g.WellFormed) (hp : p < g.size)
    (hq : q ∈ (g.state p).targets) : q < g.size := by
  obtain ⟨t, ht, rfl⟩ := State.mem_targets.1 hq
  exact h.target_lt p hp t ht

theorem WellFormed.lt_of_path (h : g.WellFormed) (hp : p < g.size) (hw : g.Path p w q) :
    q < g.size := by
  induction w generalizing p with
  | nil => exact path_nil_iff.1 hw ▸ hp
  | cons c w ih =>
    obtain ⟨r, hr, hw⟩ := path_cons_iff.1 hw
    exact ih (h.lt_of_mem_stepAll hp hr) hw

theorem WellFormed.lt_of_isReachable (h : g.WellFormed) (hq : g.IsReachable q) : q < g.size := by
  obtain ⟨w, hw⟩ := hq
  exact h.lt_of_path h.initial_lt hw

/-- If everything in the arena is reachable, the reachable states are the places in some order. -/
theorem WellFormed.perm_reachable (h : g.WellFormed) (hr : ∀ q < g.size, g.IsReachable q) :
    g.reachable.Perm (List.range g.size) := by
  apply (List.perm_ext_iff_of_nodup g.nodup_reachable List.nodup_range).2
  intro q
  rw [mem_reachable_iff, List.mem_range]
  exact ⟨h.lt_of_isReachable, hr q⟩

theorem WellFormed.stateCount_eq (h : g.WellFormed) (hr : ∀ q < g.size, g.IsReachable q) :
    g.stateCount = g.size := by
  rw [stateCount, (h.perm_reachable hr).length_eq, List.length_range]

theorem WellFormed.lt_of_mem_acceptStates (h : g.WellFormed) : ∀ q ∈ g.acceptStates, q < g.size :=
  fun _ hq => h.lt_of_isReachable (mem_acceptStates.1 hq).1

theorem intact_iff : g.intact = true ↔ ∀ q, g.IsReachable q → q < g.size := by
  rw [intact, List.all_eq_true]
  exact forall_congr' fun q => by rw [mem_reachable_iff, decide_eq_true_iff]

theorem WellFormed.ensureIntact (h : g.WellFormed) : g.ensureIntact = .ok () :=
  ensureIntact_of_intact (intact_iff.2 fun _ => h.lt_of_isReachable)

/-! ## Determinism -/

theorem isDeterministic_iff : g.IsDeterministic ↔ ∀ q ∈ g.reachable, (g.state q).Disjoint :=
  forall_congr' fun _ => by rw [mem_reachable_iff]

instance (g : Graph) : Decidable g.IsDeterministic := decidable_of_iff' _ isDeterministic_iff

instance (g : Graph) : Decidable g.Truthful :=
  inferInstanceAs (Decidable (g.deterministic = true → g.IsDeterministic))

theorem IsReachable.stepAll (hp : g.IsReachable p) {c : Char}
    (hq : q ∈ (g.state p).stepAll c) : g.IsReachable q :=
  hp.target (targets_of_mem_stepAll hq)

/-- What holds of the initial state and is passed on by steps holds of all reachable states. -/
theorem IsReachable.induct {P : Nat → Prop} (hq : g.IsReachable q) (hi : P g.initial)
    (hstep : ∀ p c r, g.IsReachable p → P p → r ∈ (g.state p).stepAll c → P r) : P q := by
  obtain ⟨w, hw⟩ := hq
  have aux : ∀ (w : Word) (p : Nat), g.IsReachable p → P p → g.Path p w q → P q := by
    intro w
    induction w with
    | nil =>
      intro p _ hp hw
      rwa [← path_nil_iff.1 hw]
    | cons c w ih =>
      intro p hr hp hw
      obtain ⟨r, hstep', hw⟩ := path_cons_iff.1 hw
      exact ih r (hr.stepAll hstep') (hstep p c r hr hp hstep') hw
  exact aux w g.initial g.isReachable_initial hi hw

theorem IsDeterministic.path_unique (h : g.IsDeterministic) (hp : g.IsReachable p)
    (hq : g.Path p w q) (hr : g.Path p w r) : q = r := by
  induction w generalizing p with
  | nil => rw [← path_nil_iff.1 hq, ← path_nil_iff.1 hr]
  | cons c w ih =>
    obtain ⟨p₁, h₁, hq⟩ := path_cons_iff.1 hq
    obtain ⟨p₂, h₂, hr⟩ := path_cons_iff.1 hr
    have he : p₁ = p₂ := (h p hp).stepAll_unique h₁ h₂
    subst he
    exact ih (hp.stepAll h₁) hq hr

/-- What a state accepts is what the graph accepts behind a word that leads there. -/
theorem IsDeterministic.acceptsFrom_iff (h : g.IsDeterministic) (hu : g.Path g.initial u q) :
    g.AcceptsFrom q v ↔ g.Accepts (u ++ v) := by
  constructor
  · rintro ⟨r, hr, ha⟩
    exact ⟨r, path_append_iff.2 ⟨q, hu, hr⟩, ha⟩
  · rintro ⟨r, hr, ha⟩
    obtain ⟨p, hp, hr⟩ := path_append_iff.1 hr
    have he : p = q := h.path_unique g.isReachable_initial hp hu
    subst he
    exact ⟨r, hr, ha⟩

/-- Runs agree from any state on that has all its transitions disjoint. -/
theorem IsDeterministic.acceptsFrom_cons_iff (h : g.IsDeterministic) (hp : g.IsReachable p)
    {c : Char} (hq : q ∈ (g.state p).stepAll c) :
    g.AcceptsFrom p (c :: w) ↔ g.AcceptsFrom q w := by
  rw [Graph.acceptsFrom_cons_iff]
  constructor
  · rintro ⟨r, hr, hw⟩
    have he : r = q := (h p hp).stepAll_unique hr hq
    subst he
    exact hw
  · intro hw
    exact ⟨q, hq, hw⟩

theorem exists_path_of_accepts (h : g.Accepts (u ++ v)) :
    ∃ q, g.Path g.initial u q ∧ g.AcceptsFrom q v := by
  obtain ⟨r, hr, ha⟩ := h
  obtain ⟨q, hu, hv⟩ := path_append_iff.1 hr
  exact ⟨q, hu, r, hv, ha⟩

end Graph

end RegLang
