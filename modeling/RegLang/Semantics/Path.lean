import RegLang.Graph.Reachable
import RegLang.Semantics.Discovery
/-!
# Paths

What a graph means, apart from how it is run: a word is accepted if some path of transitions that
read it leads from the initial state to an accepting one.

* `path_append_iff`: a path along two words is a path along each.
* `mem_reachable_iff`, `mem_live_iff`: the computed lists of reachable and of live states are what
  paths say.
* `isEmpty_iff`: a graph whose initial state is not live accepts nothing.
-/

namespace RegLang

/-- No letter has more than one transition. -/
def State.Disjoint (s : State) : Prop :=
  s.transitions.Pairwise fun t u => ∀ c, ¬ (t.contains c = true ∧ u.contains c = true)

namespace Graph

/-! ## Definitions -/

/-- Some transitions that read a word one after the other lead from one state to another. -/
inductive Path (g : Graph) : Nat → Word → Nat → Prop
  | nil (q : Nat) : Path g q [] q
  | cons {p r : Nat} {c : Char} {w : Word} {t : Transition}
      (mem : t ∈ (g.state p).transitions) (reads : t.contains c = true)
      (rest : Path g t.target w r) : Path g p (c :: w) r

/-- A word leads from a state to acceptance. -/
def AcceptsFrom (g : Graph) (q : Nat) (w : Word) : Prop :=
  ∃ r, g.Path q w r ∧ (g.state r).accept = true

/-- The graph accepts a word. -/
def Accepts (g : Graph) (w : Word) : Prop := g.AcceptsFrom g.initial w

/-- Some word leads from the initial state to `q`. -/
def IsReachable (g : Graph) (q : Nat) : Prop := ∃ w, g.Path g.initial w q

/-- A reachable state that leads to acceptance. -/
def IsLive (g : Graph) (q : Nat) : Prop := g.IsReachable q ∧ ∃ w, g.AcceptsFrom q w

/-- The initial state and all targets are in the arena. -/
structure WellFormed (g : Graph) : Prop where
  initial_lt : g.initial < g.size
  target_lt : ∀ q < g.size, ∀ t ∈ (g.state q).transitions, t.target < g.size

/-- The transitions of every reachable state are disjoint. -/
def IsDeterministic (g : Graph) : Prop := ∀ q, g.IsReachable q → (g.state q).Disjoint

/-- The flag is not set in vain. -/
def Truthful (g : Graph) : Prop := g.deterministic = true → g.IsDeterministic

/-! ## Paths -/

variable {g : Graph}

theorem path_nil_iff {p r : Nat} : g.Path p [] r ↔ p = r := by
  constructor
  · rintro ⟨⟩
    rfl
  · rintro rfl
    exact .nil p

theorem path_cons_iff {p r : Nat} {c : Char} {w : Word} :
    g.Path p (c :: w) r ↔ ∃ q ∈ (g.state p).stepAll c, g.Path q w r := by
  constructor
  · rintro (_ | ⟨mem, reads, rest⟩)
    exact ⟨_, State.mem_stepAll.2 ⟨_, mem, reads, rfl⟩, rest⟩
  · rintro ⟨q, hq, rest⟩
    obtain ⟨t, mem, reads, rfl⟩ := State.mem_stepAll.1 hq
    exact .cons mem reads rest

theorem path_append_iff {p r : Nat} {v w : Word} :
    g.Path p (v ++ w) r ↔ ∃ q, g.Path p v q ∧ g.Path q w r := by
  induction v generalizing p with
  | nil => simp [path_nil_iff]
  | cons c v ih =>
    simp only [List.cons_append, path_cons_iff, ih]
    constructor
    · rintro ⟨q, hq, m, hv, hw⟩
      exact ⟨m, ⟨q, hq, hv⟩, hw⟩
    · rintro ⟨m, ⟨q, hq, hv⟩, hw⟩
      exact ⟨q, hq, m, hv, hw⟩

theorem acceptsFrom_nil_iff {q : Nat} :
    g.AcceptsFrom q [] ↔ (g.state q).accept = true := by
  simp [AcceptsFrom, path_nil_iff]

theorem acceptsFrom_cons_iff {q : Nat} {c : Char} {w : Word} :
    g.AcceptsFrom q (c :: w) ↔ ∃ p ∈ (g.state q).stepAll c, g.AcceptsFrom p w := by
  simp only [AcceptsFrom, path_cons_iff]
  constructor
  · rintro ⟨r, ⟨p, hp, hr⟩, ha⟩
    exact ⟨p, hp, r, hr, ha⟩
  · rintro ⟨p, hp, r, hr, ha⟩
    exact ⟨r, ⟨p, hp, hr⟩, ha⟩

/-- A transition reads at least its lower bound. -/
theorem path_of_mem_targets {p q : Nat} (h : q ∈ (g.state p).targets) : ∃ w, g.Path p w q := by
  obtain ⟨t, mem, rfl⟩ := State.mem_targets.1 h
  exact ⟨[t.lo], .cons mem (Transition.contains_iff.2 ⟨Char.le_refl _, t.lo_le_hi⟩) (.nil _)⟩

theorem targets_of_mem_stepAll {p q : Nat} {c : Char} (h : q ∈ (g.state p).stepAll c) :
    q ∈ (g.state p).targets := by
  obtain ⟨t, mem, _, rfl⟩ := State.mem_stepAll.1 h
  exact State.mem_targets.2 ⟨t, mem, rfl⟩

/-- Paths go from target to target. -/
theorem exists_path_iff {p q : Nat} :
    (∃ w, g.Path p w q) ↔ Relation.ReflTransGen (fun p q => q ∈ (g.state p).targets) p q := by
  constructor
  · rintro ⟨w, h⟩
    induction w generalizing p with
    | nil => exact path_nil_iff.1 h ▸ .refl
    | cons c w ih =>
      obtain ⟨m, hm, rest⟩ := path_cons_iff.1 h
      exact .head (targets_of_mem_stepAll hm) (ih rest)
  · intro h
    induction h with
    | refl => exact ⟨[], .nil _⟩
    | tail _ hq ih =>
      obtain ⟨v, hv⟩ := ih
      obtain ⟨w, hw⟩ := path_of_mem_targets hq
      exact ⟨v ++ w, path_append_iff.2 ⟨_, hv, hw⟩⟩

/-! ## Reachable states -/

theorem isReachable_initial (g : Graph) : g.IsReachable g.initial := ⟨[], .nil _⟩

theorem IsReachable.target {p q : Nat} (h : g.IsReachable p)
    (hq : q ∈ (g.state p).targets) : g.IsReachable q := by
  obtain ⟨v, hv⟩ := h
  obtain ⟨w, hw⟩ := path_of_mem_targets hq
  exact ⟨v ++ w, path_append_iff.2 ⟨_, hv, hw⟩⟩

/-- The initial state and all targets of the arena, with repetitions. -/
def mentioned (g : Graph) : List Nat := g.initial :: g.states.toList.flatMap State.targets

theorem length_mentioned (g : Graph) : g.mentioned.length = g.edgeCount + 1 := by
  simp [mentioned, edgeCount, List.length_flatMap, State.targets]

theorem targets_subset_mentioned (g : Graph) (q : Nat) :
    (g.state q).targets ⊆ g.mentioned := by
  intro p hp
  by_cases hq : q < g.size
  · refine List.mem_cons_of_mem _ (List.mem_flatMap.2 ⟨g.state q, ?_, hp⟩)
    have hq' : q < g.states.size := hq
    simp [state, Array.getD, hq']
  · rw [state_of_not_lt hq] at hp
    cases hp

theorem mem_reachable_iff {q : Nat} : q ∈ g.reachable ↔ g.IsReachable q := by
  have hs : [g.initial] ⊆ g.mentioned := List.cons_subset_cons _ (List.nil_subset _)
  rw [reachable, mem_explore_iff hs (fun p _ => g.targets_subset_mentioned p)
    (Nat.le_of_eq g.length_mentioned)]
  simp only [Discovered, List.mem_singleton, exists_eq_left, IsReachable, exists_path_iff]

theorem length_reachable_le (g : Graph) : g.reachable.length ≤ g.edgeCount + 1 := by
  rw [← length_mentioned]
  refine (g.nodup_reachable.subperm fun q hq => ?_).length_le
  have h := mem_reachable_iff.1 hq
  rw [IsReachable, exists_path_iff] at h
  induction h with
  | refl => exact List.mem_cons_self
  | tail _ hp _ => exact g.targets_subset_mentioned _ hp

theorem mem_acceptStates {q : Nat} :
    q ∈ g.acceptStates ↔ g.IsReachable q ∧ (g.state q).accept = true := by
  rw [acceptStates, List.mem_filter, mem_reachable_iff]

/-! ## Live states -/

theorem mem_predecessors {places : List Nat} {p q : Nat} :
    p ∈ g.predecessors places q ↔ p ∈ places ∧ q ∈ (g.state p).targets := by
  simp [predecessors]

/-- Walking back over reachable predecessors finds the reachable states with a path there. -/
theorem discovered_predecessors_iff {q : Nat} :
    Discovered (g.predecessors g.reachable) g.acceptStates q ↔ g.IsLive q := by
  constructor
  · intro h
    refine h.induct (fun s hs => ?_) fun p r hp hr => ?_
    · obtain ⟨hs, ha⟩ := List.mem_filter.1 hs
      exact ⟨mem_reachable_iff.1 hs, [], acceptsFrom_nil_iff.2 ha⟩
    · obtain ⟨hr, hm⟩ := mem_predecessors.1 hr
      obtain ⟨_, w, a, hw, ha⟩ := hp
      obtain ⟨v, hv⟩ := path_of_mem_targets hm
      exact ⟨mem_reachable_iff.1 hr, v ++ w, a, path_append_iff.2 ⟨_, hv, hw⟩, ha⟩
  · rintro ⟨hq, w, a, hw, ha⟩
    induction w generalizing q with
    | nil =>
      rw [path_nil_iff] at hw
      subst hw
      exact .start (List.mem_filter.2 ⟨mem_reachable_iff.2 hq, ha⟩)
    | cons c w ih =>
      obtain ⟨p, hp, rest⟩ := path_cons_iff.1 hw
      have ht := targets_of_mem_stepAll hp
      exact (ih (hq.target ht) rest).step
        (mem_predecessors.2 ⟨mem_reachable_iff.2 hq, ht⟩)

theorem mem_live_iff {q : Nat} : q ∈ g.live ↔ g.IsLive q := by
  have hs : g.acceptStates ⊆ g.reachable := fun p hp => (List.mem_filter.1 hp).1
  have hc : ∀ p ∈ g.reachable, g.predecessors g.reachable p ⊆ g.reachable :=
    fun p _ r hr => (mem_predecessors.1 hr).1
  exact (mem_explore_iff hs hc g.length_reachable_le).trans discovered_predecessors_iff

theorem isEmpty_iff : g.isEmpty = true ↔ ∀ w, ¬ g.Accepts w := by
  have h : g.initial ∈ g.live ↔ ∃ w, g.Accepts w :=
    mem_live_iff.trans ⟨And.right, fun h => ⟨g.isReachable_initial, h⟩⟩
  simp [isEmpty, h]

end Graph

end RegLang
