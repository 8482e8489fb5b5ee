import RegLang.Graph.Edit
import RegLang.Proofs.EdgeClosure
import RegLang.Proofs.Iteration
import RegLang.Semantics.EmptyEdges
/-!
# Absorbing and empty edges

Along edges that are closed under chaining, every state gets what the states have that edges lead
to, whatever the order in which they are absorbed.  So the graph accepts what it would accept with
the edges.  Only its flag may be wrong: a batch of edges clears it, but a single edge leaves it as
it was, even if the state that absorbs has two transitions on one letter then.

* `Absorbs.language_eq`: absorbing is as good as empty edges.
* `apply_addEpsilons`: a batch of edges.
* `truthful_absorb_iff`: when the flag stays truthful along a single edge.
* `EdgeAbsorbed`, `apply_addEpsilon`: a single edge.
-/

namespace RegLang.Graph

variable {g h : Graph} {edges closure : List StatePair} {p q r x y : Nat} {c : Char} {w : Word}

/-! ## Acceptance along edges -/

/-- The states of `h` have what the states of `g` have that empty edges lead to. -/
def Absorbs (g : Graph) (edges : List StatePair) (h : Graph) : Prop :=
  ∀ P, State.Passed P → ∀ x, P (h.state x) ↔ ∃ y, EdgePath edges x y ∧ P (g.state y)

theorem Absorbs.covering (hh : g.Absorbs edges h) :
    Machine.Covering id (fun _ => True) (g.lookahead edges) h.machine where
  closed _ _ := trivial
  accept {x} _ := hh _ State.passed_accept x
  step {x c r} _ := by
    simp only [id, exists_eq_right]
    exact hh _ (State.passed_step c r) x

/-- What absorbs along edges accepts what the graph with the edges does. -/
theorem Absorbs.language_eq (hh : g.Absorbs edges h) (hi : h.initial = g.initial) :
    h.language = (g.withEdges edges).accepts := by
  ext w
  rw [mem_accepts_withEdges, ← hh.covering.accepts_iff trivial, accepts_machine_iff, id, ← hi]
  exact Iff.rfl

theorem Absorbs.run_spec (hh : g.Absorbs edges h) (hi : h.initial = g.initial) (hwf : h.WellFormed)
    (ht : h.Truthful) (w : Word) :
    ∃ b, h.run w = .ok b ∧ (b = true ↔ w ∈ (g.withEdges edges).accepts) := by
  rw [← hh.language_eq hi]
  exact Graph.run_spec hwf ht w

/-- It is enough to go once along the chains, in any order. -/
theorem absorbs_absorbAlong (hlt : ∀ e ∈ closure, e.1 < g.size)
    (hclosure : ∀ x y, (x, y) ∈ closure ↔ EdgeChain edges x y) :
    g.Absorbs edges (g.absorbAlong closure) := by
  intro P hP x
  have htrans : ∀ x y z, (x, y) ∈ closure → (y, z) ∈ closure → (x, z) ∈ closure :=
    fun x y z hxy hyz =>
      (hclosure x z).2 (((hclosure x y).1 hxy).trans ((hclosure y z).1 hyz))
  rw [passed_absorbAlong hP hlt htrans]
  constructor
  · rintro (h | ⟨y, hxy, h⟩)
    · exact ⟨x, .refl, h⟩
    · exact ⟨y, ((hclosure x y).1 hxy).to_reflTransGen, h⟩
  · rintro ⟨y, hxy, h⟩
    rcases Relation.reflTransGen_iff_eq_or_transGen.1 hxy with rfl | hxy
    · exact .inl h
    · exact .inr ⟨y, (hclosure x y).2 hxy, h⟩

/-! ## A batch of edges -/

/-- The closure of edges within the arena stays there. -/
theorem lt_of_mem_epsilonClosure {n : Nat} (hedges : ∀ e ∈ edges, e.1 < n ∧ e.2 < n) :
    ∀ e ∈ epsilonClosure edges, e.1 < n ∧ e.2 < n := by
  rintro ⟨x, y⟩ he
  have hxy : EdgeChain edges x y := mem_epsilonClosure.1 he
  obtain ⟨_, hx, -⟩ := Relation.TransGen.head'_iff.1 hxy
  obtain ⟨_, -, hy⟩ := Relation.TransGen.tail'_iff.1 hxy
  exact ⟨(hedges _ hx).1, (hedges _ hy).2⟩

theorem WellFormed.absorbAll (hg : g.WellFormed)
    (hedges : ∀ e ∈ edges, e.1 < g.size ∧ e.2 < g.size) : (g.absorbAll edges).WellFormed := by
  have habsorbed : (g.absorbAlong (epsilonClosure edges)).WellFormed :=
    hg.absorbAlong fun e he => (lt_of_mem_epsilonClosure hedges e he).2
  exact ⟨habsorbed.initial_lt, habsorbed.target_lt⟩

theorem absorbs_absorbAll (hedges : ∀ e ∈ edges, e.1 < g.size ∧ e.2 < g.size) :
    g.Absorbs edges (g.absorbAll edges) :=
  absorbs_absorbAlong (fun e he => (lt_of_mem_epsilonClosure hedges e he).1) fun _ _ =>
    mem_epsilonClosure

/-- A batch of empty edges within the arena, whatever their order, with chains, cycles and
repetitions: the graph accepts what it would accept if the edges could be followed freely. -/
theorem apply_addEpsilons (hg : g.WellFormed) (hedges : ∀ e ∈ edges, e.1 < g.size ∧ e.2 < g.size) :
    ∃ h, g.apply (.addEpsilons edges) = .ok h ∧ h.WellFormed ∧ h.Truthful ∧
      h.language = (g.withEdges edges).accepts ∧
      ∀ w, ∃ b, h.run w = .ok b ∧ (b = true ↔ w ∈ (g.withEdges edges).accepts) := by
  have hinside : g.ensureInside (edges.flatMap fun e => [e.1, e.2]) = .ok g := by
    refine ensureInside_of_lt fun q hq => ?_
    obtain ⟨e, he, hq⟩ := List.mem_flatMap.1 hq
    rcases List.mem_pair.1 hq with rfl | rfl
    · exact (hedges e he).1
    · exact (hedges e he).2
  have hwf : (g.absorbAll edges).WellFormed := hg.absorbAll hedges
  have ht : (g.absorbAll edges).Truthful := fun hd => by cases hd
  have habsorbs : g.Absorbs edges (g.absorbAll edges) := absorbs_absorbAll hedges
  have hi : (g.absorbAll edges).initial = g.initial := initial_absorbAlong g _
  exact ⟨g.absorbAll edges, congrArg (Except.map _) hinside, hwf, ht, habsorbs.language_eq hi,
    habsorbs.run_spec hi hwf ht⟩

/-- Edges in a circle, one from a state to itself, and one given twice. -/
def circular : Graph where
  states := #[{ transitions := [.single 'a' 0] }, { transitions := [.single 'b' 1] },
    { accept := true }]

theorem apply_addEpsilons_circular :
    circular.WellFormed ∧
    (∀ e ∈ [(0, 1), (1, 2), (2, 0), (1, 1), (0, 1)], e.1 < circular.size ∧ e.2 < circular.size) ∧
    ∃ h, circular.apply (.addEpsilons [(0, 1), (1, 2), (2, 0), (1, 1), (0, 1)]) = .ok h ∧
      h.WellFormed ∧ h.Truthful ∧ ∀ w, ∃ b, h.run w = .ok b ∧
        (b = true ↔ w ∈ (circular.withEdges [(0, 1), (1, 2), (2, 0), (1, 1), (0, 1)]).accepts) := by
  have hg : circular.WellFormed := ⟨by decide, by decide⟩
  have hedges : ∀ e ∈ [(0, 1), (1, 2), (2, 0), (1, 1), (0, 1)],
      e.1 < circular.size ∧ e.2 < circular.size := by decide
  obtain ⟨h, happly, hwf, ht, -, hrun⟩ := apply_addEpsilons hg hedges
  exact ⟨hg, hedges, h, happly, hwf, ht, hrun⟩

/-! ## A single edge -/

/-- The transitions of `q` fit those of `p`: no letter is read by both, and whatever can be reached
from `q` has disjoint transitions. -/
structure Joinable (g : Graph) (p q : Nat) : Prop where
  apart : ∀ t ∈ (g.state p).transitions, ∀ u ∈ (g.state q).transitions, ∀ c,
    ¬ (t.contains c = true ∧ u.contains c = true)
  behind : ∀ w r, g.Path q w r → (g.state r).Disjoint

/-- The absorbing graph still goes wherever it went. -/
theorem path_absorb (hp : p < g.size) (hw : g.Path x w y) : (g.absorb p q).Path x w y := by
  induction w generalizing x with
  | nil => exact path_nil_iff.2 (path_nil_iff.1 hw)
  | cons c w ih =>
    obtain ⟨m, hm, hw⟩ := path_cons_iff.1 hw
    exact path_cons_iff.2 ⟨m, (mem_stepAll_absorb hp).2 (.inl hm), ih hw⟩

/-- A path from the absorbed state that reads something can begin at the absorbing one. -/
theorem path_absorb_of_ne_nil (hp : p < g.size) (hne : w ≠ []) (hw : g.Path q w y) :
    (g.absorb p q).Path p w y := by
  obtain ⟨c, w, rfl⟩ := List.exists_cons_of_ne_nil hne
  obtain ⟨m, hm, hw⟩ := path_cons_iff.1 hw
  exact path_cons_iff.2 ⟨m, (mem_stepAll_absorb hp).2 (.inr ⟨rfl, hm⟩), path_absorb hp hw⟩

/-- Absorbing only adds transitions. -/
theorem disjoint_of_absorb (h : ((g.absorb p q).state x).Disjoint) : (g.state x).Disjoint := by
  by_cases hx : x = p ∧ p < g.size
  · obtain ⟨rfl, hx⟩ := hx
    rw [state_absorb_self hx] at h
    exact (List.pairwise_append.1 h).1
  · rwa [absorb, state_modify, if_neg hx] at h

/-- What can be reached afterwards could be reached before, or from the absorbed state. -/
theorem isReachable_of_absorb (hp : p < g.size) (hx : (g.absorb p q).IsReachable x) :
    g.IsReachable x ∨ (g.IsReachable p ∧ ∃ w, g.Path q w x) := by
  refine hx.induct (P := fun x => g.IsReachable x ∨ (g.IsReachable p ∧ ∃ w, g.Path q w x))
    (.inl g.isReachable_initial) fun y c r _ hy hr => ?_
  rcases (mem_stepAll_absorb hp).1 hr with hold | ⟨rfl, hnew⟩
  · rcases hy with hy | ⟨hp, w, hw⟩
    · exact .inl (hy.stepAll hold)
    · exact .inr ⟨hp, w ++ [c], path_append_iff.2 ⟨y, hw, path_cons_iff.2 ⟨r, hold, .nil r⟩⟩⟩
  · exact .inr ⟨hy.elim id And.left, [c], path_cons_iff.2 ⟨r, hnew, .nil r⟩⟩

/-- A flag that was set stays truthful if nothing reaches the absorbing state, or if the transitions
fit. -/
theorem truthful_absorb_iff (ht : g.Truthful) (hp : p < g.size) :
    (g.absorb p q).Truthful ↔ (g.deterministic = true → g.IsReachable p → g.Joinable p q) := by
  constructor
  · rintro h hd ⟨v, hv⟩
    have hv' : (g.absorb p q).Path g.initial v p := path_absorb hp hv
    have hdisjoint : ((g.absorb p q).state p).Disjoint := h hd p ⟨v, hv'⟩
    rw [state_absorb_self hp] at hdisjoint
    obtain ⟨-, hq, happart⟩ := List.pairwise_append.1 hdisjoint
    refine ⟨happart, fun w r hw => ?_⟩
    by_cases hnil : w = []
    · subst hnil
      rwa [← path_nil_iff.1 hw]
    · exact disjoint_of_absorb
        (h hd r ⟨v ++ w, path_append_iff.2 ⟨p, hv', path_absorb_of_ne_nil hp hnil hw⟩⟩)
  · intro h hd x hx
    have hreached := isReachable_of_absorb hp hx
    have hold : (g.state x).Disjoint := by
      rcases hreached with hx | ⟨hpr, w, hw⟩
      · exact ht hd x hx
      · exact (h hd hpr).behind w x hw
    by_cases hxp : x = p
    · subst hxp
      have hjoin := h hd (hreached.elim id And.left)
      rw [state_absorb_self hp]
      exact List.pairwise_append.2 ⟨hold, hjoin.behind [] q (.nil q), hjoin.apart⟩
    · rwa [state_absorb_of_ne hxp]

/-- An edge alone is closed under chaining, even one from a state to itself. -/
theorem edgeChain_singleton_iff : EdgeChain [(p, q)] x y ↔ (x, y) ∈ [(p, q)] := by
  refine ⟨fun h => ?_, fun h => .single h⟩
  induction h with
  | single h => exact h
  | tail _ h ih =>
    rw [List.mem_singleton] at h ih ⊢
    cases h
    cases ih
    rfl

/-- What becomes of `g` when a single empty edge from `p` to `q` is absorbed.  The paths accept what
they should, but the flag stays as it was: it is truthful only if it was not set, or the state in
front of the edge is out of reach, or the transitions behind the edge fit.  Otherwise runs may miss
words; they never accept too many. -/
structure EdgeAbsorbed (g : Graph) (p q : Nat) (h : Graph) : Prop where
  wellFormed : h.WellFormed
  flag : h.deterministic = g.deterministic
  language_eq : h.language = (g.withEdges [(p, q)]).accepts
  truthful_iff : h.Truthful ↔ (g.deterministic = true → g.IsReachable p → g.Joinable p q)
  run_iff : h.Truthful → ∀ w, ∃ b, h.run w = .ok b ∧
    (b = true ↔ w ∈ (g.withEdges [(p, q)]).accepts)
  run_sound : ∀ w, ∃ b, h.run w = .ok b ∧ (b = true → w ∈ (g.withEdges [(p, q)]).accepts)
  run_cleared : ∀ w, ∃ b, (h.setDeterministic false).run w = .ok b ∧
    (b = true ↔ w ∈ (g.withEdges [(p, q)]).accepts)

theorem edgeAbsorbed_absorb (hg : g.WellFormed) (ht : g.Truthful) (hp : p < g.size)
    (hq : q < g.size) : EdgeAbsorbed g p q (g.absorb p q) := by
  have hwf : (g.absorb p q).WellFormed := hg.absorb hq
  have habsorbs : g.Absorbs [(p, q)] (g.absorbAlong [(p, q)]) :=
    absorbs_absorbAlong (List.forall_mem_singleton.2 hp) fun _ _ => edgeChain_singleton_iff.symm
  have hl : (g.absorb p q).language = (g.withEdges [(p, q)]).accepts := habsorbs.language_eq rfl
  have hsound : ∀ w, ∃ b, (g.absorb p q).run w = .ok b ∧
      (b = true → w ∈ (g.withEdges [(p, q)]).accepts) := fun w => by
    rw [← hl]
    exact Graph.run_sound hwf w
  -- the flag has no part in what is absorbed
  have hcleared : g.Absorbs [(p, q)] ((g.absorb p q).setDeterministic false) := habsorbs
  exact {
    wellFormed := hwf
    flag := rfl
    language_eq := hl
    truthful_iff := truthful_absorb_iff ht hp
    run_iff := habsorbs.run_spec rfl hwf
    run_sound := hsound
    run_cleared := hcleared.run_spec rfl ⟨hwf.initial_lt, hwf.target_lt⟩ fun hd => by cases hd }

/-- A single empty edge within the arena is absorbed; that the flag stays truthful is not certain. -/
theorem apply_addEpsilon (hg : g.WellFormed) (ht : g.Truthful) (hp : p < g.size)
    (hq : q < g.size) : ∃ h, g.apply (.addEpsilon p q) = .ok h ∧ EdgeAbsorbed g p q h := by
  have hinside : g.ensureInside [p, q] = .ok g := by
    refine ensureInside_of_lt fun x hx => ?_
    rcases List.mem_pair.1 hx with rfl | rfl
    · exact hp
    · exact hq
  exact ⟨g.absorb p q, congrArg (Except.map _) hinside, edgeAbsorbed_absorb hg ht hp hq⟩

/-- Behind the edge from the first state to the second, `b` is read, and in front of it `a`. -/
def parted : Graph where
  states := #[{ transitions := [.single 'a' 2] }, { transitions := [.single 'b' 2] },
    { accept := true }]

theorem apply_addEpsilon_parted : parted.WellFormed ∧ parted.Truthful ∧ 0 < parted.size ∧
    1 < parted.size ∧ ∃ h, parted.apply (.addEpsilon 0 1) = .ok h ∧ EdgeAbsorbed parted 0 1 h ∧
      h.deterministic = true ∧ h.Truthful ∧ h.run ['b'] = .ok true := by
  have hg : parted.WellFormed := ⟨by decide, by decide⟩
  have ht : parted.Truthful := by decide
  obtain ⟨h, happly, habsorbed⟩ :=
    apply_addEpsilon (p := 0) (q := 1) hg ht (by decide) (by decide)
  cases happly
  exact ⟨hg, ht, by decide, by decide, _, rfl, habsorbed, by decide, by decide, by decide⟩

/-- Both in front of the edge from the first state to the second and behind it `a` is read. -/
def forked : Graph where
  states := #[{ transitions := [.single 'a' 1] }, { transitions := [.single 'a' 2] },
    { accept := true }]

/-- The flag stays set, and the run follows the first transition only. -/
theorem addEpsilon_forked : forked.WellFormed ∧ forked.Truthful ∧ 0 < forked.size ∧
    1 < forked.size ∧ ∃ h, forked.apply (.addEpsilon 0 1) = .ok h ∧ ¬ h.Truthful ∧
      h.run ['a'] = .ok false ∧ ['a'] ∈ (forked.withEdges [(0, 1)]).accepts := by
  refine ⟨⟨by decide, by decide⟩, by decide, by decide, by decide, _, rfl, by decide, by decide, ?_⟩
  rw [mem_accepts_withEdges, Machine.accepts_cons_iff]
  have hedge : EdgePath [(0, 1)] 0 1 := .single (List.mem_singleton_self _)
  exact ⟨2, ⟨1, hedge, by decide⟩, Machine.accepts_nil_iff.2 ⟨2, .refl, by decide⟩⟩

end RegLang.Graph
