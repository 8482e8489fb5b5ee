import RegLang.Proofs.BreadthFirst
import RegLang.Proofs.Minimization
/-!
# Minimizing twice

What refinement and marking leave is settled: minimal, trimmed, and numbered breadth first.  To
prepare a settled graph again adds the sink and moves the numbers behind it, but there is nothing to
hold together, so every state is a class of its own; trimming takes the sink away, and what is then
met in breadth-first order are the old states in the old order, with their transitions as they were.
Two reversals make one graph for one language, so there the language alone decides.

* `Settled.quotient_eq`: the quotient of a settled graph is the graph itself.
* `Automaton.minimize_minimize`: minimizing a second time changes nothing.
-/

namespace RegLang

open RegLang.Graph (Alike)

theorem State.mapTargets_mapTargets (s : State) (f f' : Nat → Nat) :
    (s.mapTargets f).mapTargets f' = s.mapTargets (f' ∘ f) := by
  unfold mapTargets
  rw [List.map_map]
  rfl

namespace Graph

open Transition (Normal)

/-! ## Settled graphs -/

/-- A minimal graph as trimming leaves it, numbered breadth first. -/
structure Settled (m : Graph) : Prop where
  trimmed : m.Trimmed
  minimal : m.Minimal
  numbered : m.reachable = List.range m.size
  flag : m.deterministic = true
  unhashed : m.hashCode = none

variable {g m : Graph} {p q : Nat} {w : Word}

theorem settled_quotient (hg : g.WellFormed) (ht : g.Truthful) :
    (g.prepareTotal.quotient g.markedClasses).Settled where
  trimmed := trimmed_quotient _ _
  minimal := minimal_quotient hg ht
  numbered := reachable_trim _
  flag := flag_quotient _ _
  unhashed := rfl

namespace Settled

theorem wellFormed (hm : m.Settled) : m.WellFormed := hm.trimmed.wellFormed

theorem truthful (hm : m.Settled) : m.Truthful := fun _ => hm.minimal.isDeterministic

theorem isReachable (hm : m.Settled) (hq : q < m.size) : m.IsReachable q :=
  hm.trimmed.reachable q hq

theorem lt (hm : m.Settled) (hq : m.IsReachable q) : q < m.size :=
  hm.wellFormed.lt_of_isReachable hq

/-- The transitions of a settled graph are in normal form already. -/
theorem reduce_state (hm : m.Settled) (hq : q < m.size) : (m.state q).reduce = m.state q :=
  State.reduce_eq_self (hm.trimmed.normal q hq)

end Settled

/-! ## The empty language -/

/-- There is one trimmed graph that accepts nothing. -/
theorem Trimmed.eq_empty (hm : m.Trimmed) (hf : m.deterministic = true) (hc : m.hashCode = none)
    (hl : ∀ w, ¬ m.Accepts w) : m = {} := by
  obtain ⟨hsize, hstate⟩ := hm.lone hl
  refine ext_state hsize (fun q hq => ?_) hm.initial_eq hf hc
  obtain rfl : q = 0 := by omega
  exact hstate

/-! ## States of the prepared graph -/

theorem IsReachable.totalize (hg : g.WellFormed) (hq : g.IsReachable q) :
    g.totalize.IsReachable q := by
  refine hq.induct (P := g.totalize.IsReachable) g.totalize.isReachable_initial ?_
  intro p c r hp hp' hr
  exact hp'.stepAll ((mem_stepAll_totalize hg hp).2 (.inl hr))

/-- The place of a state in the prepared graph. -/
def prepared (m : Graph) (q : Nat) : Nat := m.totalize.reachable.idxOf q

theorem prepared_inj (hp : m.totalize.IsReachable p) (he : m.prepared p = m.prepared q) : p = q :=
  (List.idxOf_inj (mem_reachable_iff.2 hp)).1 he

namespace Settled

theorem prepareTotal_eq (hm : m.Settled) : m.prepareTotal = m.totalize.compact := by
  unfold prepareTotal
  rw [determinize_of_deterministic hm.flag]

theorem state_prepareTotal (hm : m.Settled) (hq : m.totalize.IsReachable q) :
    m.prepareTotal.state (m.prepared q) = (m.totalize.state q).mapTargets m.prepared := by
  rw [hm.prepareTotal_eq]
  exact state_compact hq

theorem exists_prepared (hm : m.Settled) (hq : q < m.prepareTotal.size) :
    ∃ p, m.totalize.IsReachable p ∧ m.prepared p = q := by
  rw [hm.prepareTotal_eq] at hq
  exact exists_idxOf_eq hq

theorem acceptsFrom_prepared (hm : m.Settled) (hq : m.totalize.IsReachable q) :
    m.prepareTotal.AcceptsFrom (m.prepared q) w ↔ m.totalize.AcceptsFrom q w := by
  rw [hm.prepareTotal_eq]
  exact m.totalize.covers_compact.acceptsFrom_iff hq

/-- Unless the language is empty, no two states of the prepared graph accept the same words: the
sink alone accepts none. -/
theorem eq_of_alike (hm : m.Settled) (hl : ∃ w, m.Accepts w) (hp : p < m.prepareTotal.size)
    (hq : q < m.prepareTotal.size) (hpq : Alike m.prepareTotal m.prepareTotal p q) : p = q := by
  obtain ⟨a, ha, rfl⟩ := hm.exists_prepared hp
  obtain ⟨b, hb, rfl⟩ := hm.exists_prepared hq
  have hab : Alike m.totalize m.totalize a b := fun w => by
    rw [← hm.acceptsFrom_prepared ha, ← hm.acceptsFrom_prepared hb]
    exact hpq w
  -- a state that the graph has accepts a word that the sink does not
  have hsink : ∀ a, m.IsReachable a → ¬ Alike m.totalize m.totalize a m.size := by
    intro a ha hal
    obtain ⟨w, hw⟩ := live_of_accepts hl (hm.minimal.noDeadEnds.eq_initial_or ha)
    exact not_acceptsFrom_sink ((hal w).1 ((acceptsFrom_totalize hm.wellFormed ha).2 hw))
  have hplace : a = b := by
    rcases isReachable_of_totalize hm.wellFormed ha with ha' | rfl
    · rcases isReachable_of_totalize hm.wellFormed hb with hb' | rfl
      · apply hm.minimal.distinct a b ha' hb'
        intro w
        rw [← acceptsFrom_totalize hm.wellFormed ha', ← acceptsFrom_totalize hm.wellFormed hb']
        exact hab w
      · exact absurd hab (hsink a ha')
    · rcases isReachable_of_totalize hm.wellFormed hb with hb' | rfl
      · exact absurd hab.symm (hsink b hb')
      · rfl
  rw [hplace]

end Settled

end Graph

namespace Classes

/-! ## A class for every state -/

/-- Every state is a class of its own. -/
def identity (n : Nat) : Classes := ⟨(List.range n).toArray, n⟩

variable {t : Graph} {q : Nat}

theorem get_identity {n : Nat} (hq : q < n) : (identity n).get q = q := by
  simp [identity, get, Array.getD, hq]

theorem faithful_identity (h : ∀ p < t.size, ∀ q < t.size, Alike t t p q → p = q) :
    (identity t.size).Faithful t where
  size_eq := by simp [identity]
  get_eq_iff p hp q hq := by
    rw [get_identity hp, get_identity hq]
    constructor
    · rintro rfl
      exact Alike.refl t p
    · exact h p hp q hq
  get_lt q hq := by
    rw [get_identity hq]
    exact hq
  exists_get c hc := ⟨c, hc, get_identity hc⟩
  earlier q hq c hc := by
    rw [get_identity hq] at hc
    exact ⟨c, hc, get_identity (Nat.lt_trans hc hq)⟩

theorem state_graph_identity (ht : t.WellFormed) (hk : (identity t.size).Faithful t)
    (hq : q < t.size) : (graph t (identity t.size)).state q = t.state q := by
  obtain ⟨p, hp, he, hs⟩ := hk.exists_state hq
  rw [get_identity hq] at hs
  rw [get_identity hp, get_identity hq] at he
  subst he
  rw [hs, State.mapTargets_eq_self]
  exact fun u hu => get_identity (ht.target_lt p hp u hu)

/-- Classes of their own make the graph that there was. -/
theorem graph_identity (ht : t.WellFormed) (hk : (identity t.size).Faithful t)
    (hf : t.deterministic = true) (hc : t.hashCode = none) :
    graph t (identity t.size) = t := by
  have hsize : (graph t (identity t.size)).size = t.size := by
    simp [graph, identity, Graph.size]
  apply Graph.ext_state hsize
  · intro q hq
    rw [hsize] at hq
    exact state_graph_identity ht hk hq
  · exact get_identity ht.initial_lt
  · exact hf.symm
  · exact hc.symm

end Classes

namespace Graph

variable {m : Graph} {q : Nat} {w : Word}

/-! ## Trimming what was prepared -/

/-- Of a state that was filled, only its own transitions stay if the sink is not among the places
that do. -/
theorem restrict_fill {s : State} {f : Nat → Nat} {sink : Nat} {places : List Nat}
    (hown : ∀ t ∈ s.transitions, f t.target ∈ places)
    (hadded : ∀ t ∈ (fill sink s).transitions, t.target = sink → f t.target ∉ places) :
    restrict places ((fill sink s).mapTargets f) = s.mapTargets f := by
  unfold fill at hadded
  simp only [restrict, fill, State.mapTargets, List.map_append, List.filter_append,
    State.mk.injEq, true_and]
  have hkept : ∀ u ∈ s.transitions.map fun t => t.retarget (f t.target),
      places.contains u.target = true := by
    intro u hu
    obtain ⟨t, ht, rfl⟩ := List.mem_map.1 hu
    exact List.contains_iff_mem.2 (hown t ht)
  rw [List.filter_eq_self.2 hkept, List.append_right_eq_self, List.filter_eq_nil_iff]
  intro u hu
  obtain ⟨t, ht, rfl⟩ := List.mem_map.1 hu
  obtain ⟨e, _, rfl⟩ := List.mem_map.1 ht
  rw [List.contains_iff_mem]
  exact hadded _ (List.mem_append_right _ ht) (Transition.between_target _ _ _)

theorem initial_prune (g : Graph) : g.prune.initial = g.initial := rfl

namespace Settled

variable (hm : m.Settled)

include hm

theorem flag_prepareTotal : m.prepareTotal.deterministic = true := by
  rw [hm.prepareTotal_eq, deterministic_compact, deterministic_totalize, hm.flag]

theorem hashCode_prepareTotal : m.prepareTotal.hashCode = none := by
  rw [hm.prepareTotal_eq]
  unfold compact
  dsimp only
  split <;> rfl

theorem isReachable_prepared (hq : m.totalize.IsReachable q) :
    m.prepareTotal.IsReachable (m.prepared q) := by
  rw [hm.prepareTotal_eq]
  apply isReachable_compact
  rw [size_compact]
  exact List.idxOf_lt_length_of_mem (mem_reachable_iff.2 hq)

theorem mem_live_prepared (hq : m.totalize.IsReachable q) :
    m.prepared q ∈ m.prepareTotal.live ↔ ∃ w, m.totalize.AcceptsFrom q w := by
  rw [mem_live_iff]
  constructor
  · rintro ⟨_, w, hw⟩
    exact ⟨w, (hm.acceptsFrom_prepared hq).1 hw⟩
  · rintro ⟨w, hw⟩
    exact ⟨hm.isReachable_prepared hq, w, (hm.acceptsFrom_prepared hq).2 hw⟩

/-- Trimming takes away what preparing has added. -/
theorem state_prune_prepared (hq : q < m.size) :
    m.prepareTotal.prune.state (m.prepared q) = (m.state q).mapTargets m.prepared := by
  have hreach := hm.isReachable hq
  have htotal := hreach.totalize hm.wellFormed
  have hstate : m.totalize.state q = fill m.size (m.state q) := by
    rw [state_totalize_of_lt hq, if_pos (mem_reachable_iff.2 hreach)]
  have hown : ∀ t ∈ (m.state q).transitions, m.prepared t.target ∈ m.prepareTotal.live := by
    intro t ht
    have hr := hreach.target (State.mem_targets.2 ⟨t, ht, rfl⟩)
    obtain ⟨w, hw⟩ := hm.trimmed.live q hq t ht
    exact (hm.mem_live_prepared (hr.totalize hm.wellFormed)).2
      ⟨w, (acceptsFrom_totalize hm.wellFormed hr).2 hw⟩
  have hadded : ∀ t ∈ (fill m.size (m.state q)).transitions, t.target = m.size →
      m.prepared t.target ∉ m.prepareTotal.live := by
    intro t ht he hlive
    rw [← hstate] at ht
    have hr := htotal.target (State.mem_targets.2 ⟨t, ht, rfl⟩)
    obtain ⟨w, hw⟩ := (hm.mem_live_prepared hr).1 hlive
    rw [he] at hw
    exact not_acceptsFrom_sink hw
  rw [state_prune, hm.state_prepareTotal htotal, hstate, restrict_fill hown hadded]

theorem reachable_prune_prepared :
    m.prepareTotal.prune.reachable = m.reachable.map m.prepared := by
  apply reachable_eq_map
  · have hplace : m.prepared m.initial = 0 := m.totalize.idxOf_initial
    rw [initial_prune, hm.prepareTotal_eq, initial_compact, hplace]
  · exact fun p q hp _ => prepared_inj (hp.totalize hm.wellFormed)
  · intro q hq
    rw [hm.state_prune_prepared (hm.lt hq), targets_mapTargets]

/-- States are numbered after trimming as they were before they were prepared. -/
theorem idxOf_prepared (hq : q < m.size) :
    m.prepareTotal.prune.reachable.idxOf (m.prepared q) = q := by
  have hreach := hm.reachable_prune_prepared
  rw [hm.numbered] at hreach
  have hlt : q < m.prepareTotal.prune.reachable.length := by
    rw [hreach, List.length_map, List.length_range]
    exact hq
  have hget : m.prepareTotal.prune.reachable[q] = m.prepared q := by
    simp only [hreach, List.getElem_map, List.getElem_range]
  rw [← hget]
  exact m.prepareTotal.prune.nodup_reachable.idxOf_getElem q hlt

/-- What was prepared is trimmed to what it was prepared from. -/
theorem trim_prepareTotal : m.prepareTotal.trim = m := by
  have hreach := hm.reachable_prune_prepared
  have hsize : m.prepareTotal.trim.size = m.size := by
    rw [trim_eq, size_reduce, size_compact, hreach, List.length_map, hm.numbered,
      List.length_range]
  apply ext_state hsize
  · intro q hq
    rw [hsize] at hq
    have hprepared : m.prepareTotal.prune.IsReachable (m.prepared q) := by
      rw [← mem_reachable_iff, hm.reachable_prune_prepared]
      exact List.mem_map_of_mem (mem_reachable_iff.2 (hm.isReachable hq))
    have hcompact := state_compact hprepared
    rw [hm.idxOf_prepared hq, hm.state_prune_prepared hq, State.mapTargets_mapTargets,
      State.mapTargets_eq_self] at hcompact
    · rw [trim_eq, state_reduce, hcompact, hm.reduce_state hq]
      apply isReachable_compact
      rwa [← hsize, trim_eq, size_reduce] at hq
    · exact fun t ht => hm.idxOf_prepared
        (hm.lt ((hm.isReachable hq).target (State.mem_targets.2 ⟨t, ht, rfl⟩)))
  · exact (trimmed_trim _).initial_eq.trans hm.trimmed.initial_eq.symm
  · rw [deterministic_trim, hm.flag_prepareTotal, hm.flag]
  · exact hm.unhashed.symm

/-! ## The quotient of a settled graph -/

/-- The quotient of a settled graph is the graph itself. -/
theorem quotient_eq : m.prepareTotal.quotient m.markedClasses = m := by
  by_cases hl : ∃ w, m.Accepts w
  · have hprep := prepared_prepareTotal hm.wellFormed hm.truthful
    have hk := Classes.faithful_identity fun _ hp _ hq => hm.eq_of_alike hl hp hq
    have hclasses : m.markedClasses = .identity m.prepareTotal.size :=
      (faithful_markedClasses hm.wellFormed hm.truthful).unique hk
    rw [hclasses, Classes.quotient_eq, Classes.graph_identity hprep.wellFormed hk
      hm.flag_prepareTotal hm.hashCode_prepareTotal, hm.trim_prepareTotal]
  · -- nothing tells the states apart from the sink, but there is only one graph
    have hnone : ∀ w, ¬ m.Accepts w := fun w hw => hl ⟨w, hw⟩
    rw [hm.trimmed.eq_empty hm.flag hm.unhashed hnone]
    apply (trimmed_quotient _ _).eq_empty (flag_quotient _ _) rfl
    intro w hw
    rw [← hm.trimmed.eq_empty hm.flag hm.unhashed hnone] at hw
    exact hnone w ((accepts_quotient hm.wellFormed hm.truthful).1 hw)

end Settled

/-! ## Minimizing again -/

variable {g : Graph}

theorem minimize_hopcroft_of_loopsOnAny (hl : g.determinize.loopsOnAny = true) :
    g.minimize .hopcroft = .ok g.determinize := by
  show Refinement.minimize g = _
  unfold Refinement.minimize
  dsimp only
  rw [if_pos hl]

/-- Refinement leaves a settled graph alone, whether it looks at it or not. -/
theorem Settled.minimize_hopcroft (hm : m.Settled) : m.minimize .hopcroft = .ok m := by
  have hd := determinize_of_deterministic hm.flag
  cases hl : m.determinize.loopsOnAny with
  | true => rw [minimize_hopcroft_of_loopsOnAny hl, hd]
  | false => rw [Graph.minimize_hopcroft hm.wellFormed hm.truthful hl, hm.quotient_eq]

theorem minimize_minimize_eq (a : Minimization) (hg : g.WellFormed) (ht : g.Truthful) :
    ∃ m : Graph, m.WellFormed ∧ g.minimize a = .ok m ∧ m.minimize a = .ok m := by
  have hsettled := settled_quotient hg ht
  cases a with
  | hopcroft =>
    cases hl : g.determinize.loopsOnAny with
    | true =>
      have hd := determinize_of_deterministic g.deterministic_determinize
      refine ⟨g.determinize, hg.determinize, minimize_hopcroft_of_loopsOnAny hl, ?_⟩
      rw [minimize_hopcroft_of_loopsOnAny (by rw [hd]; exact hl), hd]
    | false =>
      exact ⟨_, hsettled.wellFormed, Graph.minimize_hopcroft hg ht hl, hsettled.minimize_hopcroft⟩
  | brzozowski =>
    have hh := (smallest_reverse_reverse hg).wellFormed
    refine ⟨_, hh, rfl, ?_⟩
    exact congrArg Except.ok (reverse_reverse_eq hh hg fun _ => accepts_reverse_reverse hg)
  | huffman => exact ⟨_, hsettled.wellFormed, rfl, congrArg Except.ok hsettled.quotient_eq⟩

end Graph

namespace Automaton

variable {a b : Automaton}

/-- What was minimized stays as it is. -/
theorem minimize_eq_self {m : Minimization} (ha : a.Proper) (hb : a.minimize m = .ok b) :
    b.minimize m = .ok b := by
  cases a with
  | singleton w =>
    cases hb
    rfl
  | graph g =>
    obtain ⟨h, hh, hg, hagain⟩ := Graph.minimize_minimize_eq m ha.wellFormed ha.truthful
    rw [minimize_graph m ha.wellFormed, hg] at hb
    cases hb
    rw [minimize_graph m hh, hagain]
    rfl

/-- Minimizing a second time in the same way changes nothing at all: not the arena, the numbers of
the states, the initial one, what accepts or the order of transitions. -/
theorem minimize_minimize (m : Minimization) (ha : a.WellFormed) (ht : a.Truthful) :
    ∃ b : Automaton, a.minimize m = .ok b ∧ b.minimize m = .ok b := by
  obtain ⟨b, hb, -⟩ := computes_minimize m ⟨ha, ht⟩
  exact ⟨b, hb, minimize_eq_self ⟨ha, ht⟩ hb⟩

theorem minimize_minimize_forked : (graph forked).WellFormed ∧ (graph forked).Truthful ∧
    ∃ b : Automaton, (graph forked).minimize .hopcroft = .ok b ∧ b.minimize .hopcroft = .ok b := by
  have ht : (graph forked).Truthful := fun h => by cases h
  exact ⟨wellFormed_forked, ht, minimize_minimize .hopcroft wellFormed_forked ht⟩

end Automaton

end RegLang
