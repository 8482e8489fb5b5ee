import RegLang.Proofs.Draws
import RegLang.Proofs.Simulation
import RegLang.Random.Walk
/-!
# Random walks and the language

A walk goes from live state to live state, so it never gets stuck, and it reads a word that is
accepted, whatever source it draws from.  If the source draws every value from some words, the walk
reads any word that is accepted:

    {w | ∃ ws rest, a.draw d ws = (.ok w, rest)} = a.language

* `walk_cases`: what one step of a walk can do.
* `acceptsFrom_of_walk`, `walk_eq_exhausted`: what a walk can answer.
* `exists_walk`: every accepted word is walked along.
-/

namespace RegLang

namespace Graph

variable {g : Graph} {d : Random.Source} {live : List Nat} {q : Nat} {c : Char} {w : Word}
  {ws rest : List UInt64} {e : DrawError}

/-! ## One step -/

theorem mem_liveTransitions {s : State} {t : Transition} :
    t ∈ liveTransitions live s ↔ t ∈ s.transitions ∧ t.target ∈ live := by
  simp [liveTransitions]

theorem some_mem_choices {s : State} {t : Transition} :
    some t ∈ choices live s ↔ t ∈ liveTransitions live s := by
  simp [choices]

theorem none_mem_choices {s : State} : none ∈ choices live s ↔ s.accept = true := by
  simp [choices]

theorem length_choices_le (live : List Nat) (s : State) :
    (choices live s).length ≤ s.transitions.length + 1 := by
  have hfilter : (liveTransitions live s).length ≤ s.transitions.length := by
    refine (List.length_filter_le _ _).trans_eq ?_
    exact (List.mergeSort_perm _ _).length_eq
  simp only [choices, List.length_append, List.length_map]
  split <;> simp only [List.length_singleton, List.length_nil] <;> omega

/-- A walk that draws to stop ends where it is. -/
theorem walk_of_stop (h : liveTransitions live (g.state q) ≠ [])
    {i : Fin (choices live (g.state q)).length}
    (hi : (d.below _ (choices_pos h)).run ws = some (i, rest))
    (hc : (choices live (g.state q)).get i = none) : g.walk d live q ws = (.ok [], rest) := by
  have hchoice : (choices live (g.state q))[i] = none := hc
  rw [walk_of_ne_nil h, hi]
  simp only [hchoice]

/-- A walk that draws a transition draws one of its letters and goes on behind it. -/
theorem walk_of_step (h : liveTransitions live (g.state q) ≠ []) {us vs : List UInt64}
    {i : Fin (choices live (g.state q)).length} {t : Transition} {c : Random.Between t.lo t.hi}
    (hi : (d.below _ (choices_pos h)).run ws = some (i, vs))
    (hc : (choices live (g.state q)).get i = some t)
    (hl : (d.letter t.lo t.hi t.lo_le_hi).run vs = some (c, us)) :
    g.walk d live q ws =
      ((g.walk d live t.target us).1.map (c.1 :: ·), (g.walk d live t.target us).2) := by
  have hchoice : (choices live (g.state q))[i] = some t := hc
  rw [walk_of_ne_nil h, hi]
  simp only [hchoice, hl]

/-- What one step of a walk can do: end in a state without live transitions, lack random words,
stop in an accepting state, or read a letter of a live transition. -/
theorem walk_cases (g : Graph) (d : Random.Source) (live : List Nat) (q : Nat)
    (ws : List UInt64) :
    (liveTransitions live (g.state q) = [] ∧ g.walk d live q ws =
      (if (g.state q).accept then .ok [] else .error (.fault (.deadEnd q)), ws)) ∨
    g.walk d live q ws = (.error .exhausted, []) ∨
    ((g.state q).accept = true ∧ ∃ rest, g.walk d live q ws = (.ok [], rest)) ∨
    ∃ t ∈ liveTransitions live (g.state q), ∃ c, t.contains c = true ∧
      ∃ us, us.length < ws.length ∧ g.walk d live q ws =
        ((g.walk d live t.target us).1.map (c :: ·), (g.walk d live t.target us).2) := by
  by_cases hnil : liveTransitions live (g.state q) = []
  · exact .inl ⟨hnil, walk_of_nil hnil⟩
  refine .inr ?_
  cases hi : (d.below _ (choices_pos hnil)).run ws with
  | none =>
    left
    rw [walk_of_ne_nil hnil, hi]
  | some ivs =>
    obtain ⟨i, vs⟩ := ivs
    have hmem : (choices live (g.state q)).get i ∈ choices live (g.state q) := List.get_mem _ _
    cases hc : (choices live (g.state q)).get i with
    | none =>
      rw [hc] at hmem
      exact .inr (.inl ⟨none_mem_choices.1 hmem, _, walk_of_stop hnil hi hc⟩)
    | some t =>
      rw [hc] at hmem
      cases hl : (d.letter t.lo t.hi t.lo_le_hi).run vs with
      | none =>
        left
        have hchoice : (choices live (g.state q))[i] = some t := hc
        rw [walk_of_ne_nil hnil, hi]
        simp only [hchoice, hl]
      | some cus =>
        obtain ⟨c, us⟩ := cus
        exact .inr (.inr ⟨t, some_mem_choices.1 hmem, c, Transition.contains_iff.2 c.2, us,
          Nat.lt_trans (Random.Draw.length_lt _ hl) (Random.Draw.length_lt _ hi),
          walk_of_step hnil hi hc hl⟩)

/-! ## What is walked is accepted -/

theorem acceptsFrom_of_walk (h : g.walk d live q ws = (.ok w, rest)) : g.AcceptsFrom q w := by
  -- by induction on the number of random words, one step at a time
  induction hn : ws.length using Nat.strongRecOn generalizing q ws w rest with
  | ind n ih =>
    obtain ⟨-, hw⟩ | hw | ⟨ha, _, hw⟩ | ⟨t, ht, c, hc, us, hlt, hw⟩ := g.walk_cases d live q ws
    · rw [hw] at h
      split at h
      · next ha =>
        cases h
        exact acceptsFrom_nil_iff.2 ha
      · cases h
    · rw [hw] at h
      cases h
    · rw [hw] at h
      cases h
      exact acceptsFrom_nil_iff.2 ha
    · rw [hw] at h
      cases hv : (g.walk d live t.target us).1 with
      | error e =>
        rw [hv] at h
        cases h
      | ok v =>
        rw [hv] at h
        cases h
        have hrest := ih us.length (hn ▸ hlt) (w := v) (Prod.ext hv rfl) rfl
        exact acceptsFrom_cons_iff.2
          ⟨t.target, State.mem_stepAll.2 ⟨t, (mem_liveTransitions.1 ht).1, hc, rfl⟩, hrest⟩

/-! ## Walks do not get stuck -/

/-- A state from which a step of an accepting path leads has a live transition to take. -/
theorem exists_liveTransition (hq : g.IsReachable q) (h : g.AcceptsFrom q (c :: w)) :
    ∃ t ∈ liveTransitions g.live (g.state q), t.contains c = true ∧ g.AcceptsFrom t.target w := by
  obtain ⟨p, hp, hw⟩ := acceptsFrom_cons_iff.1 h
  obtain ⟨t, ht, hc, rfl⟩ := State.mem_stepAll.1 hp
  have hlive : t.target ∈ g.live := mem_live_iff.2 ⟨hq.stepAll hp, w, hw⟩
  exact ⟨t, mem_liveTransitions.2 ⟨ht, hlive⟩, hc, hw⟩

/-- A live state without transitions to live states accepts. -/
theorem IsLive.accept_of_nil (hq : g.IsLive q)
    (h : liveTransitions g.live (g.state q) = []) : (g.state q).accept = true := by
  obtain ⟨hreach, w, hw⟩ := hq
  cases w with
  | nil => exact acceptsFrom_nil_iff.1 hw
  | cons c w =>
    obtain ⟨t, ht, -⟩ := exists_liveTransition hreach hw
    rw [h] at ht
    cases ht

/-- From a live state, a walk fails for want of random words alone. -/
theorem walk_eq_exhausted (hq : g.IsLive q) (h : (g.walk d g.live q ws).1 = .error e) :
    e = .exhausted := by
  induction hn : ws.length using Nat.strongRecOn generalizing q ws with
  | ind n ih =>
    obtain ⟨hnil, hw⟩ | hw | ⟨ha, _, hw⟩ | ⟨t, ht, c, hc, us, hlt, hw⟩ :=
      g.walk_cases d g.live q ws
    · rw [hw, if_pos (hq.accept_of_nil hnil)] at h
      cases h
    · rw [hw] at h
      cases h
      rfl
    · rw [hw] at h
      cases h
    · rw [hw] at h
      have hlive : g.IsLive t.target := mem_live_iff.1 (mem_liveTransitions.1 ht).2
      cases hv : (g.walk d g.live t.target us).1 with
      | error f =>
        rw [hv] at h
        cases h
        exact ih us.length (hn ▸ hlt) hlive hv rfl
      | ok v =>
        rw [hv] at h
        cases h

/-! ## What is accepted is walked -/

/-- No state has more transitions than a machine word counts, as no list in memory has more
entries.  The choices of a walk are numbered by such a count. -/
def Countable (g : Graph) : Prop := ∀ q, (g.state q).transitions.length < UInt64.size

/-- Some random words draw any one of the choices. -/
theorem Countable.exists_draw (hg : g.Countable) (hd : d.Onto) {o : Option Transition}
    (ho : o ∈ choices live (g.state q)) (hpos : 0 < (choices live (g.state q)).length) :
    ∃ i, (choices live (g.state q)).get i = o ∧
      ∃ us, ∀ ws, (d.below _ hpos).run (us ++ ws) = some (i, ws) := by
  obtain ⟨i, hi⟩ := List.get_of_mem ho
  have hle : (choices live (g.state q)).length ≤ UInt64.size :=
    (length_choices_le live _).trans (hg q)
  exact ⟨i, hi, (hd.below _ hpos hle).exists_run i⟩

theorem exists_walk (hg : g.Countable) (hd : d.Onto) (hq : g.IsReachable q)
    (h : g.AcceptsFrom q w) : ∃ ws, g.walk d g.live q ws = (.ok w, []) := by
  -- the random words steer the walk along an accepting path
  induction w generalizing q with
  | nil =>
    have ha := acceptsFrom_nil_iff.1 h
    by_cases hnil : liveTransitions g.live (g.state q) = []
    · exact ⟨[], by rw [walk_of_nil hnil, if_pos ha]⟩
    · obtain ⟨i, hi, us, hus⟩ := hg.exists_draw hd (none_mem_choices.2 ha) (choices_pos hnil)
      exact ⟨us ++ [], walk_of_stop hnil (hus []) hi⟩
  | cons c w ih =>
    obtain ⟨t, ht, hc, hw⟩ := exists_liveTransition hq h
    have htarget : t.target ∈ (g.state q).targets :=
      State.mem_targets.2 ⟨t, (mem_liveTransitions.1 ht).1, rfl⟩
    obtain ⟨ws, hws⟩ := ih (hq.target htarget) hw
    have hnil : liveTransitions g.live (g.state q) ≠ [] := List.ne_nil_of_mem ht
    obtain ⟨i, hi, us, hus⟩ := hg.exists_draw hd (some_mem_choices.2 ht) (choices_pos hnil)
    obtain ⟨vs, hvs⟩ :=
      (hd.letter _ _ t.lo_le_hi).exists_run ⟨c, Transition.contains_iff.1 hc⟩
    refine ⟨us ++ (vs ++ ws), ?_⟩
    rw [walk_of_step hnil (hus (vs ++ ws)) hi (hvs ws), hws]
    rfl

end Graph

namespace Automaton

open RegLang.Graph

variable {a : Automaton} {d : Random.Source} {w : Word} {ws rest : List UInt64}

/-- A draw from a proper graph walks if the initial state is live. -/
theorem draw_graph {g : Graph} (hg : g.WellFormed) (d : Random.Source) (ws : List UInt64) :
    (graph g).draw d ws =
      if g.live.contains g.initial then g.walk d g.live g.initial ws
      else (.error .emptyLanguage, ws) := by
  rw [draw, hg.ensureIntact]

theorem accepts_of_draw (ha : a.WellFormed) (h : a.draw d ws = (.ok w, rest)) :
    a.Accepts w := by
  cases a with
  | singleton v =>
    cases h
    rfl
  | graph g =>
    rw [draw_graph ha] at h
    split at h
    · exact acceptsFrom_of_walk h
    · cases h

theorem exists_draw (ha : a.WellFormed) (hc : a.toGraph.Countable) (hd : d.Onto)
    (h : a.Accepts w) : ∃ ws, a.draw d ws = (.ok w, []) := by
  cases a with
  | singleton v =>
    have hw : w = v := h
    exact ⟨[], by rw [hw]; rfl⟩
  | graph g =>
    have hlive : g.live.contains g.initial = true :=
      List.contains_iff_mem.2 (mem_live_iff.2 ⟨g.isReachable_initial, w, h⟩)
    obtain ⟨ws, hws⟩ := exists_walk hc hd g.isReachable_initial h
    refine ⟨ws, ?_⟩
    rw [draw_graph ha, if_pos hlive]
    exact hws

/-- A draw fails because the language is empty, or for want of random words. -/
theorem draw_eq_error (ha : a.WellFormed) {e : DrawError} (h : (a.draw d ws).1 = .error e) :
    (e = .emptyLanguage ∧ a.language = 0) ∨ (e = .exhausted ∧ a.language ≠ 0) := by
  cases a with
  | singleton v => cases h
  | graph g =>
    rw [draw_graph ha] at h
    split at h
    · next hlive =>
      have hlive := mem_live_iff.1 (List.contains_iff_mem.1 hlive)
      refine .inr ⟨walk_eq_exhausted hlive h, fun hempty => ?_⟩
      obtain ⟨-, w, hw⟩ := hlive
      exact language_eq_zero_iff.1 hempty w hw
    · next hlive =>
      cases h
      refine .inl ⟨rfl, language_eq_zero_iff.2 fun w hw => hlive ?_⟩
      exact List.contains_iff_mem.2 (mem_live_iff.2 ⟨g.isReachable_initial, w, hw⟩)

/-- The words that are drawn are those of the language; the draw fails on the empty language
alone, and never at a dead end.  That holds of every source; only for all words of the language to
come up, the source must draw all values, as the one that scales does. -/
theorem draw_spec (ha : a.WellFormed) (ht : a.Truthful) :
    Random.Source.scaling.Onto ∧ ∀ d : Random.Source,
      (∀ ws w rest, a.draw d ws = (.ok w, rest) → a.run w = .ok true) ∧
      (d.Onto → a.toGraph.Countable →
        ∀ w, a.run w = .ok true → ∃ ws, a.draw d ws = (.ok w, [])) ∧
      (∀ ws, (a.draw d ws).1 = .error .emptyLanguage ↔ a.language = 0) ∧
      ∀ ws f, (a.draw d ws).1 ≠ .error (.fault f) := by
  have hproper : a.Proper := ⟨ha, ht⟩
  refine ⟨Random.onto_scaling, fun d => ⟨?_, ?_, ?_, ?_⟩⟩
  · intro ws w rest h
    exact hproper.run_eq_true_iff.2 (accepts_of_draw ha h)
  · intro hd hc w hw
    exact exists_draw ha hc hd (hproper.run_eq_true_iff.1 hw)
  · intro ws
    constructor
    · intro h
      obtain ⟨-, hl⟩ | ⟨he, -⟩ := draw_eq_error ha h
      · exact hl
      · cases he
    · intro hl
      cases hdraw : a.draw d ws with
      | mk r rest =>
        cases r with
        | ok w => exact absurd (accepts_of_draw ha hdraw) (language_eq_zero_iff.1 hl w)
        | error e =>
          obtain ⟨rfl, -⟩ | ⟨-, hne⟩ := draw_eq_error ha (congrArg Prod.fst hdraw)
          · rfl
          · exact absurd hl hne
  · intro ws f h
    obtain ⟨he, -⟩ | ⟨he, -⟩ := draw_eq_error ha h <;> cases he

/-- A loop that overlaps the way out, and a state that leads nowhere. -/
def detour : Graph where
  states := #[{ transitions := [.single 'a' 0, .between 'a' 'b' 1, .onAny 2] },
    { accept := true }, { transitions := [.onAny 2] }]
  deterministic := false

theorem countable_detour : detour.Countable
  | 0 => by decide
  | 1 => by decide
  | 2 => by decide
  | _ + 3 => (by decide : 0 < UInt64.size)

theorem draw_spec_detour : detour.WellFormed ∧ detour.Truthful ∧ detour.Countable ∧
    Random.Source.scaling.Onto ∧
    (∃ ws, (graph detour).draw .scaling ws = (.ok ['a', 'b'], [])) ∧
    ∀ ws f, ((graph detour).draw .scaling ws).1 ≠ .error (.fault f) := by
  have hg : detour.WellFormed := ⟨by decide, by decide⟩
  have ht : detour.Truthful := fun h => by cases h
  obtain ⟨honto, hspec⟩ := draw_spec (a := graph detour) hg ht
  obtain ⟨-, hdrawn, -, hfault⟩ := hspec .scaling
  exact ⟨hg, ht, countable_detour, honto,
    hdrawn honto countable_detour ['a', 'b'] (by decide +kernel), hfault⟩

end Automaton

end RegLang
