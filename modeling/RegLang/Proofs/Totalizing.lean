import RegLang.Proofs.CheckedGraphs
import RegLang.Proofs.Simulation
/-!
# Totalizing

A state is made total by transitions to the sink behind its own, on the letters that none of its own
applies to.  So a first transition stays the first one, and where there was none the run ends in the
sink, which it never leaves.  This holds of any well-formed graph: its transitions may overlap, and
its flag may be wrong.

    g.WellFormed → g.totalize.run w = g.run w                                (run_totalize)

* `step_fill`, `follow_totalize`: first transitions before and after.
* `totalizing_totalize`: what totalizing makes.
* `totalize_spec`: totalizing succeeds.
-/

namespace RegLang.Graph

variable {g h : Graph} {s : State} {q sink : Nat} {c : Char} {w : Word}

/-! ## Runs -/

/-- The first transition that applies stays the first, and the sink is next if there is none. -/
theorem step_fill : (fill sink s).step c = some ((s.step c).getD sink) := by
  have hfind : (fill sink s).step c =
      (s.step c).or (((filling sink s).find? (·.contains c)).map (·.target)) := by
    unfold State.step
    rw [transitions_fill, List.find?_append, Option.map_or]
  rw [hfind]
  cases hs : s.step c with
  | some p => rfl
  | none =>
    have hnone := State.step_eq_none_iff.1 hs
    cases hp : (fill sink s).step c with
    | none =>
      have hempty := State.step_eq_none_iff.1 hp
      have hmem : sink ∈ (fill sink s).stepAll c := mem_stepAll_fill.2 (.inr ⟨rfl, hnone⟩)
      rw [hempty] at hmem
      cases hmem
    | some p =>
      rw [← hs, ← hfind, hp]
      rcases mem_stepAll_fill.1 (State.mem_stepAll_of_step hp) with hmem | ⟨rfl, -⟩
      · rw [hnone] at hmem
        cases hmem
      · rw [hs]
        rfl

theorem lt_size_totalize (hq : q ≤ g.size) : q < g.totalize.size := by
  rw [size_totalize]
  exact Nat.lt_succ_of_le hq

theorem follow_totalize_sink (hg : g.WellFormed) (w : Word) :
    g.totalize.follow g.size w = .ok false := by
  have hlt : g.size < g.totalize.size := lt_size_totalize (Nat.le_refl _)
  obtain ⟨b, hb, hw⟩ := follow_sound hg.totalize w hlt
  cases b with
  | false => exact hb
  | true => exact absurd (hw rfl) not_acceptsFrom_sink

/-- The path of first transitions is the same until it ends in the sink. -/
theorem follow_totalize (hg : g.WellFormed) (hq : g.IsReachable q) :
    g.totalize.follow q w = g.follow q w := by
  have hlt := hg.lt_of_isReachable hq
  have hlt' := lt_size_totalize (Nat.le_of_lt hlt)
  induction w generalizing q with
  | nil =>
    rw [follow, follow, fetch_of_lt hlt, fetch_of_lt hlt']
    exact congrArg Except.ok (accept_totalize hg hq)
  | cons c w ih =>
    have hstate : g.totalize.state q = fill g.size (g.state q) := by
      rw [state_totalize_of_lt hlt, if_pos (mem_reachable_iff.2 hq)]
    rw [follow, follow, fetch_of_lt hlt, fetch_of_lt hlt', Except.bind, Except.bind, hstate,
      step_fill]
    cases hs : (g.state q).step c with
    | none => exact follow_totalize_sink hg w
    | some p =>
      have hp := hq.stepAll (State.mem_stepAll_of_step hs)
      have hlt := hg.lt_of_isReachable hp
      exact ih hp hlt (lt_size_totalize (Nat.le_of_lt hlt))

/-- Totalizing does not change the answer of any run, even if the flag is set in vain. -/
theorem run_totalize (hg : g.WellFormed) (w : Word) : g.totalize.run w = g.run w := by
  by_cases hd : g.deterministic = true
  · unfold run
    rw [deterministic_totalize, if_pos hd, if_pos hd]
    exact follow_totalize hg g.isReachable_initial
  · have hg' : (Automaton.graph g).Proper := ⟨hg, fun h => absurd h hd⟩
    have hh' : (Automaton.graph g.totalize).Proper := ⟨hg.totalize, fun h => absurd h hd⟩
    exact hg'.run_congr hh' (acceptsFrom_totalize hg g.isReachable_initial)

/-! ## What totalizing makes -/

/-- A graph that accepts what `g` accepts, with a transition on every letter in every reachable
state.  It has one more state, the sink, which rejects and loops on every letter.  Reachable states
of `g` have new transitions behind their own: these lead to the sink, no two of them share a letter,
and they share none with the transitions that were there.  All other states stay as they were. -/
structure Totalizing (g h : Graph) : Prop where
  accepts_iff : ∀ w, h.Accepts w ↔ g.Accepts w
  run_eq : ∀ w, h.run w = g.run w
  wellFormed : h.WellFormed
  total : ∀ q, h.IsReachable q → ∀ c, ∃ t ∈ (h.state q).transitions, t.contains c = true
  size_eq : h.size = g.size + 1
  initial_eq : h.initial = g.initial
  sink : h.state g.size = { transitions := [Transition.onAny g.size] }
  filled : ∀ q, g.IsReachable q → ∃ new : List Transition,
    h.state q = { g.state q with transitions := (g.state q).transitions ++ new } ∧
    (∀ t ∈ new, t.target = g.size ∧
      ∀ c, t.contains c = true → ∀ u ∈ (g.state q).transitions, u.contains c = false) ∧
    new.Pairwise fun t u => ∀ c, ¬ (t.contains c = true ∧ u.contains c = true)
  untouched : ∀ q < g.size, ¬ g.IsReachable q → h.state q = g.state q
  flag : h.deterministic = g.deterministic
  truthful : g.Truthful → h.Truthful

theorem totalizing_totalize (hg : g.WellFormed) : Totalizing g g.totalize where
  accepts_iff _ := acceptsFrom_totalize hg g.isReachable_initial
  run_eq := run_totalize hg
  wellFormed := hg.totalize
  total q hq c := by
    obtain ⟨p, hp⟩ := exists_step_totalize hg hq c
    obtain ⟨t, ht, hc, -⟩ := State.mem_stepAll.1 hp
    exact ⟨t, ht, hc⟩
  size_eq := g.size_totalize
  initial_eq := rfl
  sink := g.state_totalize_sink
  filled q hq := by
    refine ⟨filling g.size (g.state q), ?_, fun t ht => ⟨(mem_filling ht).1, fun c hc u hu => ?_⟩,
      disjoint_filling g.size (g.state q)⟩
    · rw [state_totalize_of_lt (hg.lt_of_isReachable hq), if_pos (mem_reachable_iff.2 hq)]
      rfl
    · exact contains_eq_false_of_filling ht hc hu
  untouched q hq hnot := by
    rw [state_totalize_of_lt hq, if_neg fun hmem => hnot (mem_reachable_iff.1 hmem)]
  flag := rfl
  truthful ht hf := (ht hf).totalize hg

/-- Totalizing a well-formed graph, deterministic or not, succeeds, with no access to the arena out
of bounds.  It keeps the language and the answers of all runs, makes every reachable state total
without a second transition where there was one, and so leaves a truthful flag truthful. -/
theorem totalize_spec (hg : g.WellFormed) :
    ∃ h : Graph, g.apply .totalize = .ok h ∧ Checked.totalize g = .ok h ∧ Totalizing g h := by
  refine ⟨g.totalize, ?_, Checked.totalize_eq hg, totalizing_totalize hg⟩
  rw [apply, hg.ensureIntact]
  rfl

/-- The first letter is free, intervals overlap and lie within one another, one ends before the
surrogates and the next one begins a letter after them, and the last letter is taken.  One state is
out of reach. -/
def patchy : Graph where
  states := #[{ transitions := [.between '\uE001' Alphabet.last 1, .between 'c' '\uD7FF' 0,
      .between 'b' 'f' 1, .single 'd' 0] },
    { accept := true }, { transitions := [.single 'x' 0] }]
  deterministic := false

/-- The letter after the surrogates is a gap of its own. -/
example : filling 3 (patchy.state 0) = [.between Alphabet.first 'a' 3, .single '\uE000' 3] := by
  cbv

theorem totalize_spec_patchy : patchy.WellFormed ∧
    ∃ h : Graph, patchy.apply .totalize = .ok h ∧ Totalizing patchy h := by
  have hg : patchy.WellFormed := ⟨by decide, by decide⟩
  obtain ⟨h, hh, -, hspec⟩ := totalize_spec hg
  exact ⟨hg, h, hh, hspec⟩

end RegLang.Graph
