import RegLang.Automaton.Run
import RegLang.Graph.Subsets
import RegLang.Proofs.Determinism
import RegLang.Proofs.StateSets
import RegLang.Result
/-!
# Runs and acceptance

On a well-formed graph no run meets a fault.  Following the first transitions of a deterministic
graph and simulating sets of states both decide whether some path accepts.

    a.WellFormed → a.Truthful → a.run w = .ok (decide (a.Accepts w))      (run_eq_decide)
-/

namespace RegLang

namespace Graph

variable {g : Graph}

/-! ## One path -/

theorem follow_spec (hg : g.WellFormed) (hd : g.IsDeterministic) (w : Word) {q : Nat}
    (hq : g.IsReachable q) : ∃ b, g.follow q w = .ok b ∧ (b = true ↔ g.AcceptsFrom q w) := by
  have hf : g.fetch q = .ok (g.state q) := fetch_of_lt (hg.lt_of_isReachable hq)
  induction w generalizing q with
  | nil =>
    refine ⟨(g.state q).accept, ?_, acceptsFrom_nil_iff.symm⟩
    unfold follow
    rw [hf]
    rfl
  | cons c w ih =>
    unfold follow
    rw [hf, Except.bind]
    cases hs : (g.state q).step c with
    | none =>
      refine ⟨false, rfl, ?_⟩
      rw [acceptsFrom_cons_iff, State.step_eq_none_iff.1 hs]
      simp
    | some p =>
      have hp : p ∈ (g.state q).stepAll c := State.mem_stepAll_of_step hs
      rw [hd.acceptsFrom_cons_iff hq hp]
      exact ih (hq.stepAll hp) (fetch_of_lt (hg.lt_of_isReachable (hq.stepAll hp)))

/-- Even where transitions are not disjoint, the path of the first ones is a path. -/
theorem follow_sound (hg : g.WellFormed) (w : Word) {q : Nat} (hq : q < g.size) :
    ∃ b, g.follow q w = .ok b ∧ (b = true → g.AcceptsFrom q w) := by
  induction w generalizing q with
  | nil =>
    refine ⟨(g.state q).accept, ?_, acceptsFrom_nil_iff.2⟩
    unfold follow
    rw [fetch_of_lt hq]
    rfl
  | cons c w ih =>
    unfold follow
    rw [fetch_of_lt hq, Except.bind]
    cases hs : (g.state q).step c with
    | none => exact ⟨false, rfl, fun h => by cases h⟩
    | some p =>
      have hp : p ∈ (g.state q).stepAll c := State.mem_stepAll_of_step hs
      obtain ⟨b, hb, hw⟩ := ih (hg.lt_of_mem_stepAll hq hp)
      exact ⟨b, hb, fun h => acceptsFrom_cons_iff.2 ⟨p, hp, hw h⟩⟩

/-! ## Sets of states -/

/-- The set of states that a letter leads to holds exactly these. -/
theorem mem_toList_move {ms : List Nat} {c : Char}
    (h : ∀ p ∈ ms, ∀ q ∈ (g.state p).stepAll c, q < g.size) {q : Nat} :
    q ∈ (g.move ms c).toList ↔ ∃ p ∈ ms, q ∈ (g.state p).stepAll c := by
  show q ∈ (StateSet.ofList g.size _).toList ↔ _
  rw [StateSet.mem_toList_ofList_of_lt]
  · exact List.mem_flatMap
  · intro r hr
    obtain ⟨p, hp, hr⟩ := List.mem_flatMap.1 hr
    exact h p hp r hr

theorem valid_move (g : Graph) (ms : List Nat) (c : Char) : (g.move ms c).Valid :=
  StateSet.valid_ofList _ _

theorem advance_aux (hg : g.WellFormed) (c : Char) {qs : List Nat} (hqs : ∀ q ∈ qs, q < g.size)
    {next : StateSet} (hcap : g.size ≤ next.capacity) :
    qs.foldlM (fun next q => (g.fetch q).bind fun s => next.insertAll (s.stepAll c)) next =
      .ok ((qs.flatMap fun q => (g.state q).stepAll c).foldl StateSet.add next) := by
  induction qs generalizing next with
  | nil => rfl
  | cons q qs ih =>
    have hq : q < g.size := hqs q List.mem_cons_self
    have hin : ∀ r ∈ (g.state q).stepAll c, r < next.capacity := fun r hr =>
      Nat.lt_of_lt_of_le (hg.lt_of_mem_stepAll hq hr) hcap
    rw [List.foldlM_cons, fetch_of_lt hq]
    show (next.insertAll ((g.state q).stepAll c)).bind _ = _
    rw [StateSet.insertAll_of_lt hin, List.flatMap_cons, List.foldl_append]
    apply ih fun r hr => hqs r (List.mem_cons_of_mem _ hr)
    rw [StateSet.capacity_foldl_add]
    exact hcap

theorem advance_eq_move (hg : g.WellFormed) (c : Char) {current : StateSet}
    (h : ∀ q ∈ current.toList, q < g.size) :
    g.advance current c = .ok (g.move current.toList c) :=
  advance_aux hg c h (StateSet.le_capacity_ofCapacity g.size)

theorem simulate_spec (hg : g.WellFormed) (w : Word) {current : StateSet}
    (h : ∀ q ∈ current.toList, q < g.size) :
    ∃ b, g.simulate current w = .ok b ∧
      (b = true ↔ ∃ q ∈ current.toList, g.AcceptsFrom q w) := by
  induction w generalizing current with
  | nil =>
    refine ⟨current.toList.any fun q => (g.state q).accept, ?_, ?_⟩
    · apply anyM_eq_ok
      intro q hq
      rw [fetch_of_lt (h q hq)]
      rfl
    · rw [List.any_eq_true]
      simp only [acceptsFrom_nil_iff]
  | cons c w ih =>
    have hlt : ∀ p ∈ current.toList, ∀ q ∈ (g.state p).stepAll c, q < g.size := fun p hp q hq =>
      hg.lt_of_mem_stepAll (h p hp) hq
    -- what the letter leads to is what the first transitions of accepting paths lead to
    have hstep : (∃ q ∈ current.toList, g.AcceptsFrom q (c :: w)) ↔
        ∃ p ∈ (g.move current.toList c).toList, g.AcceptsFrom p w := by
      simp only [acceptsFrom_cons_iff, mem_toList_move hlt]
      constructor
      · rintro ⟨q, hq, p, hp, hw⟩
        exact ⟨p, ⟨q, hq, hp⟩, hw⟩
      · rintro ⟨p, ⟨q, hq, hp⟩, hw⟩
        exact ⟨q, hq, p, hp, hw⟩
    unfold simulate
    rw [advance_eq_move hg c h]
    show ∃ b, (if (g.move current.toList c).isEmpty then .ok false
      else g.simulate (g.move current.toList c) w) = .ok b ∧ _
    by_cases he : (g.move current.toList c).isEmpty = true
    · refine ⟨false, if_pos he, ?_⟩
      rw [hstep, (g.valid_move _ c).isEmpty_iff.1 he]
      simp
    · rw [if_neg he, hstep]
      apply ih
      intro q hq
      obtain ⟨p, hp, hq⟩ := (mem_toList_move hlt).1 hq
      exact hlt p hp q hq

/-! ## Runs -/

theorem run_spec (hg : g.WellFormed) (ht : g.Truthful) (w : Word) :
    ∃ b, g.run w = .ok b ∧ (b = true ↔ g.Accepts w) := by
  unfold run
  by_cases hd : g.deterministic = true
  · rw [if_pos hd]
    exact follow_spec hg (ht hd) w g.isReachable_initial
  · rw [if_neg hd]
    have hcap : g.initial < (StateSet.ofCapacity g.size).capacity :=
      Nat.lt_of_lt_of_le hg.initial_lt (StateSet.le_capacity_ofCapacity _)
    have hmem : ∀ q, q ∈ (StateSet.ofList g.size [g.initial]).toList ↔ q = g.initial := by
      intro q
      rw [StateSet.mem_toList_ofList_of_lt (by simpa using hg.initial_lt)]
      exact List.mem_singleton
    have hins : ((StateSet.ofCapacity g.size).insert g.initial) =
        .ok (!(StateSet.ofCapacity g.size).contains g.initial,
          StateSet.ofList g.size [g.initial]) := if_pos hcap
    rw [hins]
    show ∃ b, g.simulate (StateSet.ofList g.size [g.initial]) w = .ok b ∧ _
    have hlt : ∀ q ∈ (StateSet.ofList g.size [g.initial]).toList, q < g.size := fun q hq =>
      (hmem q).1 hq ▸ hg.initial_lt
    obtain ⟨b, hb, hiff⟩ := simulate_spec hg w hlt
    refine ⟨b, hb, hiff.trans ?_⟩
    simp only [hmem, exists_eq_left]
    exact Iff.rfl

/-- Whatever the flag says, nothing is accepted that no path accepts. -/
theorem run_sound (hg : g.WellFormed) (w : Word) :
    ∃ b, g.run w = .ok b ∧ (b = true → g.Accepts w) := by
  by_cases hd : g.deterministic = true
  · unfold run
    rw [if_pos hd]
    exact follow_sound hg w hg.initial_lt
  · obtain ⟨b, hb, hiff⟩ := run_spec hg (fun h => absurd h hd) w
    exact ⟨b, hb, hiff.1⟩

end Graph

namespace Automaton

variable {a : Automaton}

theorem run_spec (ha : a.WellFormed) (ht : a.Truthful) (w : Word) :
    ∃ b, a.run w = .ok b ∧ (b = true ↔ a.Accepts w) := by
  cases a with
  | singleton v => exact ⟨v = w, rfl, by rw [decide_eq_true_iff]; exact eq_comm⟩
  | graph g => exact Graph.run_spec ha ht w

open Classical in
/-- A run decides acceptance. -/
theorem run_eq_decide (ha : a.WellFormed) (ht : a.Truthful) (w : Word) :
    a.run w = .ok (decide (a.Accepts w)) := by
  obtain ⟨b, hb, hiff⟩ := run_spec ha ht w
  rw [hb, show b = decide (a.Accepts w) by rw [Bool.eq_iff_iff, hiff, decide_eq_true_iff]]

end Automaton

end RegLang
