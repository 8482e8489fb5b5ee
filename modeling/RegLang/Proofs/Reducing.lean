import RegLang.Graph.Edit
import RegLang.Proofs.CheckedGraphs
/-!
# Reducing

Reducing brings the transitions of every reachable state into normal form: the same steps, by
intervals in ascending order of targets and lower bounds of which no two to one target touch.  The
intervals of a normal form are the maximal runs of letters that lead to one target, and no list with
the same steps can do with fewer: each of its intervals lies within one run.

    Normal ts → (∀ c q, Reads ts c q ↔ Reads us c q) → ts.length ≤ us.length   (length_le)

* `touch_iff`: when intervals touch, across the surrogates as elsewhere.
* `State.reduced_reduce`: the normal form of a state.
* `reduce_spec`: reducing any graph, or the fault.
-/

namespace RegLang

open Alphabet (rank le_iff_rank lt_iff_rank)

namespace Transition

variable {t u : Transition} {ts us : List Transition}

/-- The intervals have a letter in common, or one of them begins at the letter after the last one of
the other. -/
def Touch (t u : Transition) : Prop :=
  (∃ c, t.contains c = true ∧ u.contains c = true) ∨
    Alphabet.next? t.hi = some u.lo ∨ Alphabet.next? u.hi = some t.lo

theorem touch_iff : t.Touch u ↔ rank u.lo ≤ rank t.hi + 1 ∧ rank t.lo ≤ rank u.hi + 1 := by
  have ht := t.rank_lo_le_hi
  have hu := u.rank_lo_le_hi
  simp only [Touch, contains_iff_rank, Alphabet.next?_eq_some_iff]
  constructor
  · rintro (⟨c, htc, huc⟩ | h | h) <;> omega
  · rintro ⟨h, h'⟩
    -- the later lower bound is a common letter unless it comes right after the end of the other
    by_cases hle : rank t.lo ≤ rank u.lo
    · by_cases hin : rank u.lo ≤ rank t.hi
      · exact .inl ⟨u.lo, by omega, by omega⟩
      · exact .inr (.inl (by omega))
    · by_cases hin : rank t.lo ≤ rank u.hi
      · exact .inl ⟨t.lo, by omega, by omega⟩
      · exact .inr (.inr (by omega))

/-! ## Normal lists -/

theorem Normal.sorted (h : Normal ts) :
    ts.Pairwise fun t u => t.target < u.target ∨ (t.target = u.target ∧ t.lo < u.lo) := by
  refine h.imp fun {t u} htu => ?_
  have ht := t.rank_lo_le_hi
  rw [lt_iff_rank]
  unfold Apart at htu
  omega

theorem Normal.not_touch (h : Normal ts) :
    ts.Pairwise fun t u => t.target = u.target → ¬ t.Touch u := by
  refine h.imp fun {t u} htu hq htouch => ?_
  rw [touch_iff] at htouch
  unfold Apart at htu
  omega

/-- An interval of a normal list does not begin amid letters that lead to its target. -/
theorem Normal.lo_le (h : Normal ts) (ht : t ∈ ts) {lo : Char}
    (hall : ∀ c, rank lo ≤ rank c → rank c ≤ rank t.lo → Reads ts c t.target) :
    rank t.lo ≤ rank lo := by
  by_contra hlt
  obtain ⟨e, -, he⟩ := Alphabet.exists_prev_of_lt (lt_iff_rank.2 (Nat.lt_of_not_le hlt))
  exact (h.mem_iff.1 ht).before e he (hall e (by omega) (by omega))

/-- Intervals of a normal list that begin in one interval of a list with the same steps are one. -/
theorem Normal.eq_of_contains (h : Normal ts) (hr : ∀ c q, Reads ts c q ↔ Reads us c q)
    {v : Transition} (hv : v ∈ us) (ht : t ∈ ts) (hu : u ∈ ts)
    (hvt : v.contains t.lo = true ∧ v.target = t.target)
    (hvu : v.contains u.lo = true ∧ v.target = u.target) : t = u := by
  have hread : ∀ c, rank v.lo ≤ rank c → rank c ≤ rank v.hi → Reads ts c v.target :=
    fun c hlo hhi => (hr c _).2 ⟨v, hv, contains_iff_rank.2 ⟨hlo, hhi⟩, rfl⟩
  rw [contains_iff_rank] at hvt hvu
  -- all letters from the earlier lower bound to the later one are read, so neither is earlier
  have htu : rank u.lo ≤ rank t.lo :=
    h.lo_le hu fun c hlo hhi => hvu.2 ▸ hread c (by omega) (by omega)
  have hut : rank t.lo ≤ rank u.lo :=
    h.lo_le ht fun c hlo hhi => hvt.2 ▸ hread c (by omega) (by omega)
  have hlet := t.rank_lo_le_hi
  have hleu := u.rank_lo_le_hi
  exact h.eq_of_touch ht hu (hvt.2.symm.trans hvu.2) (by omega) (by omega)

/-- No list with the same steps as a normal list is shorter. -/
theorem Normal.length_le (h : Normal ts) (hr : ∀ c q, Reads ts c q ↔ Reads us c q) :
    ts.length ≤ us.length := by
  have hfirst : ∀ t ∈ ts, ∃ v ∈ us, v.contains t.lo = true ∧ v.target = t.target :=
    fun t ht => (hr t.lo t.target).1 ⟨t, ht, t.contains_lo, rfl⟩
  choose! f hmem hf using hfirst
  have hinj : ∀ t ∈ ts, ∀ u ∈ ts, f t = f u → t = u := fun t ht u hu heq =>
    h.eq_of_contains hr (hmem t ht) ht hu (hf t ht) (heq ▸ hf u hu)
  have hsub : ts.map f ⊆ us := by
    intro v hv
    obtain ⟨t, ht, rfl⟩ := List.mem_map.1 hv
    exact hmem t ht
  have hle := ((h.nodup.map_on hinj).subperm hsub).length_le
  rwa [List.length_map] at hle

end Transition

/-! ## States -/

namespace State

variable {s r : State}

/-- The state `r` is `s` with as few transitions as can be, in order: sorted by targets and lower
bounds, and none to one target overlapping or adjacent. -/
structure Reduced (s r : State) : Prop where
  accept_eq : r.accept = s.accept
  mem_stepAll_iff : ∀ c q, q ∈ r.stepAll c ↔ q ∈ s.stepAll c
  sorted : r.transitions.Pairwise fun t u =>
    t.target < u.target ∨ (t.target = u.target ∧ t.lo < u.lo)
  not_touch : r.transitions.Pairwise fun t u => t.target = u.target → ¬ t.Touch u
  length_le : ∀ s' : State, (∀ c q, q ∈ s'.stepAll c ↔ q ∈ s.stepAll c) →
    r.transitions.length ≤ s'.transitions.length

theorem reduced_reduce (s : State) : s.Reduced s.reduce where
  accept_eq := rfl
  mem_stepAll_iff _ _ := mem_stepAll_reduce
  sorted := (normal_reduce s).sorted
  not_touch := (normal_reduce s).not_touch
  length_le s' hs' := (normal_reduce s).length_le fun c q => by
    rw [← mem_stepAll_iff_reads, ← mem_stepAll_iff_reads, mem_stepAll_reduce, hs']

/-- One interval lies within another one, and two of them touch across the surrogates. -/
example : ({ transitions := [.between '\uE000' Alphabet.last 1, .single 'b' 2,
    .between 'c' '\uD7FF' 1, .between 'd' 'f' 1, .single 'a' 2, .single 'd' 0] } : State).reduce =
      { transitions := [.single 'd' 0, .between 'c' Alphabet.last 1, .between 'a' 'b' 2] } := by
  cbv

end State

/-! ## Graphs -/

namespace Graph

/-- The graph `h` is `g` with its reachable states reduced. -/
structure Reducing (g h : Graph) : Prop where
  size_eq : h.size = g.size
  initial_eq : h.initial = g.initial
  deterministic_eq : h.deterministic = g.deterministic
  isReachable_iff : ∀ q, h.IsReachable q ↔ g.IsReachable q
  reduced : ∀ q, g.IsReachable q → (g.state q).Reduced (h.state q)
  state_eq : ∀ q, ¬ g.IsReachable q → h.state q = g.state q

theorem reducing_reduce (g : Graph) : Reducing g g.reduce where
  size_eq := g.size_reduce
  initial_eq := rfl
  deterministic_eq := rfl
  isReachable_iff _ := isReachable_reduce
  reduced q hq := by
    rw [state_reduce hq]
    exact (g.state q).reduced_reduce
  state_eq q hq := by
    by_cases hlt : q < g.size
    · rw [reduce, state_modifyAll_of_lt hlt, if_neg (mt mem_reachable_iff.1 hq)]
    · rw [state_of_not_lt hlt, state_of_not_lt (by rwa [size_reduce])]

/-- By way of the arena or not, reducing comes to the same, be it a fault. -/
theorem checked_reduce_eq (g : Graph) : Checked.reduce g = g.apply .reduce := by
  rw [Checked.reduce, Checked.reachable_eq_map, apply]
  by_cases hintact : g.intact = true
  · rw [ensureIntact_of_intact hintact]
    have hlt : ∀ q ∈ g.reachable, q < g.size := fun q hq =>
      intact_iff.1 hintact q (mem_reachable_iff.1 hq)
    exact Checked.updateAll_eq g.nodup_reachable hlt (Checked.reachable_ne_nil g) State.reduce
  · rw [ensureIntact, if_neg hintact]
    rfl

/-- Every graph can be reduced unless a state outside the arena is reachable, which is a fault.
Reducing leaves the set of steps of every reachable state on every letter as it is, sorts its
transitions by targets, then lower bounds, and leaves no two to one target that overlap or are
adjacent; no list of transitions with the same steps is shorter. -/
theorem reduce_spec (g : Graph) : Checked.reduce g = g.apply .reduce ∧
    ((∃ h, g.apply .reduce = .ok h ∧ Reducing g h) ∨
      (g.apply .reduce = .error .outOfRange ∧ ∃ q, g.IsReachable q ∧ g.size ≤ q)) := by
  refine ⟨checked_reduce_eq g, ?_⟩
  by_cases hintact : g.intact = true
  · refine .inl ⟨g.reduce, ?_, reducing_reduce g⟩
    rw [apply, ensureIntact_of_intact hintact]
    rfl
  · refine .inr ⟨by rw [apply, ensureIntact, if_neg hintact]; rfl, ?_⟩
    simpa [intact_iff] using hintact

end Graph

end RegLang
