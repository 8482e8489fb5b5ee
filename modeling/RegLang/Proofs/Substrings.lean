import Mathlib.Data.Nat.SuccPred
import RegLang.Proofs.Minimality
import RegLang.Proofs.Primitives
import RegLang.Proofs.Simulation
/-!
# Words that contain a word

State `i` of the matcher of `w` stands for the words that end with the first `i` letters of `w` and
with no longer beginning of `w`.  A letter may be read behind these `i` letters instead of behind
the whole word, because a longer beginning of `w` at the end would begin within them:

    endings w (v ++ [c]) = endings w (w.take q ++ [c])  if q is the greatest of endings w v

* `mem_stepAll_matcher`: a step leads to the longest beginning that is at the end then.
* `path_matcher_iff`: where a word leads to.
* `accepts_matcher`: the words that contain `w`.
* `Automaton.containing_spec`: the matcher is the smallest deterministic graph of these words.
-/

namespace RegLang.Substring

variable {w v : Word} {i j k p q : Nat} {c d : Char} {done : List Char}

/-! ## Beginnings at the end -/

/-- The lengths of the beginnings of `w` that `v` ends with. -/
def endings (w v : Word) : Set Nat := {k | k ≤ w.length ∧ w.take k <:+ v}

theorem zero_mem_endings (w v : Word) : 0 ∈ endings w v :=
  ⟨Nat.zero_le _, List.take_zero ▸ List.nil_suffix⟩

/-- A beginning at the end is no longer than the word. -/
theorem le_length_of_mem_endings (hk : k ∈ endings w v) : k ≤ v.length := by
  have hle := hk.2.length_le
  rwa [List.length_take_of_le hk.1] at hle

theorem exists_isGreatest_endings (w v : Word) : ∃ q, IsGreatest (endings w v) q :=
  BddAbove.exists_isGreatest_of_nonempty ⟨w.length, fun _ hk => hk.1⟩ ⟨0, zero_mem_endings w v⟩

/-- A letter prolongs the beginnings at the end that it continues. -/
theorem succ_mem_endings_concat :
    k + 1 ∈ endings w (v ++ [c]) ↔ k ∈ endings w v ∧ w[k]? = some c := by
  by_cases hk : k < w.length
  · show k + 1 ≤ w.length ∧ w.take (k + 1) <:+ v ++ [c] ↔ _
    rw [List.take_succ_eq_append_getElem hk, List.getElem?_eq_getElem hk, Option.some.injEq]
    constructor
    · rintro ⟨-, h⟩
      rcases List.suffix_concat_iff.1 h with he | ⟨u, he, hu⟩
      · exact absurd he (List.append_ne_nil_of_right_ne_nil _ (List.cons_ne_nil _ _))
      · obtain ⟨rfl, hc⟩ := List.append_inj' he rfl
        exact ⟨⟨by omega, hu⟩, List.singleton_inj.1 hc⟩
    · rintro ⟨⟨-, hu⟩, rfl⟩
      exact ⟨hk, List.suffix_concat_iff.2 (.inr ⟨_, rfl, hu⟩)⟩
  · constructor
    · intro h
      have hle := h.1
      omega
    · rintro ⟨-, h⟩
      rw [List.getElem?_eq_none (by omega)] at h
      cases h

/-- Of two beginnings at the end the shorter is at the end of the longer. -/
theorem mem_endings_take (hq : IsGreatest (endings w v) q) :
    k ∈ endings w (w.take q) ↔ k ∈ endings w v := by
  constructor
  · exact fun hk => ⟨hk.1, hk.2.trans hq.1.2⟩
  · intro hk
    refine ⟨hk.1, List.suffix_of_suffix_length_le hk.2 hq.1.2 ?_⟩
    rw [List.length_take_of_le hk.1, List.length_take_of_le hq.1.1]
    exact hq.2 hk

/-- All that counts of a word is the longest beginning at its end. -/
theorem endings_concat (hq : IsGreatest (endings w v) q) (c : Char) :
    endings w (v ++ [c]) = endings w (w.take q ++ [c]) := by
  ext k
  cases k with
  | zero => exact iff_of_true (zero_mem_endings _ _) (zero_mem_endings _ _)
  | succ k => rw [succ_mem_endings_concat, succ_mem_endings_concat, mem_endings_take hq]

theorem isGreatest_endings_take (hi : i ≤ w.length) : IsGreatest (endings w (w.take i)) i := by
  refine ⟨⟨hi, List.suffix_rfl⟩, fun k hk => ?_⟩
  have hle := le_length_of_mem_endings hk
  rwa [List.length_take_of_le hi] at hle

/-! ## Falling back -/

theorem isBorder_iff (hj : j ≤ i) (hi : i ≤ w.length) :
    isBorder w i (j + 1) = true ↔ j ∈ endings w (w.take i) := by
  have hdrop : i + 1 - (j + 1) = i - j := by omega
  unfold isBorder
  rw [decide_eq_true_iff, Nat.add_sub_cancel, hdrop]
  show _ ↔ j ≤ w.length ∧ w.take j <:+ w.take i
  rw [List.suffix_iff_eq_drop, List.length_take_of_le hi, List.length_take_of_le (by omega),
    and_iff_right (by omega)]

/-- The longest beginning of no more than `j + 1` letters, if `j + 1` letters are one. -/
theorem isGreatest_succ_of_mem {s : Set Nat} (h : j + 1 ∈ s) :
    IsGreatest {k | k ≤ j + 1 ∧ k ∈ s} q ↔ q = j + 1 := by
  have hgreatest : IsGreatest {k | k ≤ j + 1 ∧ k ∈ s} (j + 1) :=
    ⟨⟨Nat.le_refl _, h⟩, fun _ hk => hk.1⟩
  rw [hgreatest.isGreatest_iff_eq, eq_comm]

theorem isGreatest_succ_of_notMem {s : Set Nat} (h : j + 1 ∉ s) :
    IsGreatest {k | k ≤ j + 1 ∧ k ∈ s} q ↔ IsGreatest {k | k ≤ j ∧ k ∈ s} q := by
  have heq : {k | k ≤ j + 1 ∧ k ∈ s} = {k | k ≤ j ∧ k ∈ s} := by
    ext k
    refine and_congr_left fun hk => ⟨fun hle => ?_, Nat.le_succ_of_le⟩
    rcases Nat.le_succ_iff.1 hle with hle | rfl
    · exact hle
    · exact absurd hk h
  rw [heq]

/-- The fallback on a letter that is not provided for is the longest beginning that ends with it. -/
theorem mem_fallbacks_iff (hj : j ≤ i) (hi : i ≤ w.length) :
    (d, q) ∈ fallbacks w i j done ↔ d ∉ done ∧ 0 < q ∧
      IsGreatest {k | k ≤ j ∧ k ∈ endings w (w.take i ++ [d])} q := by
  induction j generalizing done with
  | zero =>
    constructor
    · intro h
      cases h
    · rintro ⟨-, hpos, hq⟩
      have hle : q ≤ 0 := hq.1.1
      omega
  | succ j ih =>
    have hlt : j < w.length := by omega
    have hmem : ∀ d, j + 1 ∈ endings w (w.take i ++ [d]) ↔
        isBorder w i (j + 1) = true ∧ w[j] = d := by
      intro d
      rw [succ_mem_endings_concat, isBorder_iff (by omega) hi, List.getElem?_eq_getElem hlt,
        Option.some.injEq]
    unfold fallbacks
    rw [List.getElem?_eq_getElem hlt]
    dsimp only
    -- either `j + 1` letters are the fallback on `w[j]`, or they are no beginning to fall back to
    by_cases hnew : w[j] ∉ done ∧ isBorder w i (j + 1) = true
    · rw [if_pos (by simpa using hnew), List.mem_cons, Prod.mk.injEq, ih (by omega)]
      by_cases hd : d = w[j]
      · rw [isGreatest_succ_of_mem ((hmem d).2 ⟨hnew.2, hd.symm⟩)]
        simp [hd, hnew.1]
        omega
      · rw [isGreatest_succ_of_notMem fun h => hd ((hmem d).1 h).2.symm]
        simp [hd]
    · rw [if_neg (by simpa using hnew), ih (by omega)]
      refine and_congr_right fun hd => and_congr_right fun _ => ?_
      refine (isGreatest_succ_of_notMem fun h => ?_).symm
      obtain ⟨hborder, rfl⟩ := (hmem d).1 h
      exact hnew ⟨hd, hborder⟩

/-! ## Steps -/

theorem mem_stepAll_singles {rows : List (Char × Nat)} :
    q ∈ ({ transitions := rows.map fun (d, q) => .single d q } : State).stepAll c ↔
      (c, q) ∈ rows := by
  rw [State.mem_stepAll]
  constructor
  · rintro ⟨_, ht, hc, rfl⟩
    obtain ⟨⟨d, q⟩, hr, rfl⟩ := List.mem_map.1 ht
    rw [Graph.single_contains_iff.1 hc]
    exact hr
  · intro hr
    exact ⟨_, List.mem_map_of_mem hr, Graph.single_contains_iff.2 rfl, rfl⟩

/-- The letters with transitions of their own are those that some beginning ends with. -/
theorem mem_rows_iff (hi : i < w.length) :
    (c, q) ∈ (w[i], i + 1) :: fallbacks w i i [w[i]] ↔
      0 < q ∧ IsGreatest (endings w (w.take i ++ [c])) q := by
  have hle : ∀ k ∈ endings w (w.take i ++ [c]), k ≤ i + 1 := by
    intro k hk
    have hlen := le_length_of_mem_endings hk
    simp at hlen
    omega
  have hbound : {k | k ≤ i + 1 ∧ k ∈ endings w (w.take i ++ [c])} =
      endings w (w.take i ++ [c]) := by
    ext k
    exact ⟨fun hk => hk.2, fun hk => ⟨hle k hk, hk⟩⟩
  have hnext : i + 1 ∈ endings w (w.take i ++ [c]) ↔ w[i] = c := by
    rw [succ_mem_endings_concat, List.getElem?_eq_getElem hi, Option.some.injEq]
    exact and_iff_right (isGreatest_endings_take (by omega)).1
  rw [List.mem_cons, Prod.mk.injEq, ← hbound, mem_fallbacks_iff (Nat.le_refl i) (by omega)]
  by_cases hc : w[i] = c
  · rw [isGreatest_succ_of_mem (hnext.2 hc)]
    simp [hc]
    omega
  · rw [isGreatest_succ_of_notMem fun h => hc (hnext.1 h)]
    simp [Ne.symm hc]

/-- State `i` steps to the longest beginning that its letters end with, the new one included. -/
theorem mem_stepAll_state (hi : i < w.length) :
    q ∈ (state w i w[i]).stepAll c ↔ IsGreatest (endings w (w.take i ++ [c])) q := by
  obtain ⟨m, hm⟩ := exists_isGreatest_endings w (w.take i ++ [c])
  unfold state
  rw [Graph.mem_stepAll_fill, List.eq_nil_iff_forall_not_mem]
  simp only [mem_stepAll_singles, mem_rows_iff hi, hm.isGreatest_iff_eq]
  constructor
  · rintro (⟨-, rfl⟩ | ⟨rfl, hnone⟩)
    · rfl
    · -- no letter of a row, so the longest beginning is the empty one
      have hzero := hnone m
      omega
  · rintro rfl
    rcases Nat.eq_zero_or_pos m with rfl | hpos
    · exact .inr ⟨rfl, fun k hk => by omega⟩
    · exact .inl ⟨hpos, rfl⟩

theorem mem_stepAll_matcher (hi : i < w.length) :
    q ∈ ((matcher w).state i).stepAll c ↔ IsGreatest (endings w (w.take i ++ [c])) q := by
  rw [state_matcher_of_lt hi, mem_stepAll_state hi]

/-- The last state is never left. -/
theorem mem_stepAll_matcher_length :
    q ∈ ((matcher w).state w.length).stepAll c ↔ q = w.length := by
  rw [state_matcher_length, State.mem_stepAll]
  constructor
  · rintro ⟨t, ht, -, rfl⟩
    rw [List.mem_singleton.1 ht, Transition.onAny, Transition.between_target]
  · rintro rfl
    exact ⟨_, List.mem_singleton_self _, Transition.onAny_contains _ c,
      Transition.between_target _ _ _⟩

theorem accept_matcher (hi : i ≤ w.length) :
    ((matcher w).state i).accept = true ↔ i = w.length := by
  rcases Nat.lt_or_eq_of_le hi with hi | rfl
  · rw [state_matcher_of_lt hi]
    exact iff_of_false Bool.false_ne_true (Nat.ne_of_lt hi)
  · rw [state_matcher_length]
    exact iff_of_true rfl rfl

/-! ## Paths -/

/-- The place that `v` leads to: the last one if `v` contains `w`, and else the longest beginning
that `v` ends with. -/
def LeadsTo (w v : Word) (q : Nat) : Prop :=
  if w <:+: v then q = w.length else IsGreatest (endings w v) q

theorem leadsTo_of_contains (h : w <:+: v) : LeadsTo w v q ↔ q = w.length := by
  unfold LeadsTo
  rw [if_pos h]

theorem leadsTo_of_not_contains (h : ¬ w <:+: v) : LeadsTo w v q ↔ IsGreatest (endings w v) q := by
  unfold LeadsTo
  rw [if_neg h]

/-- A word that does not contain `w` ends with a proper beginning at most. -/
theorem lt_of_not_contains (h : ¬ w <:+: v) (hq : q ∈ endings w v) : q < w.length := by
  refine Nat.lt_of_le_of_ne hq.1 fun he => h ?_
  have hsuffix := hq.2
  rw [he, List.take_length] at hsuffix
  exact hsuffix.isInfix

/-- Once `w` is at the end it is the longest beginning there. -/
theorem isGreatest_of_suffix (h : w <:+ v) : IsGreatest (endings w v) q ↔ q = w.length := by
  have hgreatest : IsGreatest (endings w v) w.length :=
    ⟨⟨Nat.le_refl _, by rwa [List.take_length]⟩, fun _ hk => hk.1⟩
  rw [hgreatest.isGreatest_iff_eq, eq_comm]

theorem LeadsTo.unique (hp : LeadsTo w v p) (hq : LeadsTo w v q) : p = q := by
  by_cases h : w <:+: v
  · rw [(leadsTo_of_contains h).1 hp, (leadsTo_of_contains h).1 hq]
  · exact ((leadsTo_of_not_contains h).1 hp).unique ((leadsTo_of_not_contains h).1 hq)

/-- One more letter leads from place to place. -/
theorem leadsTo_concat : LeadsTo w (v ++ [c]) q ↔
    ∃ p, LeadsTo w v p ∧ q ∈ ((matcher w).state p).stepAll c := by
  by_cases hv : w <:+: v
  · -- what contains `w` stays at the last place
    have hvc : w <:+: v ++ [c] := List.infix_concat_iff.2 (.inr hv)
    simp only [leadsTo_of_contains hv, leadsTo_of_contains hvc, exists_eq_left,
      mem_stepAll_matcher_length]
  · -- at the first `w` the last place is the longest beginning as well
    obtain ⟨p, hp⟩ := exists_isGreatest_endings w v
    have hiff : LeadsTo w (v ++ [c]) q ↔ IsGreatest (endings w (v ++ [c])) q := by
      by_cases hvc : w <:+: v ++ [c]
      · have hsuffix := (List.infix_concat_iff.1 hvc).resolve_right hv
        rw [leadsTo_of_contains hvc, isGreatest_of_suffix hsuffix]
      · exact leadsTo_of_not_contains hvc
    have hstep : q ∈ ((matcher w).state p).stepAll c ↔ IsGreatest (endings w (v ++ [c])) q := by
      rw [mem_stepAll_matcher (lt_of_not_contains hv hp.1), ← endings_concat hp]
    rw [hiff, ← hstep]
    constructor
    · exact fun hq => ⟨p, (leadsTo_of_not_contains hv).2 hp, hq⟩
    · rintro ⟨r, hr, hq⟩
      rwa [((leadsTo_of_not_contains hv).1 hr).unique hp] at hq

theorem leadsTo_take (hi : i ≤ w.length) : LeadsTo w (w.take i) i := by
  rcases Nat.lt_or_eq_of_le hi with hlt | rfl
  · refine (leadsTo_of_not_contains fun h => ?_).2 (isGreatest_endings_take hi)
    have hle := h.length_le
    rw [List.length_take_of_le hi] at hle
    omega
  · rw [List.take_length]
    exact (leadsTo_of_contains List.infix_rfl).2 rfl

theorem path_matcher_iff : (matcher w).Path 0 v q ↔ LeadsTo w v q := by
  induction v using List.reverseRecOn generalizing q with
  | nil =>
    have hzero : LeadsTo w [] 0 := leadsTo_take (i := 0) (Nat.zero_le _)
    rw [Graph.path_nil_iff]
    exact ⟨fun hq => hq ▸ hzero, fun hq => hzero.unique hq⟩
  | append_singleton v c ih =>
    rw [Graph.path_append_iff, leadsTo_concat]
    simp only [ih, Graph.path_cons_iff, Graph.path_nil_iff, exists_eq_right]

/-! ## Words and states -/

/-- The matcher accepts the words that contain its word. -/
theorem accepts_matcher : (matcher w).Accepts v ↔ w <:+: v := by
  show (∃ q, (matcher w).Path 0 v q ∧ ((matcher w).state q).accept = true) ↔ _
  simp only [path_matcher_iff]
  constructor
  · rintro ⟨q, hq, ha⟩
    by_contra h
    have hlt := lt_of_not_contains h ((leadsTo_of_not_contains h).1 hq).1
    have heq := (accept_matcher (Nat.le_of_lt hlt)).1 ha
    omega
  · exact fun h => ⟨w.length, (leadsTo_of_contains h).2 rfl, (accept_matcher (Nat.le_refl _)).2 rfl⟩

theorem isReachable_matcher_iff : (matcher w).IsReachable q ↔ q ≤ w.length := by
  constructor
  · intro hq
    have hlt := (wellFormed_matcher w).lt_of_isReachable hq
    rw [size_matcher] at hlt
    omega
  · exact fun hq => ⟨w.take q, path_matcher_iff.2 (leadsTo_take hq)⟩

/-- What is read from a state on is read behind as many letters of the word. -/
theorem acceptsFrom_matcher (hq : q ≤ w.length) :
    (matcher w).AcceptsFrom q v ↔ w <:+: w.take q ++ v := by
  have hpath : (matcher w).Path (matcher w).initial (w.take q) q :=
    path_matcher_iff.2 (leadsTo_take hq)
  rw [(isDeterministic_matcher w).acceptsFrom_iff hpath, accepts_matcher]

/-- The rest of the word leads to acceptance. -/
theorem acceptsFrom_drop (hq : q ≤ w.length) : (matcher w).AcceptsFrom q (w.drop q) := by
  rw [acceptsFrom_matcher hq, List.take_append_drop]

/-- The rest of the word is too short for earlier states. -/
theorem not_acceptsFrom_drop (hpq : p < q) (hq : q ≤ w.length) :
    ¬ (matcher w).AcceptsFrom p (w.drop q) := by
  rw [acceptsFrom_matcher (by omega)]
  intro h
  have hle := h.length_le
  simp only [List.length_append, List.length_take, List.length_drop] at hle
  omega

theorem distinct_matcher (w : Word) : (matcher w).Distinct := by
  intro p q hp hq hpq
  rw [isReachable_matcher_iff] at hp hq
  rcases Nat.lt_trichotomy p q with hlt | heq | hlt
  · exact absurd ((hpq _).2 (acceptsFrom_drop hq)) (not_acceptsFrom_drop hlt hq)
  · exact heq
  · exact absurd ((hpq _).1 (acceptsFrom_drop hp)) (not_acceptsFrom_drop hlt hp)

theorem smallestOf_matcher (w : Word) : Graph.SmallestOf (w <:+: ·) (matcher w) :=
  (distinct_matcher w).smallestOf (wellFormed_matcher w) rfl (isDeterministic_matcher w)
    (fun _ => accepts_matcher) fun _ hq => ⟨_, acceptsFrom_drop (isReachable_matcher_iff.1 hq)⟩

theorem stateCount_matcher (w : Word) : (matcher w).stateCount = w.length + 1 := by
  rw [(wellFormed_matcher w).stateCount_eq, size_matcher]
  intro q hq
  rw [size_matcher] at hq
  exact isReachable_matcher_iff.2 (by omega)

end RegLang.Substring

namespace RegLang.Automaton

/-- The matcher of a word is deterministic and flagged so, and a run of it answers whether the word
is contained.  Its states, one more than the word has letters, are all reachable, and no
deterministic graph of the words that contain `w` has fewer. -/
theorem containing_spec (w : Word) :
    ∃ g : Graph, containing w = graph g ∧ Graph.SmallestOf (w <:+: ·) g ∧
      g.size = w.length + 1 ∧ g.stateCount = w.length + 1 ∧
      (∀ k : Graph, k.IsDeterministic → (∀ v, k.Accepts v ↔ w <:+: v) →
        w.length + 1 ≤ k.stateCount) ∧
      ∀ v, ∃ r, (containing w).run v = .ok r ∧ (r = true ↔ w <:+: v) := by
  have hsmallest := Substring.smallestOf_matcher w
  have hcount := Substring.stateCount_matcher w
  refine ⟨Substring.matcher w, rfl, hsmallest, Substring.size_matcher w, hcount, ?_, ?_⟩
  · intro k hk hl
    rw [← hcount]
    exact hsmallest.stateCount_le k hk hl
  · intro v
    obtain ⟨r, hr, hiff⟩ :=
      run_spec (proper_containing w).wellFormed (proper_containing w).truthful v
    exact ⟨r, hr, hiff.trans Substring.accepts_matcher⟩

/-- Behind `abab` an `a` is the end of `aba`, and the word is still found. -/
example : (containing ['a', 'b', 'a', 'b', 'c']).run ['a', 'b', 'a', 'b', 'a', 'b', 'c'] =
    .ok true := by decide

end RegLang.Automaton
