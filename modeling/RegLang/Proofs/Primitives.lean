import RegLang.Primitive.Basic
import RegLang.Primitive.Substring
import RegLang.Proofs.Proper
/-!
# Elementary automata

What the automata that are not made of others accept.

* `proper_ofRange`, `language_ofRange`: the letters of a range.
* `proper_anyWord`, `language_anyWord`: all words.
* `proper_ofLetters`, `proper_containing`: sets of letters and matchers of a word are proper.
-/

namespace RegLang

theorem Transition.between_contains_iff {c d e : Char} {q : Nat} :
    (between c d q).contains e = true ↔ Alphabet.lower c d ≤ e ∧ e ≤ Alphabet.upper c d := by
  unfold between Alphabet.lower Alphabet.upper
  by_cases hle : c ≤ d
  · have hlt : ¬ d < c := by
      rw [Alphabet.le_iff_toNat] at hle
      rw [Alphabet.lt_iff_toNat]
      omega
    rw [dif_pos hle, if_neg hlt, contains_iff]
    by_cases hcd : c < d
    · rw [if_pos hcd]
    · have heq : c = d := by
        rw [Alphabet.le_iff_toNat] at hle
        rw [Alphabet.lt_iff_toNat] at hcd
        exact Alphabet.toNat_inj (by omega)
      subst heq
      rw [if_neg hcd]
  · have hlt : d < c := by
      rw [Alphabet.le_iff_toNat] at hle
      rw [Alphabet.lt_iff_toNat]
      omega
    have hcd : ¬ c < d := by
      rw [Alphabet.lt_iff_toNat] at hlt ⊢
      omega
    rw [dif_neg hle, if_pos hlt, if_neg hcd, contains_iff]

namespace Automaton

variable {c d e : Char} {w : Word}

theorem proper_empty : empty.Proper := by
  obtain ⟨a, ha, hp, _⟩ := computes_empty
  cases ha
  exact hp

theorem language_empty : empty.language = 0 := by
  obtain ⟨a, ha, _, hl⟩ := computes_empty
  cases ha
  exact hl

/-! ## Ranges of letters -/

/-- The graph of a range: one step to acceptance. -/
def rangeGraph (c d : Char) : Graph where
  states := #[{ transitions := [.between c d 1] }, { accept := true }]

theorem state_rangeGraph_zero (c d : Char) :
    (rangeGraph c d).state 0 = { transitions := [.between c d 1] } := rfl

theorem state_rangeGraph_one (c d : Char) : (rangeGraph c d).state 1 = { accept := true } := rfl

theorem wellFormed_rangeGraph (c d : Char) : (rangeGraph c d).WellFormed where
  initial_lt := (by decide : 0 < 2)
  target_lt q hq t ht := by
    match q, hq, ht with
    | 0, _, ht =>
      rw [state_rangeGraph_zero, List.mem_singleton] at ht
      rw [ht, Transition.between_target]
      exact (by decide : 1 < 2)
    | 1, _, ht =>
      rw [state_rangeGraph_one] at ht
      cases ht

theorem isDeterministic_rangeGraph (c d : Char) : (rangeGraph c d).IsDeterministic := by
  intro q hq
  match q, (wellFormed_rangeGraph c d).lt_of_isReachable hq with
  | 0, _ =>
    rw [state_rangeGraph_zero]
    exact List.pairwise_singleton _ _
  | 1, _ =>
    rw [state_rangeGraph_one]
    exact List.Pairwise.nil

theorem mem_stepAll_rangeGraph {q : Nat} : q ∈ ((rangeGraph c d).state 0).stepAll e ↔
    (Alphabet.lower c d ≤ e ∧ e ≤ Alphabet.upper c d) ∧ q = 1 := by
  rw [state_rangeGraph_zero, State.mem_stepAll]
  simp only [List.mem_singleton, exists_eq_left]
  rw [Transition.between_contains_iff, Transition.between_target, eq_comm (a := 1)]

theorem language_rangeGraph (c d : Char) : (rangeGraph c d).language =
    lettersBetween (Alphabet.lower c d) (Alphabet.upper c d) := by
  ext w
  show (rangeGraph c d).AcceptsFrom 0 w ↔
    ∃ x, Alphabet.lower c d ≤ x ∧ x ≤ Alphabet.upper c d ∧ w = [x]
  match w with
  | [] =>
    rw [Graph.acceptsFrom_nil_iff, state_rangeGraph_zero]
    simp
  | [e] =>
    rw [Graph.acceptsFrom_cons_iff]
    simp only [mem_stepAll_rangeGraph, Graph.acceptsFrom_nil_iff]
    constructor
    · rintro ⟨_, ⟨⟨h1, h2⟩, rfl⟩, _⟩
      exact ⟨e, h1, h2, rfl⟩
    · rintro ⟨x, h1, h2, he⟩
      obtain ⟨rfl, _⟩ := List.cons.inj he
      exact ⟨1, ⟨⟨h1, h2⟩, rfl⟩, rfl⟩
  | e :: f :: w =>
    rw [Graph.acceptsFrom_cons_iff]
    simp only [mem_stepAll_rangeGraph, Graph.acceptsFrom_cons_iff]
    constructor
    · rintro ⟨_, ⟨_, rfl⟩, r, hr, _⟩
      rw [state_rangeGraph_one] at hr
      cases hr
    · rintro ⟨x, _, _, he⟩
      cases he

theorem lettersBetween_self (c : Char) :
    lettersBetween (Alphabet.lower c c) (Alphabet.upper c c) = {[c]} := by
  have hlower : Alphabet.lower c c = c := ite_self c
  have hupper : Alphabet.upper c c = c := ite_self c
  rw [hlower, hupper]
  ext w
  constructor
  · rintro ⟨x, h1, h2, rfl⟩
    rw [Char.le_antisymm h2 h1]
    rfl
  · rintro rfl
    exact ⟨c, Char.le_refl c, Char.le_refl c, rfl⟩

theorem proper_ofRange (c d : Char) : (ofRange c d).Proper := by
  unfold ofRange
  by_cases h : c = d
  · rw [if_pos h]
    exact proper_singleton [c]
  · rw [if_neg h]
    exact ⟨wellFormed_rangeGraph c d, fun _ => isDeterministic_rangeGraph c d⟩

theorem language_ofRange (c d : Char) : (ofRange c d).language =
    lettersBetween (Alphabet.lower c d) (Alphabet.upper c d) := by
  unfold ofRange
  by_cases h : c = d
  · rw [if_pos h, ← h, lettersBetween_self]
    rfl
  · rw [if_neg h]
    exact language_rangeGraph c d

/-! ## All words -/

/-- The graph that stays in one accepting state. -/
def anyGraph : Graph where
  states := #[{ accept := true, transitions := [.onAny 0] }]

theorem state_anyGraph : anyGraph.state 0 = { accept := true, transitions := [.onAny 0] } := rfl

theorem wellFormed_anyGraph : anyGraph.WellFormed where
  initial_lt := (by decide : 0 < 1)
  target_lt q hq t ht := by
    obtain rfl : q = 0 := Nat.lt_one_iff.1 hq
    rw [state_anyGraph, List.mem_singleton] at ht
    rw [ht]
    exact (by decide : 0 < 1)

theorem acceptsFrom_anyGraph (w : Word) : anyGraph.AcceptsFrom 0 w := by
  induction w with
  | nil => exact Graph.acceptsFrom_nil_iff.2 rfl
  | cons c w ih =>
    refine Graph.acceptsFrom_cons_iff.2 ⟨0, ?_, ih⟩
    exact State.mem_stepAll.2 ⟨_, List.mem_singleton.2 rfl, Transition.onAny_contains 0 c, rfl⟩

theorem proper_anyWord : anyWord.Proper := by
  refine ⟨wellFormed_anyGraph, fun _ q hq => ?_⟩
  obtain rfl : q = 0 := Nat.lt_one_iff.1 (wellFormed_anyGraph.lt_of_isReachable hq)
  exact List.pairwise_singleton _ _

theorem language_anyWord : anyWord.language = {_w | True} := by
  ext w
  exact ⟨fun _ => trivial, fun _ => acceptsFrom_anyGraph w⟩

/-! ## Sets of letters -/

/-- The graph of a list of letters, before its transitions are merged. -/
def lettersGraph (cs : Word) : Graph where
  states := #[{ transitions := cs.map fun c => .single c 1 }, { accept := true }]

theorem target_lettersGraph {cs : Word} {q : Nat} {t : Transition}
    (ht : t ∈ ((lettersGraph cs).state q).transitions) : t.target = 1 := by
  match q, ht with
  | 0, ht =>
    obtain ⟨c, _, rfl⟩ := List.mem_map.1 ht
    rfl
  | 1, ht => cases ht
  | q + 2, ht => cases ht

theorem wellFormed_lettersGraph (cs : Word) : (lettersGraph cs).WellFormed where
  initial_lt := (by decide : 0 < 2)
  target_lt q _ t ht := by
    rw [target_lettersGraph ht]
    exact (by decide : 1 < 2)

/-- Letters may be listed more than once; merging leaves their transitions disjoint. -/
theorem proper_ofLetters (cs : Word) : (ofLetters cs).Proper := by
  unfold ofLetters
  split
  · exact proper_singleton _
  · refine ⟨(wellFormed_lettersGraph cs).reduce, fun _ q hq => ?_⟩
    rw [Graph.state_reduce (Graph.isReachable_reduce.1 hq)]
    exact State.disjoint_reduce_of_target fun t ht => target_lettersGraph ht

end Automaton

/-! ## Words that contain a word -/

namespace Substring

variable {w : Word} {i j q : Nat} {c d : Char} {done : List Char}

theorem mem_fallbacks (h : (d, q) ∈ fallbacks w i j done) : q ≤ j ∧ d ∉ done := by
  induction j generalizing done with
  | zero => cases h
  | succ j ih =>
    unfold fallbacks at h
    split at h
    · next e _ =>
      split at h
      · next hnew =>
        rcases List.mem_cons.1 h with h | h
        · cases h
          rw [Bool.and_eq_true, Bool.not_eq_true', List.contains_eq_mem, decide_eq_false_iff_not]
            at hnew
          exact ⟨Nat.le_refl _, hnew.1⟩
        · obtain ⟨hq, hd⟩ := ih h
          exact ⟨Nat.le_succ_of_le hq, fun hm => hd (List.mem_cons_of_mem _ hm)⟩
      · obtain ⟨hq, hd⟩ := ih h
        exact ⟨Nat.le_succ_of_le hq, hd⟩
    · obtain ⟨hq, hd⟩ := ih h
      exact ⟨Nat.le_succ_of_le hq, hd⟩

/-- No letter has two places to fall back to. -/
theorem pairwise_fallbacks (w : Word) (i j : Nat) (done : List Char) :
    (fallbacks w i j done).Pairwise fun x y => x.1 ≠ y.1 := by
  induction j generalizing done with
  | zero => exact List.Pairwise.nil
  | succ j ih =>
    unfold fallbacks
    split
    · next e _ =>
      split
      · refine List.pairwise_cons.2 ⟨fun y hy he => ?_, ih _⟩
        exact (mem_fallbacks hy).2 (he ▸ List.mem_cons_self)
      · exact ih _
    · exact ih _

theorem disjoint_state (w : Word) (i : Nat) (c : Char) : (state w i c).Disjoint := by
  refine Graph.disjoint_fill (List.pairwise_map.2 (List.pairwise_cons.2 ⟨?_, ?_⟩))
  · rintro ⟨d, q⟩ hd e ⟨h₁, h₂⟩
    have he : e = c := Graph.single_contains_iff.1 h₁
    have he' : e = d := Graph.single_contains_iff.1 h₂
    exact (mem_fallbacks hd).2 (List.mem_singleton.2 (he'.symm.trans he))
  · refine (pairwise_fallbacks w i i [c]).imp ?_
    rintro x y hxy e ⟨h₁, h₂⟩
    exact hxy ((Graph.single_contains_iff.1 h₁).symm.trans (Graph.single_contains_iff.1 h₂))

theorem target_state {t : Transition} (ht : t ∈ (state w i c).transitions) : t.target ≤ i + 1 := by
  rcases List.mem_append.1 ht with ht | ht
  · obtain ⟨⟨d, q⟩, hd, rfl⟩ := List.mem_map.1 ht
    rcases List.mem_cons.1 hd with hd | hd
    · cases hd
      exact Nat.le_refl _
    · exact Nat.le_succ_of_le (mem_fallbacks hd).1
  · obtain ⟨r, _, rfl⟩ := List.mem_map.1 ht
    rw [Transition.between_target]
    exact Nat.zero_le _

@[simp] theorem size_matcher (w : Word) : (matcher w).size = w.length + 1 := by
  simp [matcher, Graph.size]

theorem state_matcher_of_lt (h : i < w.length) : (matcher w).state i = state w i w[i] := by
  have h' : i < w.length + 1 := by omega
  simp [matcher, Graph.state, Array.getD, h, h', List.getElem_append_left]

theorem state_matcher_length (w : Word) :
    (matcher w).state w.length = { accept := true, transitions := [.onAny w.length] } := by
  simp [matcher, Graph.state, Array.getD]

theorem wellFormed_matcher (w : Word) : (matcher w).WellFormed where
  initial_lt := by
    rw [size_matcher]
    exact Nat.zero_lt_succ _
  target_lt q hq t ht := by
    rw [size_matcher] at hq ⊢
    rcases Nat.lt_or_eq_of_le (Nat.le_of_lt_succ hq) with hq | rfl
    · rw [state_matcher_of_lt hq] at ht
      have := target_state ht
      omega
    · rw [state_matcher_length, List.mem_singleton] at ht
      rw [ht, Transition.onAny, Transition.between_target]
      exact Nat.lt_succ_self _

theorem isDeterministic_matcher (w : Word) : (matcher w).IsDeterministic := by
  intro q hq
  have hlt := (wellFormed_matcher w).lt_of_isReachable hq
  rw [size_matcher] at hlt
  rcases Nat.lt_or_eq_of_le (Nat.le_of_lt_succ hlt) with hlt | rfl
  · rw [state_matcher_of_lt hlt]
    exact disjoint_state w q _
  · rw [state_matcher_length]
    exact List.pairwise_singleton _ _

end Substring

theorem Automaton.proper_containing (w : Word) : (containing w).Proper :=
  ⟨Substring.wellFormed_matcher w, fun _ => Substring.isDeterministic_matcher w⟩

end RegLang
