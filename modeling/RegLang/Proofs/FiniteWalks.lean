import Mathlib.Data.Stream.Init
import RegLang.Proofs.Cycles
import RegLang.Proofs.Walks
/-!
# Random walks in finite languages

Nothing bounds a random walk but the language.  If that is finite, no live state is on a cycle, so a
walk never comes to the same state twice, and it takes fewer steps than there are live states.  What
is left to go wrong is a draw that takes one random word after the other and comes to no value; on a
stream of random words from which every draw is answered the walk ends, whatever the words are.

* `Graph.Acyclic.exists_visited`: a path visits a new state with every letter.
* `Random.Draw.Answers.exists_front`: a draw takes finitely many words from the front of a stream.
* `Graph.exists_walk_of_answering`: a walk ends if paths have bounded length.
* `Automaton.draw_length`: words of a finite language are drawn in fewer steps than there are live
  states.
-/

namespace RegLang

namespace Graph

variable {g : Graph} {p q r : Nat} {v w : Word}

/-! ## Paths without cycles -/

theorem isLive_of_path (hp : g.IsReachable p) (hw : g.Path p w r) (hr : g.AcceptsFrom r v) :
    g.IsLive p := by
  obtain ⟨a, hv, ha⟩ := hr
  exact ⟨hp, w ++ v, a, path_append_iff.2 ⟨r, hw, hv⟩, ha⟩

/-- The states that a path visits on its way to acceptance are live, and no two are the same. -/
theorem Acyclic.exists_visited (hg : g.Acyclic) (hp : g.IsReachable p) (hw : g.Path p w r)
    (hr : g.AcceptsFrom r v) : ∃ qs : List Nat, qs.Nodup ∧ qs.length = w.length + 1 ∧
      ∀ q ∈ qs, g.IsLive q ∧ ∃ u, g.Path p u q := by
  induction w generalizing p with
  | nil =>
    refine ⟨[p], List.nodup_singleton p, rfl, fun q hq => ?_⟩
    rw [List.mem_singleton.1 hq]
    exact ⟨isLive_of_path hp hw hr, [], .nil p⟩
  | cons c w ih =>
    have hlive := isLive_of_path hp hw hr
    obtain ⟨m, hm, hw⟩ := path_cons_iff.1 hw
    obtain ⟨qs, hnodup, hlen, hqs⟩ := ih (hp.stepAll hm) hw
    refine ⟨p :: qs, List.nodup_cons.2 ⟨fun hmem => ?_, hnodup⟩, congrArg (· + 1) hlen, ?_⟩
    · -- a path that comes back to its first state closes a cycle
      obtain ⟨-, u, hu⟩ := hqs p hmem
      cases hg p (c :: u) hlive (path_cons_iff.2 ⟨m, hm, hu⟩)
    · refine List.forall_mem_cons.2 ⟨⟨hlive, [], .nil p⟩, fun q hq => ?_⟩
      obtain ⟨hql, u, hu⟩ := hqs q hq
      exact ⟨hql, c :: u, path_cons_iff.2 ⟨m, hm, hu⟩⟩

/-- A path to acceptance has fewer steps than there are live states. -/
theorem Acyclic.length_lt (hg : g.Acyclic) (hp : g.IsReachable p) (hw : g.Path p w r)
    (hr : g.AcceptsFrom r v) : w.length < g.live.length := by
  obtain ⟨qs, hnodup, hlen, hqs⟩ := hg.exists_visited hp hw hr
  have hsub : qs ⊆ g.live := fun q hq => mem_live_iff.2 (hqs q hq).1
  have hle := (hnodup.subperm hsub).length_le
  omega

end Graph

namespace Random

/-! ## Streams of random words -/

/-- The draw comes to a value on the words of the stream. -/
def Draw.Answers {α : Type} (d : Draw α) (s : Stream' UInt64) : Prop :=
  ∃ k, (d.run (s.take k)).isSome

/-- From every place of the stream on, every draw comes to a value. -/
structure Source.Answering (d : Source) (s : Stream' UInt64) : Prop where
  below : ∀ i n (positive : 0 < n), (d.below n positive).Answers (s.drop i)
  letter : ∀ i lo hi (inOrder : lo ≤ hi), (d.letter lo hi inOrder).Answers (s.drop i)

theorem Source.Answering.drop {d : Source} {s : Stream' UInt64} (h : d.Answering s) (j : Nat) :
    d.Answering (s.drop j) where
  below i n positive := by
    rw [Stream'.drop_drop]
    exact h.below _ n positive
  letter i lo hi inOrder := by
    rw [Stream'.drop_drop]
    exact h.letter _ lo hi inOrder

/-- The stream begins with the words of a list. -/
def Front (us : List UInt64) (s : Stream' UInt64) : Prop := s.take us.length = us

theorem Front.append {us vs : List UInt64} {s : Stream' UInt64} (hu : Front us s)
    (hv : Front vs (s.drop us.length)) : Front (us ++ vs) s := by
  unfold Front at hu hv ⊢
  rw [List.length_append, Stream'.take_add, hu, hv]

/-- The front of what begins a stream begins the stream. -/
theorem front_of_take_eq {us vs : List UInt64} {s : Stream' UInt64} {k : Nat}
    (h : s.take k = us ++ vs) : Front us s := by
  have hk : k = us.length + vs.length := by
    rw [← List.length_append, ← h, Stream'.length_take]
  rw [hk, Stream'.take_add] at h
  exact (List.append_inj h (Stream'.length_take _ _)).1

/-- A value is drawn from the front of a stream, and what follows does not count. -/
theorem Draw.Answers.exists_front {α : Type} {d : Draw α} {s : Stream' UInt64}
    (h : d.Answers s) : ∃ x us, Front us s ∧ ∀ vs, d.run (us ++ vs) = some (x, vs) := by
  obtain ⟨k, hk⟩ := h
  obtain ⟨⟨x, rest⟩, hx⟩ := Option.isSome_iff_exists.1 hk
  obtain ⟨us, _, hus, hrun⟩ := d.front _ x rest hx
  exact ⟨x, us, front_of_take_eq hus, hrun⟩

/-- A word that is never rejected answers a draw as often as it comes. -/
theorem Draw.answers_const {α : Type} {accepted : UInt64 → Bool} {value : UInt64 → α} {w : UInt64}
    (h : accepted w = true) : (rejecting accepted value).Answers (Stream'.const w) := by
  refine ⟨1, ?_⟩
  show ((rejecting accepted value).run [w]).isSome = true
  rw [run_rejecting_cons h]
  rfl

/-- The word zero is never rejected. -/
theorem answering_zeros : Source.scaling.Answering (Stream'.const 0) where
  below _ _ _ := by
    rw [Stream'.drop_const]
    exact Draw.answers_const (by simp)
  letter _ _ _ _ := by
    rw [Stream'.drop_const]
    exact Draw.answers_const (by simp)

end Random

namespace Graph

open RegLang.Random (Front)

variable {g : Graph} {d : Random.Source} {q k : Nat} {s : Stream' UInt64}

/-! ## Walks end -/

/-- If all paths through live states have less than `k` letters, a walk uses up some front part of
a stream from which all draws are answered. -/
theorem exists_walk_of_answering (hq : g.IsLive q)
    (hk : ∀ w r, g.Path q w r → g.IsLive r → w.length < k) (hs : d.Answering s) :
    ∃ w us, Front us s ∧ ∀ vs, g.walk d g.live q (us ++ vs) = (.ok w, vs) := by
  induction k generalizing q s with
  | zero => exact absurd (hk [] q (.nil q) hq) (Nat.not_lt_zero _)
  | succ k ih =>
    by_cases hnil : liveTransitions g.live (g.state q) = []
    · refine ⟨[], [], rfl, fun vs => ?_⟩
      rw [walk_of_nil hnil, if_pos (hq.accept_of_nil hnil)]
      rfl
    obtain ⟨i, us, hus, hi⟩ := (hs.below 0 _ (choices_pos hnil)).exists_front
    have hmem : (choices g.live (g.state q)).get i ∈ choices g.live (g.state q) :=
      List.get_mem _ _
    cases hc : (choices g.live (g.state q)).get i with
    | none => exact ⟨[], us, hus, fun vs => walk_of_stop hnil (hi vs) hc⟩
    | some t =>
      rw [hc] at hmem
      obtain ⟨ht, htarget⟩ := mem_liveTransitions.1 (some_mem_choices.1 hmem)
      obtain ⟨c, us', hus', hletter⟩ := (hs.letter us.length _ _ t.lo_le_hi).exists_front
      have hk' : ∀ w r, g.Path t.target w r → g.IsLive r → w.length < k := fun w r hw hr =>
        Nat.lt_of_succ_lt_succ (hk (t.lo :: w) r (.cons ht t.contains_lo hw) hr)
      obtain ⟨w, us'', hus'', hw⟩ :=
        ih (mem_live_iff.1 htarget) hk' ((hs.drop us.length).drop us'.length)
      refine ⟨c.1 :: w, us ++ (us' ++ us''), hus.append (hus'.append hus''), fun vs => ?_⟩
      rw [List.append_assoc, List.append_assoc,
        walk_of_step hnil (hi (us' ++ (us'' ++ vs))) hc (hletter (us'' ++ vs)), hw vs]
      rfl

end Graph

namespace Automaton

open RegLang.Graph (Acyclic)
open RegLang.Random (Front Source answering_zeros)

variable {a : Automaton} {d : Source} {w : Word}

/-! ## Words of a finite language -/

theorem acyclic_of_isFinite (ha : a.WellFormed) (hf : a.isFinite = .ok true) :
    a.toGraph.Acyclic := by
  cases a with
  | singleton v =>
    apply Graph.acyclic_of_finite
    exact (Set.finite_singleton v).subset fun w hw => Graph.accepts_ofWord.1 hw
  | graph g =>
    rw [isFinite, Graph.WellFormed.ensureIntact ha] at hf
    exact Graph.acyclic_of_finite (Graph.finite_of_isFinite ha (Except.ok.inj hf))

/-- The letters of an accepted word take fewer steps than there are live states. -/
theorem length_lt_of_accepts (ha : a.WellFormed) (hf : a.isFinite = .ok true) (hw : a.Accepts w) :
    w.length < a.toGraph.live.length := by
  obtain ⟨r, hpath, hr⟩ := accepts_toGraph.2 hw
  exact (acyclic_of_isFinite ha hf).length_lt (Graph.isReachable_initial _) hpath
    (Graph.acceptsFrom_nil_iff.2 hr)

/-- A word is drawn from the front of a stream from which all draws are answered. -/
theorem exists_draw_of_answering (ha : a.WellFormed) (hf : a.isFinite = .ok true)
    (hl : a.language ≠ 0) {s : Stream' UInt64} (hs : d.Answering s) :
    ∃ w us, Front us s ∧ ∀ vs, a.draw d (us ++ vs) = (.ok w, vs) := by
  cases a with
  | singleton w => exact ⟨w, [], rfl, fun _ => rfl⟩
  | graph g =>
    have hlive : g.IsLive g.initial := by
      rw [Ne, language_eq_zero_iff, not_forall_not] at hl
      exact ⟨g.isReachable_initial, hl⟩
    have hshort : ∀ w r, g.Path g.initial w r → g.IsLive r → w.length < g.live.length := by
      rintro w r hw ⟨-, v, hv⟩
      exact (acyclic_of_isFinite ha hf).length_lt g.isReachable_initial hw hv
    obtain ⟨w, us, hus, hw⟩ := Graph.exists_walk_of_answering hlive hshort hs
    refine ⟨w, us, hus, fun vs => ?_⟩
    rw [draw_graph ha, if_pos (List.contains_iff_mem.2 (Graph.mem_live_iff.2 hlive)), hw]

/-- A random word of a finite language that is not empty has fewer letters than there are live
states, so the walk that draws it takes fewer steps, whatever the source and the random words are.
And it is drawn: from every stream of random words on which every single draw is answered, the walk
takes some front part and leaves the rest. -/
theorem draw_length (ha : a.WellFormed) (ht : a.Truthful) (hf : a.isFinite = .ok true)
    (hl : a.language ≠ 0) (d : Source) :
    (∀ ws w rest, a.draw d ws = (.ok w, rest) → w.length < a.toGraph.live.length) ∧
    ∀ s, d.Answering s → ∃ w n, w.length < a.toGraph.live.length ∧ a.run w = .ok true ∧
      ∀ m, a.draw d (s.take (n + m)) = (.ok w, (s.drop n).take m) := by
  have hshort : ∀ ws w rest, a.draw d ws = (.ok w, rest) → w.length < a.toGraph.live.length :=
    fun ws w rest h => length_lt_of_accepts ha hf (accepts_of_draw ha h)
  refine ⟨hshort, fun s hs => ?_⟩
  obtain ⟨w, us, hus, hw⟩ := exists_draw_of_answering ha hf hl hs
  have hproper : a.Proper := ⟨ha, ht⟩
  refine ⟨w, us.length, hshort _ w [] (hw []),
    hproper.run_eq_true_iff.2 (accepts_of_draw ha (hw [])), fun m => ?_⟩
  rw [Stream'.take_add, hus, hw]

/-- All words are those of one letter, and every draw is answered by the word zero. -/
theorem draw_length_sidetracked :
    (graph sidetracked).WellFormed ∧ (graph sidetracked).Truthful ∧
    (graph sidetracked).isFinite = .ok true ∧ (graph sidetracked).language ≠ 0 ∧
    Source.scaling.Answering (Stream'.const 0) ∧
    ∃ w n, w.length < 2 ∧ (graph sidetracked).run w = .ok true ∧
      ∀ m, (graph sidetracked).draw .scaling ((Stream'.const 0).take (n + m)) =
        (.ok w, ((Stream'.const 0).drop n).take m) := by
  have hwf : (graph sidetracked).WellFormed := ⟨by decide, by decide⟩
  have ht : (graph sidetracked).Truthful := fun h => by cases h
  have hf : (graph sidetracked).isFinite = .ok true := by decide
  have hp : (graph sidetracked).Proper := ⟨hwf, ht⟩
  have hl : (graph sidetracked).language ≠ 0 := fun h =>
    language_eq_zero_iff.1 h ['a'] (hp.run_eq_true_iff.1 (by decide +kernel))
  have hs : Source.scaling.Answering (Stream'.const 0) := answering_zeros
  have hlive : (graph sidetracked).toGraph.live.length = 2 := by decide
  obtain ⟨-, hdrawn⟩ := draw_length hwf ht hf hl .scaling
  obtain ⟨w, n, hw, hrun, hdraw⟩ := hdrawn _ hs
  exact ⟨hwf, ht, hf, hl, hs, w, n, hlive ▸ hw, hrun, hdraw⟩

end Automaton

end RegLang
