import Mathlib.Algebra.BigOperators.Ring.List
import RegLang.Automaton.Combine
import RegLang.Proofs.Union
/-!
# One graph after another

Two graphs in one arena are chained if the accepting states of the first also step like the
initial state of the second.  Whether they go on accepting themselves makes the difference between
a concatenation and one that may end after the first part.

* `Chained.acceptsFrom_iff`: a word is read by the first graph, and the rest by the second.
* `computes_concatenate`: the concatenation of proper automata.
-/

namespace RegLang

namespace Graph

variable {g h n : Graph} {p q r x : Nat} {c : Char} {w : Word} {P : Prop}

theorem wellFormed_of_steps (hi : n.initial < n.size)
    (hs : ∀ x < n.size, ∀ c, ∀ r ∈ (n.state x).stepAll c, r < n.size) : n.WellFormed where
  initial_lt := hi
  target_lt x hx t ht := by
    obtain ⟨c, hc⟩ := State.exists_mem_stepAll (State.mem_targets.2 ⟨t, ht, rfl⟩)
    exact hs x hx c _ hc

/-! ## Chained graphs -/

/-- The accepting states of `g` also step like the initial state of `h`, whose places follow those
of `g`; they accept only if `P` holds. -/
structure Chained (g h n : Graph) (P : Prop) : Prop where
  initial_eq : n.initial = g.initial
  step : ∀ x, g.IsReachable x → ∀ c r, r ∈ (n.state x).stepAll c ↔ r ∈ (g.state x).stepAll c ∨
    ((g.state x).accept = true ∧ ∃ s ∈ (h.state h.initial).stepAll c, g.size + s = r)
  accept : ∀ x, g.IsReachable x → ((n.state x).accept = true ↔ (g.state x).accept = true ∧ P)
  right : Covers (g.size + ·) (· < h.size) h n

/-- The words of `h` other than the empty word, and that one if the first part may be all. -/
def continuations (h : Graph) (P : Prop) : Language Char :=
  {w | (w = [] ∧ P) ∨ (w ≠ [] ∧ h.Accepts w)}

theorem nil_mem_continuations : [] ∈ h.continuations P ↔ P := by
  constructor
  · rintro (⟨_, hP⟩ | ⟨hne, _⟩)
    · exact hP
    · exact absurd rfl hne
  · exact fun hP => .inl ⟨rfl, hP⟩

theorem cons_mem_continuations : c :: w ∈ h.continuations P ↔ h.Accepts (c :: w) := by
  constructor
  · rintro (⟨he, _⟩ | ⟨_, hw⟩)
    · cases he
    · exact hw
  · exact fun hw => .inr ⟨List.cons_ne_nil _ _, hw⟩

theorem Chained.acceptsFrom_iff (hn : Chained g h n P) (hh : h.WellFormed)
    (hx : g.IsReachable x) : n.AcceptsFrom x w ↔
      ∃ u v, u ++ v = w ∧ g.AcceptsFrom x u ∧ v ∈ h.continuations P := by
  induction w generalizing x with
  | nil =>
    rw [acceptsFrom_nil_iff, hn.accept x hx]
    constructor
    · rintro ⟨ha, hP⟩
      exact ⟨[], [], rfl, acceptsFrom_nil_iff.2 ha, nil_mem_continuations.2 hP⟩
    · rintro ⟨u, v, he, hu, hv⟩
      obtain ⟨rfl, rfl⟩ := List.append_eq_nil_iff.1 he
      exact ⟨acceptsFrom_nil_iff.1 hu, nil_mem_continuations.1 hv⟩
  | cons c w ih =>
    rw [acceptsFrom_cons_iff]
    constructor
    · rintro ⟨r, hr, hw⟩
      rcases (hn.step x hx c r).1 hr with hr | ⟨ha, s, hs, rfl⟩
      · obtain ⟨u, v, rfl, hu, hv⟩ := (ih (hx.stepAll hr)).1 hw
        exact ⟨c :: u, v, rfl, acceptsFrom_cons_iff.2 ⟨r, hr, hu⟩, hv⟩
      · have hlt := hh.lt_of_mem_stepAll hh.initial_lt hs
        refine ⟨[], c :: w, rfl, acceptsFrom_nil_iff.2 ha, cons_mem_continuations.2 ?_⟩
        exact acceptsFrom_cons_iff.2 ⟨s, hs, (hn.right.acceptsFrom_iff (p := s) hlt).1 hw⟩
    · rintro ⟨u, v, he, hu, hv⟩
      cases u with
      | nil =>
        rw [List.nil_append] at he
        rw [he, cons_mem_continuations] at hv
        obtain ⟨s, hs, hw⟩ := acceptsFrom_cons_iff.1 hv
        have hlt := hh.lt_of_mem_stepAll hh.initial_lt hs
        exact ⟨g.size + s, (hn.step x hx c _).2 (.inr ⟨acceptsFrom_nil_iff.1 hu, s, hs, rfl⟩),
          (hn.right.acceptsFrom_iff (p := s) hlt).2 hw⟩
      | cons d u =>
        obtain ⟨rfl, rfl⟩ := List.cons.inj he
        obtain ⟨r, hr, hu⟩ := acceptsFrom_cons_iff.1 hu
        exact ⟨r, (hn.step x hx d r).2 (.inl hr), (ih (hx.stepAll hr)).2 ⟨u, v, rfl, hu, hv⟩⟩

theorem Chained.language_eq (hn : Chained g h n P) (hh : h.WellFormed) :
    n.language = g.language * h.continuations P := by
  ext w
  show n.AcceptsFrom n.initial w ↔ _
  rw [hn.initial_eq, hn.acceptsFrom_iff hh g.isReachable_initial, Language.mem_mul]
  constructor
  · rintro ⟨u, v, he, hu, hv⟩
    exact ⟨u, hu, v, hv, he⟩
  · rintro ⟨u, hu, v, hv, he⟩
    exact ⟨u, v, he, hu, hv⟩

/-- What is reachable was so in the first graph, or stands for something reachable in the
second. -/
theorem Chained.isReachable (hn : Chained g h n P) (hh : h.WellFormed) (hx : n.IsReachable x) :
    g.IsReachable x ∨ ∃ p, h.IsReachable p ∧ g.size + p = x := by
  refine hx.induct (P := fun x => g.IsReachable x ∨ ∃ p, h.IsReachable p ∧ g.size + p = x) ?_ ?_
  · rw [hn.initial_eq]
    exact .inl g.isReachable_initial
  · rintro y c r _ (hy | ⟨p, hp, rfl⟩) hr
    · rcases (hn.step y hy c r).1 hr with hr | ⟨_, s, hs, rfl⟩
      · exact .inl (hy.stepAll hr)
      · exact .inr ⟨s, h.isReachable_initial.stepAll hs, rfl⟩
    · obtain ⟨s, hs, rfl⟩ := (hn.right.step (hh.lt_of_isReachable hp)).1 hr
      exact .inr ⟨s, hp.stepAll hs, rfl⟩

/-- Chained graphs come from the joined arena: the places that accept in the first graph also step
like the initial state of the second, and no others change. -/
theorem Chained.of_append {qs : List Nat} (hg : g.WellFormed) (hh : h.WellFormed)
    (hlt : ∀ q ∈ qs, q < g.size)
    (hqs : ∀ x, g.IsReachable x → (x ∈ qs ↔ (g.state x).accept = true))
    (hinit : n.initial = g.initial)
    (hstep : ∀ x c r, r ∈ (n.state x).stepAll c ↔ r ∈ ((g.append h).state x).stepAll c ∨
      (x ∈ qs ∧ r ∈ ((g.append h).state (g.size + h.initial)).stepAll c))
    (haccept : ∀ x, g.IsReachable x →
      ((n.state x).accept = true ↔ (g.state x).accept = true ∧ P))
    (hrest : ∀ x ∉ qs, ((n.state x).accept = true ↔ ((g.append h).state x).accept = true)) :
    Chained g h n P := by
  have hright := covers_append_right g hh
  have hnot : ∀ q, g.size + q ∉ qs := by
    intro q hq
    have hlt := hlt _ hq
    omega
  refine ⟨hinit, ?_, haccept, hright.closed, ?_, ?_⟩
  · intro x hx c r
    rw [hstep, hqs x hx, state_append_left (hg.lt_of_isReachable hx)]
    exact or_congr_right (and_congr_right fun _ => hright.step hh.initial_lt)
  · intro q hq
    exact (hrest _ (hnot q)).trans (hright.accept hq)
  · intro q c r hq
    refine Iff.trans ?_ (hright.step hq)
    exact (hstep _ c r).trans (or_iff_left fun h => hnot q h.1)

/-- With the empty word allowed exactly if the second graph accepts it, its words continue. -/
theorem continuations_of_accept (h : Graph) :
    h.continuations ((h.state h.initial).accept = true) = h.language := by
  ext w
  cases w with
  | nil => rw [nil_mem_continuations]; exact acceptsFrom_nil_iff.symm
  | cons c w => exact cons_mem_continuations

theorem continuations_true (h : Graph) : h.continuations True = 1 + h.language := by
  ext w
  rw [Language.mem_add, Language.mem_one]
  cases w with
  | nil => simp [nil_mem_continuations]
  | cons c w =>
    rw [cons_mem_continuations]
    exact (or_iff_right (List.cons_ne_nil c w)).symm

/-- A graph that shows itself to accept the empty word alone does so. -/
theorem language_of_acceptsOnlyEmptyWord (hh : h.acceptsOnlyEmptyWord = true) :
    h.language = 1 := by
  unfold acceptsOnlyEmptyWord at hh
  rw [Bool.and_eq_true, List.all_eq_true] at hh
  ext w
  rw [Language.mem_one]
  cases w with
  | nil => exact ⟨fun _ => rfl, fun _ => acceptsFrom_nil_iff.2 hh.1⟩
  | cons c w =>
    refine ⟨fun hw => ?_, fun he => absurd he (List.cons_ne_nil c w)⟩
    obtain ⟨r, hr, hw⟩ := acceptsFrom_cons_iff.1 hw
    obtain ⟨t, ht, _, rfl⟩ := State.mem_stepAll.1 hr
    have hlive : t.target ∈ h.live :=
      mem_live_iff.2 ⟨h.isReachable_initial.stepAll hr, w, hw⟩
    have hnot := hh.2 t ht
    simp [hlive] at hnot

end Graph

namespace Automaton

open RegLang.Graph (Chained Covers)

variable {p : Prefix} {g h : Graph} {l : Language Char} {init q x r : Nat} {c : Char}
  {qs : List Nat} {as : List Automaton}

/-! ## Continuing in a state -/

/-- What has become of a prefix once some of its states continue in `init`: they step like `init`,
too, and accept exactly if it does, and then they are among those that accept so far. -/
structure Continued (init : Nat) (qs : List Nat) (p n : Prefix) : Prop where
  size_eq : n.graph.size = p.graph.size
  initial_eq : n.graph.initial = p.graph.initial
  step : ∀ x c r, r ∈ (n.graph.state x).stepAll c ↔ r ∈ (p.graph.state x).stepAll c ∨
    (x ∈ qs ∧ r ∈ (p.graph.state init).stepAll c)
  accept : ∀ x, (n.graph.state x).accept = true ↔
    (x ∈ qs ∧ (p.graph.state init).accept = true) ∨
      (x ∉ qs ∧ (p.graph.state x).accept = true)
  mem_accepting : ∀ x, x ∈ n.accepting ↔
    x ∈ p.accepting ∨ (x ∈ qs ∧ (p.graph.state init).accept = true)

theorem Continued.nil (init : Nat) (p : Prefix) : Continued init [] p p := by
  refine ⟨rfl, rfl, ?_, ?_, ?_⟩ <;> simp

/-- One state more continues in `init`. -/
def Prefix.restart (p : Prefix) (init q : Nat) : Prefix :=
  let g := (p.graph.setAccept q false).absorb q init
  ⟨g, if (g.state q).accept then p.accepting ++ [q] else p.accepting⟩

theorem continueIn_cons : continueIn init (q :: qs) p = continueIn init qs (p.restart init q) := rfl

/-- Only the state that is to continue changes, and `init` is another one. -/
theorem state_restart_of_ne (hx : x ≠ q) :
    (p.restart init q).graph.state x = p.graph.state x := by
  unfold Prefix.restart
  rw [Graph.state_absorb_of_ne hx, Graph.state_setAccept, if_neg fun h => hx h.1]

/-- The state itself then accepts exactly if `init` does. -/
theorem accept_restart_self (hne : init ≠ q) (hq : q < p.graph.size) :
    ((p.restart init q).graph.state q).accept = true ↔
      (p.graph.state init).accept = true := by
  have hq' : q < (p.graph.setAccept q false).size := by rwa [Graph.size_setAccept]
  unfold Prefix.restart
  rw [Graph.accept_absorb hq', Graph.state_setAccept, if_pos ⟨rfl, hq⟩, Graph.state_setAccept,
    if_neg fun h => hne h.1]
  simp

theorem continued_restart (hne : init ≠ q) (hq : q < p.graph.size) :
    Continued init [q] p (p.restart init q) where
  size_eq := by
    unfold Prefix.restart
    rw [Graph.size_absorb, Graph.size_setAccept]
  initial_eq := rfl
  step x c r := by
    have hq' : q < (p.graph.setAccept q false).size := by rwa [Graph.size_setAccept]
    unfold Prefix.restart
    rw [Graph.mem_stepAll_absorb hq', Graph.mem_stepAll_setAccept, Graph.mem_stepAll_setAccept,
      List.mem_singleton]
  accept x := by
    rw [List.mem_singleton]
    by_cases hx : x = q
    · subst hx
      rw [accept_restart_self hne hq]
      simp
    · rw [state_restart_of_ne hx]
      simp [hx]
  mem_accepting x := by
    have haccept := accept_restart_self hne hq
    by_cases ha : (p.graph.state init).accept = true
    · have hlist : (p.restart init q).accepting = p.accepting ++ [q] := if_pos (haccept.2 ha)
      rw [hlist, List.mem_append, and_iff_left ha]
    · have hlist : (p.restart init q).accepting = p.accepting := if_neg fun h => ha (haccept.1 h)
      rw [hlist]
      exact (or_iff_left fun h => ha h.2).symm

/-- What continues first stays as it is while the others follow, since `init` does not change. -/
theorem Continued.cons {m n : Prefix} (hne : init ≠ q) (hq : Continued init [q] p m)
    (hqs : Continued init qs m n) : Continued init (q :: qs) p n := by
  have hinit : init ∉ [q] := fun h => hne (List.mem_singleton.1 h)
  have hstep : ∀ c r, r ∈ (m.graph.state init).stepAll c ↔ r ∈ (p.graph.state init).stepAll c :=
    fun c r => (hq.step init c r).trans (or_iff_left fun h => hinit h.1)
  have haccept : (m.graph.state init).accept = true ↔ (p.graph.state init).accept = true := by
    rw [hq.accept]
    simp only [hinit, false_and, not_false_iff, true_and, false_or]
  refine ⟨hqs.size_eq.trans hq.size_eq, hqs.initial_eq.trans hq.initial_eq, fun x c r => ?_,
    fun x => ?_, fun x => ?_⟩
  · rw [hqs.step, hq.step, hstep, List.mem_singleton, List.mem_cons, or_and_right, or_assoc]
  · rw [hqs.accept, haccept, hq.accept, List.mem_singleton, List.mem_cons]
    by_cases hx : x ∈ qs <;> simp [hx]
  · rw [hqs.mem_accepting, hq.mem_accepting, haccept, List.mem_singleton, List.mem_cons,
      or_and_right, or_assoc]

theorem continued_continueIn (hinit : init ∉ qs) (hqs : ∀ q ∈ qs, q < p.graph.size) :
    Continued init qs p (continueIn init qs p) := by
  induction qs generalizing p with
  | nil => exact .nil init p
  | cons q qs ih =>
    have hne : init ≠ q := fun h => hinit (h ▸ List.mem_cons_self)
    have hfirst := continued_restart hne (hqs q List.mem_cons_self)
    rw [continueIn_cons]
    refine hfirst.cons hne (ih (fun h => hinit (List.mem_cons_of_mem q h)) fun r hr => ?_)
    rw [hfirst.size_eq]
    exact hqs r (List.mem_cons_of_mem q hr)

/-! ## Prefixes -/

/-- What holds of a prefix while graphs are chained: the list has the places that accept. -/
structure Opened (p : Prefix) (l : Language Char) : Prop where
  wellFormed : p.graph.WellFormed
  accepting_lt : ∀ x ∈ p.accepting, x < p.graph.size
  mem_accepting : ∀ x : Nat, p.graph.IsReachable x →
    (x ∈ p.accepting ↔ (p.graph.state x).accept = true)
  language_eq : p.graph.language = l

theorem opened_start (hg : g.WellFormed) : Opened ⟨g, g.acceptStates⟩ g.language where
  wellFormed := hg
  accepting_lt := hg.lt_of_mem_acceptStates
  mem_accepting _ hx := Graph.mem_acceptStates.trans (and_iff_right hx)
  language_eq := rfl

/-- The accepting places stay apart from the new ones. -/
theorem Opened.add_notMem (hp : Opened p l) (q : Nat) : p.graph.size + q ∉ p.accepting := by
  intro hq
  have hlt := hp.accepting_lt _ hq
  omega

theorem Opened.lt_append (hp : Opened p l) (h : Graph) :
    ∀ q ∈ p.accepting, q < (p.graph.append h).size := by
  intro q hq
  have hlt := hp.accepting_lt q hq
  rw [Graph.size_append]
  omega

/-- The graph in which the accepting states of a prefix continue in a new graph. -/
def Prefix.joined (p : Prefix) (h : Graph) : Prefix :=
  continueIn (p.graph.size + h.initial) p.accepting
    ⟨p.graph.append h, h.acceptStates.map (p.graph.shift h)⟩

theorem followBy_eq_joined (hh : h.WellFormed) (hone : ¬ h.acceptsOnlyEmptyWord = true) :
    followBy p h = p.joined h := by
  unfold followBy Prefix.joined
  rw [if_neg hone]
  dsimp only
  rw [Graph.shift_of_lt hh.initial_lt]

theorem Opened.continued (hp : Opened p l) (h : Graph) :
    Continued (p.graph.size + h.initial) p.accepting
      ⟨p.graph.append h, h.acceptStates.map (p.graph.shift h)⟩ (p.joined h) :=
  continued_continueIn (hp.add_notMem _) (hp.lt_append h)

/-- The new start accepts in the joined arena if it does in its own. -/
theorem accept_append_initial (g : Graph) (hh : h.WellFormed) :
    ((g.append h).state (g.size + h.initial)).accept = true ↔ (h.state h.initial).accept = true :=
  (Graph.covers_append_right g hh).accept hh.initial_lt

theorem Opened.mem_accepting_joined (hp : Opened p l) (hh : h.WellFormed) :
    x ∈ (p.joined h).accepting ↔
      (∃ q, h.IsReachable q ∧ (h.state q).accept = true ∧ p.graph.size + q = x) ∨
        (x ∈ p.accepting ∧ (h.state h.initial).accept = true) := by
  rw [← accept_append_initial p.graph hh]
  refine ((hp.continued h).mem_accepting x).trans (or_congr_left ?_)
  rw [List.mem_map]
  refine exists_congr fun q => ?_
  rw [Graph.mem_acceptStates, and_assoc]
  refine and_congr_right fun hq => and_congr_right fun _ => ?_
  rw [Graph.shift_of_lt (hh.lt_of_isReachable hq)]

/-- The accepting states of the prefix continue in the new graph. -/
theorem Opened.chained (hp : Opened p l) (hh : h.WellFormed) :
    Chained p.graph h (p.joined h).graph ((h.state h.initial).accept = true) := by
  have hn := hp.continued h
  refine .of_append hp.wellFormed hh hp.accepting_lt hp.mem_accepting hn.initial_eq hn.step ?_ ?_
  · intro x hx
    rw [hn.accept, accept_append_initial p.graph hh, hp.mem_accepting x hx,
      Graph.state_append_left (hp.wellFormed.lt_of_isReachable hx)]
    -- what does not accept so far is not in the list
    by_cases ha : (p.graph.state x).accept = true <;> simp [ha]
  · intro x hx
    rw [hn.accept]
    simp only [hx, false_and, not_false_iff, true_and, false_or]

theorem Opened.wellFormed_joined (hp : Opened p l) (hh : h.WellFormed) :
    (p.joined h).graph.WellFormed := by
  have happend := hp.wellFormed.append hh
  have hn := hp.continued h
  apply Graph.wellFormed_of_steps
  · rw [hn.size_eq, hn.initial_eq]
    exact happend.initial_lt
  · intro x hx c r hr
    rw [hn.size_eq] at hx ⊢
    rcases (hn.step x c r).1 hr with hr | ⟨_, hr⟩
    · exact happend.lt_of_mem_stepAll hx hr
    · exact happend.lt_of_mem_stepAll (Graph.add_initial_lt_append hh p.graph) hr

theorem Opened.joined (hp : Opened p l) (hh : h.WellFormed) :
    Opened (p.joined h) (l * h.language) := by
  have hchained := hp.chained hh
  refine ⟨hp.wellFormed_joined hh, ?_, ?_, ?_⟩
  · intro x hx
    rw [(hp.continued h).size_eq, Graph.size_append]
    rcases (hp.mem_accepting_joined hh).1 hx with ⟨q, hq, _, rfl⟩ | ⟨hx, _⟩
    · have hlt := hh.lt_of_isReachable hq
      omega
    · have hlt := hp.accepting_lt x hx
      omega
  · intro x hx
    rw [hp.mem_accepting_joined hh]
    rcases hchained.isReachable hh hx with hx | ⟨q, hq, rfl⟩
    · have hlt := hp.wellFormed.lt_of_isReachable hx
      rw [hchained.accept x hx, hp.mem_accepting x hx]
      refine or_iff_right ?_
      rintro ⟨q, _, _, rfl⟩
      omega
    · refine Iff.trans ?_ (hchained.right.accept (hh.lt_of_isReachable hq)).symm
      show _ ↔ (h.state q).accept = true
      simp only [hp.add_notMem q, false_and, or_false, Nat.add_left_cancel_iff]
      constructor
      · rintro ⟨_, _, ha, rfl⟩
        exact ha
      · exact fun ha => ⟨q, hq, ha, rfl⟩
  · rw [hchained.language_eq hh, hp.language_eq, Graph.continuations_of_accept]

theorem Opened.foldl {hs : List Graph} (hp : Opened p l) (hhs : ∀ h ∈ hs, h.WellFormed) :
    Opened (hs.foldl followBy p) (l * (hs.map Graph.language).prod) := by
  induction hs generalizing p l with
  | nil =>
    rw [List.map_nil, List.prod_nil, mul_one]
    exact hp
  | cons h hs ih =>
    have hh := hhs h List.mem_cons_self
    rw [List.map_cons, List.prod_cons, ← mul_assoc]
    refine ih ?_ fun k hk => hhs k (List.mem_cons_of_mem _ hk)
    by_cases hone : h.acceptsOnlyEmptyWord = true
    · -- nothing is gained by a graph of the empty word alone
      unfold followBy
      rw [if_pos hone, Graph.language_of_acceptsOnlyEmptyWord hone, mul_one]
      exact hp
    · rw [followBy_eq_joined hh hone]
      exact hp.joined hh

/-! ## Operands -/

/-- Words one after the other. -/
theorem prod_of_all_singletons (h : as.all isSingleton = true) :
    (as.map language).prod = {as.flatMap fun a => a.word?.getD []} := by
  induction as with
  | nil => rfl
  | cons a as ih =>
    rw [List.all_cons, Bool.and_eq_true] at h
    rw [List.map_cons, List.prod_cons, ih h.2, List.flatMap_cons]
    cases a with
    | singleton w => exact Set.image2_singleton
    | graph g => exact absurd h.1 Bool.false_ne_true

/-- The concatenation of proper automata has the words made of one word of each. -/
theorem computes_concatenate (has : ∀ a ∈ as, a.Proper) :
    Computes (concatenate as) (as.map language).prod := by
  classical
  have hany : as.anyM isEmpty = .ok (as.any fun a => decide (a.language = 0)) := by
    apply anyM_eq_ok
    exact fun a ha => (has a ha).isEmpty_eq
  unfold concatenate
  by_cases hall : as.all isSingleton = true
  · rw [if_pos hall, prod_of_all_singletons hall]
    exact Computes.of_ok (proper_singleton _) rfl
  rw [if_neg hall, hany]
  by_cases hzero : (as.any fun a => decide (a.language = 0)) = true
  · show Computes (if (as.any fun a => decide (a.language = 0)) = true then _ else _) _
    rw [if_pos hzero, List.prod_eq_zero]
    · exact computes_empty
    · obtain ⟨a, ha, h⟩ := List.any_eq_true.1 hzero
      exact List.mem_map.2 ⟨a, ha, of_decide_eq_true h⟩
  · show Computes (if (as.any fun a => decide (a.language = 0)) = true then _ else _) _
    rw [if_neg hzero]
    match as, has with
    | [], _ => exact Computes.of_ok (proper_singleton []) rfl
    | a :: as, has =>
      have hwf := wellFormed_of_mem_map_toGraph fun b hb => has b (List.mem_cons_of_mem _ hb)
      have hfold := (opened_start (has a List.mem_cons_self).toGraph_wellFormed).foldl hwf
      apply computes_compact
      rw [hfold.language_eq, map_language_toGraph, language_toGraph, List.map_cons, List.prod_cons]

end Automaton

end RegLang
