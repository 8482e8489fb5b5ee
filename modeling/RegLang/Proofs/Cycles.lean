import Mathlib.Algebra.Order.BigOperators.Group.Finset
import Mathlib.Data.List.Chain
import Mathlib.Data.Set.Finite.List
import RegLang.Proofs.Determinism
import RegLang.Semantics.Searching
/-!
# Cycles and finite languages

A language is infinite exactly if some live state is on a cycle.  Such a cycle can be passed as
often as one likes.  The converse is read off the search itself: a state is left only after all its
live targets, so if no cycle is met then paths of live states go down the list of the states that
were left, the last one first, and no word is longer than this list.

The steps of the search are bounded.  Every state is left once and each of its targets is followed
once; `work` counts what is left to be done, and the bound has room for all of it.

* `Graph.infinite_of_cycle`: a live cycle makes the language infinite.
* `Cycles.ends_acyclic`: within its bound the search comes to its end.
* `Cycles.Ends.exists_cycle`, `Cycles.Ends.exists_settled`: what either answer shows.
* `Automaton.isFinite_spec`: the answer says whether the language is finite.
-/

namespace RegLang

/-- There are finitely many letters. -/
instance Alphabet.finite : Finite Char :=
  Finite.of_injective (fun c => (⟨Alphabet.rank c, Alphabet.rank_lt_size c⟩ : Fin Alphabet.size))
    fun _ _ h => Alphabet.rank_inj (Fin.mk.inj h)

namespace Graph

variable {g : Graph} {p q r : Nat} {u v w : Word} {path : List Nat}

/-! ## Cycles -/

/-- No live state is on a cycle. -/
def Acyclic (g : Graph) : Prop := ∀ q w, g.IsLive q → g.Path q w q → w = []

theorem path_replicate (hw : g.Path q w q) (n : Nat) :
    g.Path q (List.replicate n w).flatten q := by
  induction n with
  | zero => exact .nil q
  | succ n ih =>
    rw [List.replicate_succ, List.flatten_cons]
    exact path_append_iff.2 ⟨q, hw, ih⟩

/-- A live state on a cycle is passed as often as one likes. -/
theorem infinite_of_cycle (hq : g.IsLive q) (hw : g.Path q w q) (hne : w ≠ []) :
    {w | g.Accepts w}.Infinite := by
  obtain ⟨⟨u, hu⟩, v, r, hv, ha⟩ := hq
  have hpos : 0 < w.length := List.length_pos_iff.2 hne
  apply Set.infinite_of_injective_forall_mem
    (f := fun n : Nat => u ++ ((List.replicate n w).flatten ++ v))
  · intro m n hmn
    have hlen := congrArg List.length hmn
    simp only [List.length_append, List.length_flatten, List.map_replicate, List.sum_replicate,
      Nat.nsmul_eq_mul, Nat.add_left_cancel_iff, Nat.add_right_cancel_iff] at hlen
    exact Nat.eq_of_mul_eq_mul_right hpos hlen
  · intro n
    exact ⟨r, path_append_iff.2 ⟨q, hu, path_append_iff.2 ⟨q, path_replicate hw n, hv⟩⟩, ha⟩

theorem acyclic_of_finite (h : {w | g.Accepts w}.Finite) : g.Acyclic := by
  intro q w hq hw
  by_contra hne
  exact infinite_of_cycle hq hw hne h

theorem toList_states (g : Graph) : g.states.toList = (List.range g.size).map g.state := by
  apply List.ext_getElem
  · simp [size]
  · intro i hi _
    rw [Array.length_toList] at hi
    simp [state, Array.getD, hi]

/-- The transitions of the arena, counted state by state. -/
theorem edgeCount_eq_sum (g : Graph) :
    g.edgeCount = ∑ q ∈ Finset.range g.size, (g.state q).transitions.length := by
  rw [edgeCount, toList_states, List.flatMap_map, List.length_flatMap]
  rfl

/-! ## Trails -/

/-- Each state of a list is a target of the next one: the list is a path, backwards. -/
def Trail (g : Graph) (path : List Nat) : Prop :=
  path.IsChain fun p q => p ∈ (g.state q).targets

theorem Trail.exists_path (h : g.Trail (q :: path)) (hp : p ∈ q :: path) : ∃ w, g.Path p w q := by
  induction path generalizing q with
  | nil =>
    rw [List.mem_singleton] at hp
    exact ⟨[], path_nil_iff.2 hp⟩
  | cons r path ih =>
    obtain ⟨hq, htail⟩ := List.isChain_cons_cons.1 h
    rcases List.mem_cons.1 hp with rfl | hp
    · exact ⟨[], .nil p⟩
    · obtain ⟨v, hv⟩ := ih htail hp
      obtain ⟨w, hw⟩ := path_of_mem_targets hq
      exact ⟨v ++ w, path_append_iff.2 ⟨r, hv, hw⟩⟩

/-- A trail that leads back to one of its states closes a cycle. -/
theorem Trail.exists_cycle (h : g.Trail (q :: path)) (hp : p ∈ q :: path)
    (ht : p ∈ (g.state q).targets) : ∃ w, w ≠ [] ∧ g.Path p w p := by
  obtain ⟨v, hv⟩ := h.exists_path hp
  obtain ⟨t, mem, rfl⟩ := State.mem_targets.1 ht
  have hlo : t.contains t.lo = true := Transition.contains_iff.2 ⟨Char.le_refl _, t.lo_le_hi⟩
  exact ⟨v ++ [t.lo], by simp, path_append_iff.2 ⟨q, hv, .cons mem hlo (.nil _)⟩⟩

end Graph

namespace Cycles

open RegLang.Graph (Trail Acyclic)

variable {g : Graph} {live done : List Nat} {stack : List Frame} {b : Bool} {q : Nat}

/-! ## The search ends -/

/-- Each target of a state is followed once, and each state is left once. -/
def cost (g : Graph) (q : Nat) : Nat := (g.state q).targets.length + 1

/-- The live states that were not entered yet. -/
def fresh (live : List Nat) (stack : List Frame) (done : List Nat) : Finset Nat :=
  live.toFinset \ (stack.map (·.state) ++ done).toFinset

/-- The steps that are left at most. -/
def work (g : Graph) (live : List Nat) (stack : List Frame) (done : List Nat) : Nat :=
  (stack.map fun f => f.targets.length + 1).sum + ∑ q ∈ fresh live stack done, cost g q

variable {p : Nat} {ps : List Nat}

/-- Leaving a state takes one step. -/
theorem work_leave : work g live (⟨q, []⟩ :: stack) done = work g live stack (q :: done) + 1 := by
  have hfresh : fresh live (⟨q, []⟩ :: stack) done = fresh live stack (q :: done) := by
    ext r
    simp only [fresh, Finset.mem_sdiff, List.mem_toFinset, List.mem_append, List.map_cons,
      List.mem_cons]
    tauto
  simp only [work, hfresh, List.map_cons, List.sum_cons, List.length_nil]
  omega

/-- Following a target takes one step. -/
theorem work_follow : work g live (⟨q, p :: ps⟩ :: stack) done =
    work g live (⟨q, ps⟩ :: stack) done + 1 := by
  have hfresh : fresh live (⟨q, p :: ps⟩ :: stack) done = fresh live (⟨q, ps⟩ :: stack) done := rfl
  simp only [work, hfresh, List.map_cons, List.sum_cons, List.length_cons]
  omega

/-- The steps of a state that is entered were to be done all along. -/
theorem work_enter (hp : p ∈ live) (hnew : p ∉ done) (hoff : p ∉ q :: stack.map (·.state)) :
    work g live (.enter g p :: ⟨q, ps⟩ :: stack) done = work g live (⟨q, ps⟩ :: stack) done := by
  have hmem : p ∈ fresh live (⟨q, ps⟩ :: stack) done := by
    simp only [fresh, Finset.mem_sdiff, List.mem_toFinset, List.mem_append, List.map_cons]
    exact ⟨hp, fun h => h.elim hoff hnew⟩
  have hfresh : fresh live (.enter g p :: ⟨q, ps⟩ :: stack) done =
      (fresh live (⟨q, ps⟩ :: stack) done).erase p := by
    unfold fresh
    rw [List.map_cons, List.cons_append, List.toFinset_cons, Finset.sdiff_insert]
    rfl
  have hcost : (Frame.enter g p).targets.length + 1 = cost g p := rfl
  have hsum := Finset.add_sum_erase (fresh live (⟨q, ps⟩ :: stack) done) (cost g) hmem
  simp only [work, List.map_cons, List.sum_cons, hfresh, hcost] at hsum ⊢
  omega

theorem any_state_iff (stack : List Frame) (p : Nat) :
    (stack.any fun f => f.state = p) = true ↔ p ∈ stack.map (·.state) := by
  simp only [List.any_eq_true, decide_eq_true_eq, List.mem_map]

/-- With as many steps as there is work left, the search comes to its end. -/
theorem ends_acyclic (g : Graph) (live : List Nat) (fuel : Nat) {stack : List Frame}
    {done : List Nat} (h : work g live stack done ≤ fuel) :
    Ends g live stack done (acyclic g live fuel stack done) := by
  induction fuel generalizing stack done with
  | zero =>
    cases stack with
    | nil => exact .finished
    | cons f stack =>
      simp only [work, List.map_cons, List.sum_cons] at h
      omega
  | succ fuel ih =>
    match stack with
    | [] => exact .finished
    | ⟨q, []⟩ :: stack =>
      rw [work_leave] at h
      exact .leave (ih (Nat.le_of_succ_le_succ h))
    | ⟨q, p :: ps⟩ :: stack =>
      rw [work_follow] at h
      have hfollowed := Nat.le_of_succ_le_succ h
      unfold acyclic
      dsimp only
      split
      · next hknown =>
        simp only [Bool.or_eq_true, Bool.not_eq_true', List.contains_eq_mem,
          decide_eq_false_iff_not, decide_eq_true_eq] at hknown
        exact .skip hknown (ih hfollowed)
      · next hknown =>
        simp only [Bool.or_eq_true, Bool.not_eq_true', List.contains_eq_mem,
          decide_eq_false_iff_not, decide_eq_true_eq, not_or, not_not] at hknown
        have honPath := any_state_iff (⟨q, ps⟩ :: stack) p
        split
        · next hmet => exact .met hknown.1 hknown.2 (honPath.1 hmet)
        · next hmet =>
          have hoff := fun h => hmet (honPath.2 h)
          refine .enter hknown.1 hknown.2 hoff (ih ?_)
          rwa [work_enter hknown.1 hknown.2 hoff]

/-- The search has one answer. -/
theorem Ends.unique {b' : Bool} (h : Ends g live stack done b) (h' : Ends g live stack done b') :
    b = b' := by
  induction h with
  | finished =>
    cases h' with
    | finished => rfl
  | leave _ ih =>
    cases h' with
    | leave hrest => exact ih hrest
  | skip hknown _ ih =>
    cases h' with
    | skip _ hrest => exact ih hrest
    | met hlive hnew => exact (hknown.elim (· hlive) hnew).elim
    | enter hlive hnew => exact (hknown.elim (· hlive) hnew).elim
  | met hlive hnew hp =>
    cases h' with
    | skip hknown => exact (hknown.elim (· hlive) hnew).elim
    | met => rfl
    | enter _ _ hoff => exact absurd hp hoff
  | enter hlive hnew hoff _ ih =>
    cases h' with
    | skip hknown => exact (hknown.elim (· hlive) hnew).elim
    | met _ _ hp => exact absurd hp hoff
    | enter _ _ _ hrest => exact ih hrest

/-! ## A cycle that is met -/

/-- The stack is a trail of live states, each with some of its targets. -/
structure OnTrail (g : Graph) (live : List Nat) (stack : List Frame) : Prop where
  trail : g.Trail (stack.map (·.state))
  live : ∀ f ∈ stack, f.state ∈ live
  targets : ∀ f ∈ stack, f.targets ⊆ (g.state f.state).targets

theorem OnTrail.tail {f : Frame} (h : OnTrail g live (f :: stack)) : OnTrail g live stack where
  trail := h.trail.tail
  live f hf := h.live f (List.mem_cons_of_mem _ hf)
  targets f hf := h.targets f (List.mem_cons_of_mem _ hf)

/-- Following a target leaves the others. -/
theorem OnTrail.follow {q p : Nat} {ps : List Nat} (h : OnTrail g live (⟨q, p :: ps⟩ :: stack)) :
    OnTrail g live (⟨q, ps⟩ :: stack) where
  trail := h.trail
  live := List.forall_mem_cons.2 (List.forall_mem_cons.1 h.live)
  targets := by
    obtain ⟨hhead, htail⟩ := List.forall_mem_cons.1 h.targets
    exact List.forall_mem_cons.2 ⟨fun r hr => hhead (List.mem_cons_of_mem p hr), htail⟩

theorem OnTrail.enter {q p : Nat} {ps : List Nat} (h : OnTrail g live (⟨q, p :: ps⟩ :: stack))
    (hp : p ∈ live) : OnTrail g live (.enter g p :: ⟨q, ps⟩ :: stack) where
  trail := List.isChain_cons_cons.2
    ⟨h.targets _ List.mem_cons_self List.mem_cons_self, h.trail⟩
  live := List.forall_mem_cons.2 ⟨hp, h.follow.live⟩
  targets := List.forall_mem_cons.2 ⟨fun _ hr => hr, h.follow.targets⟩

/-- If the search says that there is a cycle, there is one. -/
theorem Ends.exists_cycle (h : Ends g live stack done b) (hb : b = false)
    (ht : OnTrail g live stack) : ∃ q ∈ live, ∃ w, w ≠ [] ∧ g.Path q w q := by
  induction h with
  | finished => cases hb
  | leave _ ih => exact ih hb ht.tail
  | skip _ _ ih => exact ih hb ht.follow
  | met hlive _ hp =>
    exact ⟨_, hlive, ht.trail.exists_cycle hp (ht.targets _ List.mem_cons_self List.mem_cons_self)⟩
  | enter hlive _ _ _ ih => exact ih hb (ht.enter hlive)

/-! ## No cycle -/

/-- The live targets of each of a list of states come after it in the list. -/
def Settled (g : Graph) (live : List Nat) : List Nat → Prop
  | [] => True
  | q :: done => (∀ p ∈ (g.state q).targets, p ∈ live → p ∈ done) ∧ Settled g live done

/-- The live targets of each state of the stack are still to be followed, are known, or are further
up the stack. -/
def Explored (g : Graph) (live : List Nat) : List Nat → List Frame → Prop
  | _, [] => True
  | known, f :: stack =>
    (∀ p ∈ (g.state f.state).targets, p ∈ live → p ∈ f.targets ∨ p ∈ known) ∧
      Explored g live (f.state :: known) stack

theorem Explored.mono {known known' : List Nat} (h : Explored g live known stack)
    (hsub : known ⊆ known') : Explored g live known' stack := by
  induction stack generalizing known known' with
  | nil => trivial
  | cons f stack ih =>
    exact ⟨fun p hp hl => (h.1 p hp hl).imp_right fun hk => hsub hk,
      ih h.2 (List.cons_subset_cons _ hsub)⟩

/-- If the search finds no cycle, all states of the stack can be settled. -/
theorem Ends.exists_settled (h : Ends g live stack done b) (hb : b = true)
    (hs : Settled g live done) (he : Explored g live done stack) :
    ∃ all, Settled g live all ∧ ∀ q, q ∈ done ∨ q ∈ stack.map (·.state) → q ∈ all := by
  induction h with
  | finished => exact ⟨_, hs, fun q hq => hq.resolve_right List.not_mem_nil⟩
  | leave _ ih =>
    obtain ⟨hhead, htail⟩ := he
    have hnow := fun p hp hl => (hhead p hp hl).resolve_left List.not_mem_nil
    obtain ⟨all, hall, hmem⟩ := ih hb ⟨hnow, hs⟩ htail
    refine ⟨all, hall, fun q hq => hmem q ?_⟩
    simp only [List.map_cons, List.mem_cons] at hq ⊢
    tauto
  | skip hknown _ ih =>
    obtain ⟨hhead, htail⟩ := he
    refine ih hb hs ⟨fun r hr hl => ?_, htail⟩
    rcases hhead r hr hl with hr | hr
    · rcases List.mem_cons.1 hr with rfl | hr
      · exact .inr (hknown.resolve_left fun h => h hl)
      · exact .inl hr
    · exact .inr hr
  | met => cases hb
  | @enter q p ps stack done b _ _ _ _ ih =>
    obtain ⟨hhead, htail⟩ := he
    have hq : ∀ r ∈ (g.state q).targets, r ∈ live → r ∈ ps ∨ r ∈ p :: done := by
      intro r hr hl
      rcases hhead r hr hl with hr | hr
      · rcases List.mem_cons.1 hr with rfl | hr
        · exact .inr List.mem_cons_self
        · exact .inl hr
      · exact .inr (List.mem_cons_of_mem _ hr)
    have htail' := htail.mono (List.cons_subset_cons q (List.subset_cons_self p done))
    obtain ⟨all, hall, hmem⟩ := ih hb hs ⟨fun r hr _ => .inl hr, hq, htail'⟩
    exact ⟨all, hall, fun r hr => hmem r (hr.imp_right (List.mem_cons_of_mem _))⟩

/-- A path of live states goes down the list of settled states. -/
theorem Settled.length_lt {all : List Nat} (h : Settled g g.live all) {q r : Nat} {w : Word}
    (hq : q ∈ all) (hreach : g.IsReachable q) (hw : g.Path q w r) (hr : ∃ v, g.AcceptsFrom r v) :
    w.length < all.length := by
  induction all generalizing q w with
  | nil => cases hq
  | cons s all ih =>
    rcases List.mem_cons.1 hq with rfl | hq
    · cases w with
      | nil => exact Nat.succ_pos _
      | cons c w =>
        obtain ⟨p, hp, hw⟩ := Graph.path_cons_iff.1 hw
        have hreach' : g.IsReachable p := hreach.stepAll hp
        obtain ⟨v, a, hv, ha⟩ := hr
        have hlive : p ∈ g.live :=
          Graph.mem_live_iff.2 ⟨hreach', w ++ v, a, Graph.path_append_iff.2 ⟨r, hw, hv⟩, ha⟩
        have hpall := h.1 p (Graph.targets_of_mem_stepAll hp) hlive
        exact Nat.succ_lt_succ (ih h.2 hpall hreach' hw)
    · exact Nat.lt_succ_of_lt (ih h.2 hq hreach hw)

/-! ## The search from the initial state -/

theorem onTrail_enter (h : q ∈ live) : OnTrail g live [.enter g q] where
  trail := .singleton q
  live := List.forall_mem_cons.2 ⟨h, fun _ hf => absurd hf List.not_mem_nil⟩
  targets := List.forall_mem_cons.2 ⟨fun _ hp => hp, fun _ hf => absurd hf List.not_mem_nil⟩

theorem explored_enter (g : Graph) (live : List Nat) (q : Nat) : Explored g live [] [.enter g q] :=
  ⟨fun _ hp _ => .inl hp, trivial⟩

/-- All states of the arena can be left, and all its transitions followed, within the bound. -/
theorem work_enter_le (hq : q < g.size) (hlive : ∀ p ∈ live, p < g.size) :
    work g live [.enter g q] [] ≤ g.size + g.edgeCount := by
  have hnew : q ∉ fresh live [.enter g q] [] := by
    simp [fresh, Frame.enter]
  have hsub : insert q (fresh live [.enter g q] []) ⊆ Finset.range g.size := by
    refine Finset.insert_subset (Finset.mem_range.2 hq) fun p hp => ?_
    exact Finset.mem_range.2 (hlive p (List.mem_toFinset.1 (Finset.mem_sdiff.1 hp).1))
  have hall : ∑ p ∈ Finset.range g.size, cost g p = g.size + g.edgeCount := by
    simp only [cost, Finset.sum_add_distrib, Finset.sum_const, Finset.card_range,
      Graph.edgeCount_eq_sum, State.targets, List.length_map, Nat.nsmul_eq_mul, Nat.mul_one]
    omega
  calc work g live [.enter g q] []
      = ∑ p ∈ insert q (fresh live [.enter g q] []), cost g p := by
        rw [Finset.sum_insert hnew]
        simp only [work, List.map_cons, List.map_nil, List.sum_cons, List.sum_nil]
        rfl
    _ ≤ ∑ p ∈ Finset.range g.size, cost g p := Finset.sum_le_sum_of_subset hsub
    _ = g.size + g.edgeCount := hall

end Cycles

namespace Graph

open Cycles (Frame Ends)

variable {g : Graph}

theorem isFinite_eq (g : Graph) : g.isFinite = (!g.live.contains g.initial ||
    Cycles.acyclic g g.live (g.size + g.edgeCount + 1) [.enter g g.initial] []) := rfl

/-- The search for a cycle ends within its bound. -/
theorem ends_isFinite (hg : g.WellFormed) (hlive : g.IsLive g.initial) :
    Ends g g.live [.enter g g.initial] [] g.isFinite := by
  have hmem := mem_live_iff.2 hlive
  have hlt : ∀ p ∈ g.live, p < g.size := fun p hp => hg.lt_of_isReachable (mem_live_iff.1 hp).1
  rw [isFinite_eq, List.contains_iff_mem.2 hmem, Bool.not_true, Bool.false_or]
  exact Cycles.ends_acyclic _ _ _
    (Nat.le_succ_of_le (Cycles.work_enter_le hg.initial_lt hlt))

/-- All words are shorter than the list of settled states if the search finds no cycle. -/
theorem finite_of_isFinite (hg : g.WellFormed) (h : g.isFinite = true) :
    {w | g.Accepts w}.Finite := by
  by_cases hlive : g.IsLive g.initial
  · obtain ⟨all, hall, hmem⟩ :=
      (ends_isFinite hg hlive).exists_settled h trivial (Cycles.explored_enter g g.live g.initial)
    refine (List.finite_length_lt Char all.length).subset ?_
    rintro w ⟨r, hw, ha⟩
    exact hall.length_lt (hmem _ (.inr List.mem_cons_self)) g.isReachable_initial hw
      ⟨[], acceptsFrom_nil_iff.2 ha⟩
  · refine Set.finite_empty.subset fun w hw => hlive ?_
    exact ⟨g.isReachable_initial, w, hw⟩

theorem isFinite_of_acyclic (hg : g.WellFormed) (h : g.Acyclic) : g.isFinite = true := by
  by_cases hlive : g.IsLive g.initial
  · by_contra hfalse
    obtain ⟨q, hq, w, hne, hw⟩ := (ends_isFinite hg hlive).exists_cycle
      (Bool.eq_false_iff.2 hfalse) (Cycles.onTrail_enter (mem_live_iff.2 hlive))
    exact hne (h q w (mem_live_iff.1 hq) hw)
  · have hmem : g.live.contains g.initial = false := by
      rw [Bool.eq_false_iff]
      exact fun hc => hlive (mem_live_iff.1 (List.contains_iff_mem.1 hc))
    rw [isFinite_eq, hmem]
    rfl

end Graph

namespace Automaton

open RegLang.Graph (Acyclic)

variable {a : Automaton}

/-- The test for finiteness decides whether finitely many words are accepted: those of a graph
label the paths from the initial state to accepting ones.  What is tested is that no state that is
reachable and leads to acceptance is on a cycle, and the search for such a cycle ends. -/
theorem isFinite_spec (ha : a.WellFormed) :
    ∃ b, a.isFinite = .ok b ∧ (b = true ↔ {w | a.Accepts w}.Finite) ∧
      ∀ g, a = graph g → (b = true ↔ g.Acyclic) ∧
        (g.IsLive g.initial → ∀ b', Cycles.Ends g g.live [.enter g g.initial] [] b' ↔ b' = b) := by
  cases a with
  | singleton v =>
    refine ⟨true, rfl, iff_of_true rfl ?_, fun g h => by cases h⟩
    exact (Set.finite_singleton v).subset fun w hw => hw
  | graph g =>
    have hg : g.WellFormed := ha
    refine ⟨g.isFinite, ?_, ⟨Graph.finite_of_isFinite hg, fun hfin => ?_⟩, ?_⟩
    · rw [isFinite, hg.ensureIntact]
      rfl
    · exact Graph.isFinite_of_acyclic hg (Graph.acyclic_of_finite hfin)
    · intro h hgh
      cases hgh
      refine ⟨⟨fun h => ?_, Graph.isFinite_of_acyclic hg⟩, fun hlive b => ?_⟩
      · exact Graph.acyclic_of_finite (Graph.finite_of_isFinite hg h)
      · have hends := Graph.ends_isFinite hg hlive
        exact ⟨fun h => h.unique hends, fun h => h ▸ hends⟩

/-- A word behind which there is a loop without acceptance, and an accepting loop out of reach. -/
def sidetracked : Graph where
  states := #[{ transitions := [.single 'a' 1, .single 'b' 2] }, { accept := true },
    { transitions := [.onAny 2] }, { accept := true, transitions := [.onAny 3, .onAny 0] }]
  deterministic := false

theorem isFinite_spec_sidetracked : (graph sidetracked).WellFormed ∧
    (graph sidetracked).isFinite = .ok true ∧ {w | sidetracked.Accepts w}.Finite ∧
    sidetracked.Acyclic := by
  have hwf : (graph sidetracked).WellFormed := ⟨by decide, by decide⟩
  obtain ⟨b, hb, hfin, hgraph⟩ := isFinite_spec hwf
  have htrue : (graph sidetracked).isFinite = .ok true := by decide
  cases Except.ok.inj (hb.symm.trans htrue)
  exact ⟨hwf, htrue, hfin.1 rfl, (hgraph _ rfl).1.1 rfl⟩

end Automaton

end RegLang
