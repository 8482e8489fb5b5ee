import Mathlib.Data.List.Induction
import Mathlib.Data.List.ProdSigma
import Mathlib.Data.List.Perm.Subperm
import Mathlib.Logic.Relation
import RegLang.EpsilonClosure
import RegLang.Proofs.Letters
/-!
# The closure of a list of edges

The queue of `epsilonClosure` prolongs edges until nothing is new.  What it finds are chains of the
edges given, and as long as two known edges are not prolonged to one, the first of them waits.  So
at the end of the queue every chain is there.  The queue ends, because there are no more chains than
pairs of a first and a last state, and each new one lets few edges wait.

    (a, b) ∈ epsilonClosure pairs ↔ EdgeChain pairs a b                    (mem_epsilonClosure)

* `Progress.Prolonging.learn`: what one new edge does.
* `Progress.Closing.chain`: what one examination does.
* `Progress.Closing.finishes`: the queue ends, and within the bound that `epsilonClosure` gives it.
* `epsilonClosure_spec`: the distinct edges given come first, and no edge is listed twice.
-/

namespace RegLang

/-- One or more edges of the list lead one after the other from the first state to the second. -/
abbrev EdgeChain (pairs : List StatePair) : Nat → Nat → Prop :=
  Relation.TransGen fun a b => (a, b) ∈ pairs

namespace EpsilonClosure

/-- The loop over the edges that wait, with no bound on its rounds: once nothing waits any more, it
ends with the edges known by then. -/
inductive Progress.Finishes : Progress → List StatePair → Prop
  | done {all : List StatePair} : Finishes ⟨all, []⟩ all
  | examine {all rest closed : List StatePair} {a b : Nat}
      (h : Finishes (chain ⟨all, rest⟩ a b) closed) : Finishes ⟨all, (a, b) :: rest⟩ closed

variable {pairs known waiting closed : List StatePair} {into cs : List Nat} {a b c q : Nat}
  {s : Progress}

/-! ## Edges from a state and to it -/

theorem mem_successors : c ∈ successors known q ↔ (q, c) ∈ known := by
  simp [successors]

theorem mem_predecessors : a ∈ predecessors known q ↔ (a, q) ∈ known := by
  simp [predecessors]

theorem nodup_predecessors (known : List StatePair) (q : Nat) : (predecessors known q).Nodup :=
  (SortedList.pairwise_ofList (fun _ _ _ => Nat.lt_trans) (fun _ _ hne hlt => by omega) _).imp
    Nat.ne_of_lt

/-! ## The queue -/

theorem enqueue_of_mem {p : StatePair} (h : p ∈ waiting) : enqueue waiting p = waiting :=
  if_pos (List.contains_iff_mem.2 h)

theorem enqueue_of_notMem {p : StatePair} (h : p ∉ waiting) : enqueue waiting p = waiting ++ [p] :=
  if_neg fun hc => h (List.contains_iff_mem.1 hc)

theorem mem_enqueue {p x : StatePair} : x ∈ enqueue waiting p ↔ x ∈ waiting ∨ x = p := by
  by_cases hp : p ∈ waiting
  · rw [enqueue_of_mem hp]
    exact ⟨.inl, fun h => h.elim id fun he => he ▸ hp⟩
  · rw [enqueue_of_notMem hp, List.mem_append, List.mem_singleton]

theorem nodup_enqueue (p : StatePair) (h : waiting.Nodup) : (enqueue waiting p).Nodup := by
  by_cases hp : p ∈ waiting
  · rwa [enqueue_of_mem hp]
  · rw [enqueue_of_notMem hp]
    exact List.nodup_append.2 ⟨h, List.pairwise_singleton _ _, fun x hx y hy hxy =>
      hp (List.mem_singleton.1 hy ▸ hxy ▸ hx)⟩

theorem length_enqueue_le (waiting : List StatePair) (p : StatePair) :
    (enqueue waiting p).length ≤ waiting.length + 1 := by
  unfold enqueue
  split <;> simp

theorem mem_foldl_enqueue {ps : List StatePair} {x : StatePair} :
    x ∈ ps.foldl enqueue waiting ↔ x ∈ waiting ∨ x ∈ ps := by
  induction ps generalizing waiting with
  | nil => simp
  | cons p ps ih => rw [List.foldl_cons, ih, mem_enqueue, List.mem_cons, or_assoc]

theorem length_foldl_enqueue_le (ps waiting : List StatePair) :
    (ps.foldl enqueue waiting).length ≤ waiting.length + ps.length := by
  induction ps generalizing waiting with
  | nil => exact Nat.le_refl _
  | cons p ps ih =>
    have hone := length_enqueue_le waiting p
    have hle := ih (enqueue waiting p)
    rw [List.foldl_cons, List.length_cons]
    omega

/-- The edges of a list, once each, in the order in which they are first met. -/
def distinct (pairs : List StatePair) : List StatePair := pairs.foldl enqueue []

theorem mem_distinct {p : StatePair} : p ∈ distinct pairs ↔ p ∈ pairs :=
  mem_foldl_enqueue.trans (or_iff_right List.not_mem_nil)

theorem nodup_distinct (pairs : List StatePair) : (distinct pairs).Nodup := by
  have aux : ∀ ps waiting : List StatePair, waiting.Nodup → (ps.foldl enqueue waiting).Nodup := by
    intro ps
    induction ps with
    | nil => exact fun _ h => h
    | cons p ps ih => exact fun _ h => ih _ (nodup_enqueue p h)
  exact aux pairs [] List.nodup_nil

theorem distinct_eq_eraseDups (pairs : List StatePair) : distinct pairs = pairs.eraseDups := by
  induction pairs using List.reverseRecOn with
  | nil => rfl
  | append_singleton ps p ih =>
    have hlast : distinct (ps ++ [p]) = enqueue (distinct ps) p := List.foldl_concat _ _ _ _
    rw [hlast, List.eraseDups_append, ← ih]
    by_cases hp : p ∈ ps
    · rw [enqueue_of_mem (mem_distinct.2 hp)]
      simp [List.removeAll, hp]
    · rw [enqueue_of_notMem fun h => hp (mem_distinct.1 h)]
      simp [List.removeAll, hp, List.eraseDups_cons]

theorem learn_of_mem (h : (a, c) ∈ s.known) : learn a into s c = s :=
  if_pos (List.contains_iff_mem.2 h)

theorem learn_of_notMem (h : (a, c) ∉ s.known) : learn a into s c =
    ⟨enqueue s.known (a, c), (into.map (·, a)).foldl enqueue (enqueue s.waiting (a, c))⟩ := by
  rw [enqueue_of_notMem h]
  exact if_neg fun hc => h (List.contains_iff_mem.1 hc)

namespace Progress

/-! ## What is known at any time -/

/-- The edges given come first, all known edges are chains of them, and what waits is known. -/
structure Sound (pairs : List StatePair) (s : Progress) : Prop where
  nodup : s.known.Nodup
  front : distinct pairs <+: s.known
  chained : ∀ a b, (a, b) ∈ s.known → EdgeChain pairs a b
  waiting_known : s.waiting ⊆ s.known

/-- A known edge leaves where an edge given does. -/
theorem Sound.first_mem (h : s.Sound pairs) (hab : (a, b) ∈ s.known) :
    a ∈ (distinct pairs).map (·.1) := by
  obtain ⟨x, hx, -⟩ := Relation.TransGen.head'_iff.1 (h.chained a b hab)
  exact List.mem_map.2 ⟨(a, x), mem_distinct.2 hx, rfl⟩

/-- A known edge ends where an edge given does. -/
theorem Sound.second_mem (h : s.Sound pairs) (hab : (a, b) ∈ s.known) :
    b ∈ (distinct pairs).map (·.2) := by
  obtain ⟨x, -, hx⟩ := Relation.TransGen.tail'_iff.1 (h.chained a b hab)
  exact List.mem_map.2 ⟨(x, b), mem_distinct.2 hx, rfl⟩

theorem Sound.length_known_le (h : s.Sound pairs) :
    s.known.length ≤ (distinct pairs).length * (distinct pairs).length := by
  have hsub : s.known ⊆ ((distinct pairs).map (·.1)) ×ˢ ((distinct pairs).map (·.2)) :=
    fun _ hab => List.mem_product.2 ⟨h.first_mem hab, h.second_mem hab⟩
  have hle := (h.nodup.subperm hsub).length_le
  rwa [List.length_product, List.length_map, List.length_map] at hle

theorem Sound.length_predecessors_le (h : s.Sound pairs) (q : Nat) :
    (predecessors s.known q).length ≤ (distinct pairs).length := by
  have hsub : predecessors s.known q ⊆ (distinct pairs).map (·.1) := fun _ ha =>
    h.first_mem (mem_predecessors.1 ha)
  have hle := ((nodup_predecessors s.known q).subperm hsub).length_le
  rwa [List.length_map] at hle

/-- Two edges in a row are prolonged to one, or the first of them waits. -/
structure Closing (pairs : List StatePair) (s : Progress) : Prop extends Sound pairs s where
  closed : ∀ x y z, (x, y) ∈ s.known → (y, z) ∈ s.known →
    (x, z) ∈ s.known ∨ (x, y) ∈ s.waiting

/-- While the edge from `a` to `b` is prolonged, only edges from `a` to `cs` may be missing, and
the edges to `a` come from `into` or wait. -/
structure Prolonging (pairs : List StatePair) (a b : Nat) (into cs : List Nat) (s : Progress) :
    Prop extends Sound pairs s where
  closed : ∀ x y z, (x, y) ∈ s.known → (y, z) ∈ s.known →
    (x, z) ∈ s.known ∨ (x, y) ∈ s.waiting ∨ ((x, y) = (a, b) ∧ z ∈ cs)
  into_known : ∀ x ∈ into, (x, a) ∈ s.known
  mem_into : ∀ x, (x, a) ∈ s.known → x ∈ into ∨ (x, a) ∈ s.waiting
  chains : ∀ c ∈ cs, EdgeChain pairs a c

/-! ## One new edge -/

/-- A new edge waits, and so do the edges that lead to it. -/
theorem mem_waiting_learn (hc : (a, c) ∉ s.known) {x : StatePair} :
    x ∈ (learn a into s c).waiting ↔ x ∈ s.waiting ∨ x = (a, c) ∨ ∃ i ∈ into, (i, a) = x := by
  rw [learn_of_notMem hc, mem_foldl_enqueue, mem_enqueue, List.mem_map, or_assoc]

theorem mem_known_learn {x : StatePair} :
    x ∈ (learn a into s c).known ↔ x ∈ s.known ∨ x = (a, c) := by
  by_cases hc : (a, c) ∈ s.known
  · rw [learn_of_mem hc]
    exact ⟨.inl, fun h => h.elim id fun he => he ▸ hc⟩
  · rw [learn_of_notMem hc, mem_enqueue]

theorem Sound.learn (h : s.Sound pairs) (hinto : ∀ x ∈ into, (x, a) ∈ s.known)
    (hac : EdgeChain pairs a c) : (learn a into s c).Sound pairs := by
  by_cases hc : (a, c) ∈ s.known
  · rwa [learn_of_mem hc]
  refine ⟨?_, ?_, fun x y hxy => ?_, fun x hx => mem_known_learn.2 ?_⟩
  · rw [learn_of_notMem hc]
    exact nodup_enqueue _ h.nodup
  · rw [learn_of_notMem hc, enqueue_of_notMem hc]
    exact h.front.trans (List.prefix_append _ _)
  · rcases mem_known_learn.1 hxy with hxy | hxy
    · exact h.chained x y hxy
    · cases hxy
      exact hac
  · obtain hx | rfl | ⟨i, hi, rfl⟩ := (mem_waiting_learn hc).1 hx
    · exact .inl (h.waiting_known hx)
    · exact .inr rfl
    · exact .inl (hinto i hi)

theorem Prolonging.learn (h : s.Prolonging pairs a b into (c :: cs)) :
    (learn a into s c).Prolonging pairs a b into cs := by
  obtain ⟨hac, hchains⟩ := List.forall_mem_cons.1 h.chains
  have hsound := h.toSound.learn h.into_known hac
  -- what was missing only for the lack of an edge to `c` is there
  have hless : ∀ x y z, (x, y) = (a, b) → z ∈ c :: cs →
      (x, z) ∈ (EpsilonClosure.learn a into s c).known ∨ z ∈ cs := by
    intro x y z heq hz
    rcases List.mem_cons.1 hz with rfl | hz
    · cases heq
      exact .inl (mem_known_learn.2 (.inr rfl))
    · exact .inr hz
  by_cases hc : (a, c) ∈ s.known
  · rw [learn_of_mem hc] at hless ⊢
    refine { h with closed := fun x y z hxy hyz => ?_, chains := hchains }
    obtain hz | hw | ⟨heq, hz⟩ := h.closed x y z hxy hyz
    · exact .inl hz
    · exact .inr (.inl hw)
    · exact (hless x y z heq hz).imp_right fun hz => .inr ⟨heq, hz⟩
  refine ⟨hsound, fun x y z hxy hyz => ?_, fun x hx => ?_, fun x hx => ?_, hchains⟩
  · rcases mem_known_learn.1 hxy with hxy | hxy
    · rcases mem_known_learn.1 hyz with hyz | hyz
      · obtain hz | hw | ⟨heq, hz⟩ := h.closed x y z hxy hyz
        · exact .inl (mem_known_learn.2 (.inl hz))
        · exact .inr (.inl ((mem_waiting_learn hc).2 (.inl hw)))
        · exact (hless x y z heq hz).imp_right fun hz => .inr ⟨heq, hz⟩
      · -- an edge that the new one prolongs is among those that lead to `a`
        cases hyz
        refine .inr (.inl ((mem_waiting_learn hc).2 ?_))
        rcases h.mem_into x hxy with hi | hw
        · exact .inr (.inr ⟨x, hi, rfl⟩)
        · exact .inl hw
    · exact .inr (.inl ((mem_waiting_learn hc).2 (.inr (.inl hxy))))
  · exact mem_known_learn.2 (.inl (h.into_known x hx))
  · rcases mem_known_learn.1 hx with hx | hx
    · exact (h.mem_into x hx).imp_right fun hw => (mem_waiting_learn hc).2 (.inl hw)
    · exact .inr ((mem_waiting_learn hc).2 (.inr (.inl hx)))

/-- What is left to be examined in the worst case: the edges that wait, and as many for every edge
that may still be found as it lets wait. -/
def cost (pairs : List StatePair) (s : Progress) : Nat :=
  s.waiting.length + ((distinct pairs).length * (distinct pairs).length - s.known.length) *
    ((distinct pairs).length + 1)

/-- A new edge is paid for by what it lets wait. -/
theorem Prolonging.cost_learn_le (h : s.Prolonging pairs a b into (c :: cs))
    (hinto : into.length ≤ (distinct pairs).length) :
    (EpsilonClosure.learn a into s c).cost pairs ≤ s.cost pairs := by
  have hroom := h.learn.length_known_le
  by_cases hc : (a, c) ∈ s.known
  · exact Nat.le_of_eq (congrArg (cost pairs) (learn_of_mem hc))
  rw [learn_of_notMem hc] at hroom ⊢
  unfold cost
  dsimp only at hroom ⊢
  rw [enqueue_of_notMem hc, List.length_append, List.length_singleton] at hroom ⊢
  have hlet := length_foldl_enqueue_le (into.map (·, a)) (enqueue s.waiting (a, c))
  have hone := length_enqueue_le s.waiting (a, c)
  rw [List.length_map] at hlet
  have hleft : ∀ n k, k + 1 ≤ n * n →
      (n * n - k) * (n + 1) = (n * n - (k + 1)) * (n + 1) + (n + 1) := fun n k hk => by
    obtain ⟨d, hd⟩ := Nat.exists_eq_add_of_le hk
    rw [← Nat.succ_mul]
    congr 1
    omega
  rw [hleft _ _ hroom]
  omega

/-! ## One examination -/

theorem Prolonging.foldl_learn {cs : List Nat} (h : s.Prolonging pairs a b into cs)
    (hinto : into.length ≤ (distinct pairs).length) :
    (cs.foldl (EpsilonClosure.learn a into) s).Prolonging pairs a b into [] ∧
      (cs.foldl (EpsilonClosure.learn a into) s).cost pairs ≤ s.cost pairs := by
  induction cs generalizing s with
  | nil => exact ⟨h, Nat.le_refl _⟩
  | cons c cs ih =>
    obtain ⟨hlast, hcost⟩ := ih h.learn
    exact ⟨hlast, Nat.le_trans hcost (h.cost_learn_le hinto)⟩

/-- Examining the first edge that waits prolongs it and costs one step. -/
theorem Closing.chain (h : Closing pairs ⟨known, (a, b) :: waiting⟩) :
    Closing pairs (chain ⟨known, waiting⟩ a b) ∧
      (chain ⟨known, waiting⟩ a b).cost pairs < cost pairs ⟨known, (a, b) :: waiting⟩ := by
  have hab : EdgeChain pairs a b := h.chained a b (h.waiting_known List.mem_cons_self)
  have hstart : Prolonging pairs a b (predecessors known a) (successors known b)
      ⟨known, waiting⟩ := by
    refine ⟨⟨h.nodup, h.front, h.chained, fun _ hx => h.waiting_known (List.mem_cons_of_mem _ hx)⟩,
      fun x y z hxy hyz => ?_, fun x hx => mem_predecessors.1 hx,
      fun x hx => .inl (mem_predecessors.2 hx),
      fun c hc => hab.trans (h.chained b c (mem_successors.1 hc))⟩
    rcases h.closed x y z hxy hyz with hz | hw
    · exact .inl hz
    · rcases List.mem_cons.1 hw with heq | hw
      · cases heq
        exact .inr (.inr ⟨rfl, mem_successors.2 hyz⟩)
      · exact .inr (.inl hw)
  obtain ⟨hlast, hcost⟩ := hstart.foldl_learn (h.length_predecessors_le a)
  refine ⟨⟨hlast.toSound, fun x y z hxy hyz => ?_⟩, Nat.lt_of_le_of_lt hcost ?_⟩
  · obtain hz | hw | ⟨-, hz⟩ := hlast.closed x y z hxy hyz
    · exact .inl hz
    · exact .inr hw
    · cases hz
  · exact Nat.add_lt_add_right (Nat.lt_succ_self _) _

/-! ## The whole queue -/

theorem Finishes.unique (h : s.Finishes known) (h' : s.Finishes closed) : known = closed := by
  induction h with
  | done =>
    cases h'
    rfl
  | examine _ ih =>
    cases h' with
    | examine h' => exact ih h'

/-- What holds before the loop holds when it ends, with nothing left to wait. -/
theorem Finishes.closing (h : s.Finishes closed) (hs : s.Closing pairs) :
    Closing pairs ⟨closed, []⟩ := by
  induction h with
  | done => exact hs
  | examine _ ih => exact ih hs.chain.1

/-- As many rounds as the queue may cost are enough for the loop to end. -/
theorem Closing.finishes {fuel : Nat} (h : s.Closing pairs) (hf : s.cost pairs ≤ fuel) :
    s.Finishes (close fuel s) := by
  induction fuel generalizing s with
  | zero =>
    obtain ⟨known, waiting⟩ := s
    have hnil : waiting.length ≤ 0 := Nat.le_trans (Nat.le_add_right _ _) hf
    rw [List.eq_nil_of_length_eq_zero (Nat.le_zero.1 hnil)]
    exact .done
  | succ fuel ih =>
    obtain ⟨known, _ | ⟨⟨a, b⟩, waiting⟩⟩ := s
    · exact .done
    · obtain ⟨hnext, hcost⟩ := h.chain
      exact .examine (ih hnext (Nat.le_of_lt_succ (Nat.lt_of_lt_of_le hcost hf)))

/-- At first all edges wait. -/
theorem closing_start (pairs : List StatePair) :
    Closing pairs ⟨distinct pairs, distinct pairs⟩ where
  nodup := nodup_distinct pairs
  front := List.prefix_refl _
  chained _ _ hab := .single (mem_distinct.1 hab)
  waiting_known := List.Subset.refl _
  closed _ _ _ hxy _ := .inr hxy

theorem cost_start_le (pairs : List StatePair) :
    cost pairs ⟨distinct pairs, distinct pairs⟩ ≤ bound (distinct pairs).length := by
  unfold cost bound
  dsimp only
  generalize (distinct pairs).length = n
  refine Nat.add_le_add_left (Nat.mul_le_mul ?_ (by omega)) n
  have hfour : n * n ≤ 4 * n * n := Nat.mul_le_mul_right n (by omega)
  omega

end Progress

end EpsilonClosure

/-! ## The closure -/

open EpsilonClosure EpsilonClosure.Progress

variable {pairs : List StatePair} {a b : Nat}

/-- The loop ends with the closure when all edges wait at first. -/
theorem finishes_epsilonClosure (pairs : List StatePair) :
    Finishes ⟨distinct pairs, distinct pairs⟩ (epsilonClosure pairs) :=
  (closing_start pairs).finishes (cost_start_le pairs)

/-- At the end of the queue nothing waits. -/
theorem closing_epsilonClosure (pairs : List StatePair) :
    Closing pairs ⟨epsilonClosure pairs, []⟩ :=
  (finishes_epsilonClosure pairs).closing (closing_start pairs)

/-- The closure lists the chains of the edges given, and nothing else. -/
theorem mem_epsilonClosure : (a, b) ∈ epsilonClosure pairs ↔ EdgeChain pairs a b := by
  have hclosing := closing_epsilonClosure pairs
  refine ⟨hclosing.chained a b, fun h => ?_⟩
  have hgiven : ∀ x y, (x, y) ∈ pairs → (x, y) ∈ epsilonClosure pairs := fun x y hxy =>
    hclosing.front.subset (mem_distinct.2 hxy)
  induction h with
  | single hab => exact hgiven _ _ hab
  | tail _ hbc ih =>
    exact (hclosing.closed _ _ _ ih (hgiven _ _ hbc)).resolve_right List.not_mem_nil

/-- The closure lists every chain of the edges given once, and nothing else; it begins with these
edges themselves, each where it is met first.  The loop that lists them ends for every list of edges,
and with nothing but the closure. -/
theorem epsilonClosure_spec (pairs : List StatePair) :
    (epsilonClosure pairs).Nodup ∧ (∀ a b, (a, b) ∈ epsilonClosure pairs ↔ EdgeChain pairs a b) ∧
      pairs.eraseDups <+: epsilonClosure pairs ∧
      ∀ closed, Finishes ⟨pairs.eraseDups, pairs.eraseDups⟩ closed ↔
        closed = epsilonClosure pairs := by
  have hclosing := closing_epsilonClosure pairs
  have hfinishes := finishes_epsilonClosure pairs
  have hfront := hclosing.front
  rw [distinct_eq_eraseDups] at hfinishes hfront
  refine ⟨hclosing.nodup, fun a b => mem_epsilonClosure, hfront, fun closed => ⟨?_, ?_⟩⟩
  · intro h
    exact h.unique hfinishes
  · rintro rfl
    exact hfinishes

end RegLang
