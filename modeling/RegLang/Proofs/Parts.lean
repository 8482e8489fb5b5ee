import RegLang.Proofs.CheckedOperations
import RegLang.Proofs.Simulation
/-!
# Words in parts

A concatenation accepts the words that can be cut into parts, one for each operand in order.  A
repetition accepts those that can be cut into parts of one automaton, as many as the bounds allow;
a star allows any number of parts.

    w ∈ ls.prod ↔ ∃ vs, vs.flatten = w ∧ Forall₂ (fun l v => v ∈ l) ls vs        (mem_prod_iff)

* `concatenate_spec`: the parts of a word of a concatenation.
* `repeated_spec`: the parts of a word of a repetition.
* `star_spec`: the parts of a word of a star, and of a repetition without an upper bound.
-/

namespace RegLang

open Computability

/-! ## Languages -/

section Languages

variable {l : Language Char} {ls : List (Language Char)} {w : Word} {lo hi n : Nat}

/-- A word of a product is cut into one part of each factor. -/
theorem mem_prod_iff : w ∈ ls.prod ↔
    ∃ vs : List Word, vs.flatten = w ∧ List.Forall₂ (fun l v => v ∈ l) ls vs := by
  induction ls generalizing w with
  | nil =>
    rw [List.prod_nil, Language.mem_one]
    constructor
    · rintro rfl
      exact ⟨[], rfl, .nil⟩
    · rintro ⟨vs, rfl, ⟨⟩⟩
      rfl
  | cons l ls ih =>
    rw [List.prod_cons, Language.mem_mul]
    constructor
    · rintro ⟨v, hv, u, hu, rfl⟩
      obtain ⟨vs, rfl, hvs⟩ := ih.1 hu
      exact ⟨v :: vs, List.flatten_cons, .cons hv hvs⟩
    · rintro ⟨vs, rfl, hvs⟩
      cases hvs with
      | cons hv hvs => exact ⟨_, hv, _, ih.2 ⟨_, rfl, hvs⟩, List.flatten_cons.symm⟩

/-- A word of the powers between two bounds is cut into as many parts as the bounds allow. -/
theorem mem_powersBetween_iff : w ∈ powersBetween l lo hi ↔
    ∃ vs : List Word, lo ≤ vs.length ∧ vs.length ≤ hi ∧ vs.flatten = w ∧ ∀ v ∈ vs, v ∈ l := by
  rw [mem_powersBetween]
  constructor
  · rintro ⟨n, hlo, hhi, hw⟩
    obtain ⟨vs, rfl, rfl, hvs⟩ := Language.mem_pow.1 hw
    exact ⟨vs, hlo, hhi, rfl, hvs⟩
  · rintro ⟨vs, hlo, hhi, rfl, hvs⟩
    exact ⟨vs.length, hlo, hhi, Language.mem_pow.2 ⟨vs, rfl, rfl, hvs⟩⟩

/-- A word of a power followed by a star is cut into as many parts as the power demands, or more. -/
theorem mem_pow_mul_kstar_iff : w ∈ l ^ n * l∗ ↔
    ∃ vs : List Word, n ≤ vs.length ∧ vs.flatten = w ∧ ∀ v ∈ vs, v ∈ l := by
  rw [Language.mem_mul]
  constructor
  · rintro ⟨u, hu, v, hv, rfl⟩
    obtain ⟨us, rfl, rfl, hus⟩ := Language.mem_pow.1 hu
    obtain ⟨vs, rfl, hvs⟩ := Language.mem_kstar.1 hv
    refine ⟨us ++ vs, ?_, List.flatten_append, fun v hv => ?_⟩
    · rw [List.length_append]
      exact Nat.le_add_right _ _
    · exact (List.mem_append.1 hv).elim (hus v) (hvs v)
  · rintro ⟨vs, hn, rfl, hvs⟩
    have hfirst : (vs.take n).flatten ∈ l ^ n :=
      Language.mem_pow.2 ⟨vs.take n, rfl, List.length_take_of_le hn,
        fun v hv => hvs v (List.mem_of_mem_take hv)⟩
    have hrest : (vs.drop n).flatten ∈ l∗ :=
      Language.join_mem_kstar fun v hv => hvs v (List.mem_of_mem_drop hv)
    refine ⟨_, hfirst, _, hrest, ?_⟩
    rw [← List.flatten_append, List.take_append_drop]

theorem mem_kstar_iff : w ∈ l∗ ↔ ∃ vs : List Word, vs.flatten = w ∧ ∀ v ∈ vs, v ∈ l := by
  rw [Language.mem_kstar]
  simp only [eq_comm]

end Languages

namespace Automaton

variable {a : Automaton} {as : List Automaton} {w : Word}

/-! ## Concatenation -/

/-- Runs of proper automata, each on its part, accept what paths accept. -/
theorem forall₂_run_iff (has : ∀ a ∈ as, a.Proper) {vs : List Word} :
    List.Forall₂ (fun a v => a.run v = .ok true) as vs ↔ List.Forall₂ Accepts as vs := by
  induction as generalizing vs with
  | nil => rw [List.forall₂_nil_left_iff, List.forall₂_nil_left_iff]
  | cons a as ih =>
    rw [List.forall₂_cons_left_iff, List.forall₂_cons_left_iff]
    simp only [(has a List.mem_cons_self).run_eq_true_iff,
      ih fun b hb => has b (List.mem_cons_of_mem a hb)]

/-- The concatenation of any automata accepts the words that can be cut into parts, one accepted by
each of them in order; of none, the empty word alone.  No check fails on the way, and runs answer
so. -/
theorem concatenate_spec (has : ∀ a ∈ as, a.WellFormed ∧ a.Truthful) :
    ∃ c, concatenate as = .ok c ∧ Checked.concatenate as = .ok c ∧ c.WellFormed ∧ c.Truthful ∧
      (∀ w, c.Accepts w ↔ ∃ vs : List Word, vs.flatten = w ∧ List.Forall₂ Accepts as vs) ∧
      (∀ w, ∃ r, c.run w = .ok r ∧ (r = true ↔ ∃ vs : List Word, vs.flatten = w ∧
        List.Forall₂ (fun a v => a.run v = .ok true) as vs)) ∧
      (as = [] → ∀ w, c.Accepts w ↔ w = []) := by
  have hproper : ∀ a ∈ as, a.Proper := fun a ha => ⟨(has a ha).1, (has a ha).2⟩
  obtain ⟨c, hc, hpc, hl⟩ := computes_concatenate hproper
  have haccepts : ∀ w, c.Accepts w ↔
      ∃ vs : List Word, vs.flatten = w ∧ List.Forall₂ Accepts as vs := by
    intro w
    rw [← mem_language, hl, mem_prod_iff]
    simp only [List.forall₂_map_left_iff, mem_language]
  refine ⟨c, hc, (Checked.concatenate_eq hproper).trans hc, hpc.wellFormed, hpc.truthful, haccepts,
    fun w => ?_, ?_⟩
  · obtain ⟨r, hr, hiff⟩ := run_spec hpc.wellFormed hpc.truthful w
    refine ⟨r, hr, hiff.trans ?_⟩
    simp only [forall₂_run_iff hproper, haccepts]
  · rintro rfl w
    rw [← mem_language, hl]
    exact Language.mem_one w

/-- A graph with overlaps, a word, the empty word, and a graph with a state out of reach. -/
theorem concatenate_spec_mixed :
    (∀ a ∈ [graph forked, singleton ['b'], emptyWord, graph lopsided],
      a.WellFormed ∧ a.Truthful) ∧
    ∃ c, concatenate [graph forked, singleton ['b'], emptyWord, graph lopsided] = .ok c ∧
      ∀ w, c.Accepts w ↔ ∃ vs : List Word, vs.flatten = w ∧
        List.Forall₂ Accepts [graph forked, singleton ['b'], emptyWord, graph lopsided] vs := by
  have has : ∀ a ∈ [graph forked, singleton ['b'], emptyWord, graph lopsided],
      a.WellFormed ∧ a.Truthful := by
    simp only [List.forall_mem_cons]
    exact ⟨⟨wellFormed_forked, truthful_forked⟩, ⟨trivial, trivial⟩, ⟨trivial, trivial⟩,
      ⟨wellFormed_lopsided, truthful_lopsided⟩, fun _ h => absurd h List.not_mem_nil⟩
  obtain ⟨c, hc, _, _, _, haccepts, _⟩ := concatenate_spec has
  exact ⟨has, c, hc, haccepts⟩

/-! ## Repetition -/

/-- A repetition accepts the words that can be cut into parts that the automaton accepts, as many as
the bounds allow: none at all if the bounds are reversed, and the empty word alone if both are `0`.
No check fails on the way, and runs answer so. -/
theorem repeated_spec (ha : a.WellFormed) (ht : a.Truthful) (lo hi : Nat) :
    ∃ c, a.repeated lo hi = .ok c ∧ Checked.repeated a lo hi = .ok c ∧
      c.WellFormed ∧ c.Truthful ∧
      (∀ w, c.Accepts w ↔ ∃ vs : List Word, lo ≤ vs.length ∧ vs.length ≤ hi ∧ vs.flatten = w ∧
        ∀ v ∈ vs, a.Accepts v) ∧
      (∀ w, ∃ r, c.run w = .ok r ∧ (r = true ↔ ∃ vs : List Word, lo ≤ vs.length ∧
        vs.length ≤ hi ∧ vs.flatten = w ∧ ∀ v ∈ vs, a.run v = .ok true)) ∧
      (hi < lo → ∀ w, ¬ c.Accepts w) ∧ (hi = 0 → ∀ w, c.Accepts w ↔ lo = 0 ∧ w = []) := by
  have hpa : a.Proper := ⟨ha, ht⟩
  obtain ⟨c, hc, hpc, hl⟩ := computes_repeated hpa lo hi
  have haccepts : ∀ w, c.Accepts w ↔ ∃ vs : List Word, lo ≤ vs.length ∧ vs.length ≤ hi ∧
      vs.flatten = w ∧ ∀ v ∈ vs, a.Accepts v := by
    intro w
    rw [← mem_language, hl, mem_powersBetween_iff]
    exact Iff.rfl
  refine ⟨c, hc, (Checked.repeated_eq hpa lo hi).trans hc, hpc.wellFormed, hpc.truthful, haccepts,
    fun w => ?_, fun hlt w => ?_, ?_⟩
  · obtain ⟨r, hr, hiff⟩ := run_spec hpc.wellFormed hpc.truthful w
    refine ⟨r, hr, hiff.trans ?_⟩
    simp only [hpa.run_eq_true_iff, haccepts]
  · rw [haccepts]
    rintro ⟨vs, hlo, hhi, -⟩
    omega
  · rintro rfl w
    rw [haccepts]
    constructor
    · rintro ⟨vs, hlo, hhi, rfl, -⟩
      obtain rfl := List.length_eq_zero_iff.1 (Nat.le_zero.1 hhi)
      exact ⟨Nat.le_zero.1 hlo, rfl⟩
    · rintro ⟨rfl, rfl⟩
      exact ⟨[], Nat.le_refl 0, Nat.le_refl 0, rfl, fun _ hv => absurd hv List.not_mem_nil⟩

theorem repeated_spec_forked : (graph forked).WellFormed ∧ (graph forked).Truthful ∧
    ∃ c, (graph forked).repeated 1 3 = .ok c ∧
      ∀ w, c.Accepts w ↔ ∃ vs : List Word, 1 ≤ vs.length ∧ vs.length ≤ 3 ∧ vs.flatten = w ∧
        ∀ v ∈ vs, forked.Accepts v := by
  obtain ⟨c, hc, _, _, _, haccepts, _⟩ :=
    repeated_spec (a := graph forked) wellFormed_forked truthful_forked 1 3
  exact ⟨wellFormed_forked, truthful_forked, c, hc, haccepts⟩

/-! ## Star -/

/-- A star accepts the words that can be cut into any number of parts that the automaton accepts,
and a repetition with a lower bound alone those that can be cut into so many parts or more.  No
check fails on the way, and runs answer so. -/
theorem star_spec (ha : a.WellFormed) (ht : a.Truthful) (n : Nat) :
    (∃ c, a.star = .ok c ∧ Checked.star a = .ok c ∧ c.WellFormed ∧ c.Truthful ∧
      (∀ w, c.Accepts w ↔ ∃ vs : List Word, vs.flatten = w ∧ ∀ v ∈ vs, a.Accepts v) ∧
      ∀ w, ∃ r, c.run w = .ok r ∧
        (r = true ↔ ∃ vs : List Word, vs.flatten = w ∧ ∀ v ∈ vs, a.run v = .ok true)) ∧
    ∃ c, a.atLeast n = .ok c ∧ Checked.atLeast a n = .ok c ∧ c.WellFormed ∧ c.Truthful ∧
      (∀ w, c.Accepts w ↔
        ∃ vs : List Word, n ≤ vs.length ∧ vs.flatten = w ∧ ∀ v ∈ vs, a.Accepts v) ∧
      ∀ w, ∃ r, c.run w = .ok r ∧ (r = true ↔
        ∃ vs : List Word, n ≤ vs.length ∧ vs.flatten = w ∧ ∀ v ∈ vs, a.run v = .ok true) := by
  have hpa : a.Proper := ⟨ha, ht⟩
  constructor
  · obtain ⟨c, hc, hspec⟩ := (computes_star hpa).answers (fun w => mem_kstar_iff)
      (Q := fun w => ∃ vs : List Word, vs.flatten = w ∧ ∀ v ∈ vs, a.run v = .ok true)
      fun w => by simp only [hpa.run_eq_true_iff, mem_language]
    exact ⟨c, hc, (Checked.star_eq hpa).trans hc, hspec⟩
  · obtain ⟨c, hc, hspec⟩ := (computes_atLeast hpa n).answers (fun w => mem_pow_mul_kstar_iff)
      (Q := fun w =>
        ∃ vs : List Word, n ≤ vs.length ∧ vs.flatten = w ∧ ∀ v ∈ vs, a.run v = .ok true)
      fun w => by simp only [hpa.run_eq_true_iff, mem_language]
    exact ⟨c, hc, (Checked.atLeast_eq hpa n).trans hc, hspec⟩

/-- The initial state of the automaton has a loop. -/
theorem star_spec_forked : (graph forked).WellFormed ∧ (graph forked).Truthful ∧
    (∃ c, (graph forked).star = .ok c ∧
      ∀ w, c.Accepts w ↔ ∃ vs : List Word, vs.flatten = w ∧ ∀ v ∈ vs, forked.Accepts v) ∧
    ∃ c, (graph forked).atLeast 2 = .ok c ∧ ∀ w, c.Accepts w ↔
      ∃ vs : List Word, 2 ≤ vs.length ∧ vs.flatten = w ∧ ∀ v ∈ vs, forked.Accepts v := by
  obtain ⟨⟨c, hc, _, _, _, hstar, _⟩, d, hd, _, _, _, hleast, _⟩ :=
    star_spec (a := graph forked) wellFormed_forked truthful_forked 2
  exact ⟨wellFormed_forked, truthful_forked, ⟨c, hc, hstar⟩, d, hd, hleast⟩

end Automaton

end RegLang
