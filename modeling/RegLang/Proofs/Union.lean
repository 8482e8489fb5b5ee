import RegLang.Proofs.Proper
import RegLang.Result
/-!
# Union

Graphs are brought into one arena one after the other, and each time the initial state absorbs the
initial state of the new graph.  Nothing ever leads back to the initial state of the whole, so the
graphs do not mix.

* `acceptsFrom_absorb_self`: what a state accepts that absorbs another one, if nothing leads back.
* `computes_union`: the union has the words of all its operands.
-/

namespace RegLang

namespace Graph

variable {g h : Graph} {p q r x : Nat} {c : Char} {w : Word}

/-- No step leads to `p`. -/
def NeverEnters (g : Graph) (p : Nat) : Prop := ∀ x c, p ∉ (g.state x).stepAll c

/-- If nothing leads to a state and no other state changes, the others go on as before. -/
theorem NeverEnters.covers {n : Graph} (hp : g.NeverEnters p)
    (hs : ∀ x ≠ p, n.state x = g.state x) : Covers id (· ≠ p) g n := by
  apply covers_of_state_eq _ hs
  rintro x c y _ hy rfl
  exact hp x c hy

/-- The state that absorbs accepts what either state did. -/
theorem acceptsFrom_absorb_self (hlt : p < g.size) (hp : g.NeverEnters p) :
    (g.absorb p q).AcceptsFrom p w ↔ g.AcceptsFrom p w ∨ g.AcceptsFrom q w := by
  cases w with
  | nil =>
    simp only [acceptsFrom_nil_iff]
    rw [accept_absorb hlt]
    simp
  | cons c w =>
    simp only [acceptsFrom_cons_iff]
    have hrest : ∀ x r, r ∈ (g.state x).stepAll c →
        ((g.absorb p q).AcceptsFrom r w ↔ g.AcceptsFrom r w) := by
      intro x r hr
      have hne : r ≠ p := by
        rintro rfl
        exact hp x c hr
      exact (hp.covers fun x hx => state_absorb_of_ne hx).acceptsFrom_iff hne
    constructor
    · rintro ⟨r, hr, hw⟩
      rcases (mem_stepAll_absorb hlt).1 hr with hr | ⟨_, hr⟩
      · exact .inl ⟨r, hr, (hrest p r hr).1 hw⟩
      · exact .inr ⟨r, hr, (hrest q r hr).1 hw⟩
    · rintro (⟨r, hr, hw⟩ | ⟨r, hr, hw⟩)
      · exact ⟨r, (mem_stepAll_absorb hlt).2 (.inl hr), (hrest p r hr).2 hw⟩
      · exact ⟨r, (mem_stepAll_absorb hlt).2 (.inr ⟨rfl, hr⟩), (hrest q r hr).2 hw⟩

theorem NeverEnters.absorb (hp : g.NeverEnters p) (hlt : x < g.size) (q : Nat) :
    (g.absorb x q).NeverEnters p := by
  intro y c hy
  rcases (mem_stepAll_absorb hlt).1 hy with hy | ⟨_, hy⟩
  · exact hp y c hy
  · exact hp q c hy

/-- What is put behind a graph does not lead into it. -/
theorem NeverEnters.append (hp : g.NeverEnters p) (hlt : p < g.size) (hh : h.WellFormed) :
    (g.append h).NeverEnters p := by
  intro x c hx
  by_cases hxg : x < g.size
  · rw [state_append_left hxg] at hx
    exact hp x c hx
  · obtain ⟨y, rfl⟩ := Nat.exists_eq_add_of_le (Nat.le_of_not_lt hxg)
    by_cases hy : y < h.size
    · obtain ⟨r, _, he⟩ := ((covers_append_right g hh).step hy).1 hx
      omega
    · rw [state_of_not_lt (by rw [size_append]; omega)] at hx
      cases hx

end Graph

namespace Automaton

open RegLang.Graph (WellFormed NeverEnters)

variable {g h : Graph} {w : Word} {as : List Automaton}

/-! ## Branches -/

/-- What holds while branches are added. -/
structure Rooted (g : Graph) (l : Language Char) : Prop where
  wellFormed : g.WellFormed
  neverEnters : g.NeverEnters g.initial
  language_eq : g.language = l

theorem Rooted.branch {l : Language Char} (hg : Rooted g l) (hh : h.WellFormed) :
    Rooted (branch g h) (l + h.language) := by
  have hshift : g.shift h h.initial = g.size + h.initial := Graph.shift_of_lt hh.initial_lt
  have hi := hg.wellFormed.initial_lt
  have hlt : g.initial < (g.append h).size := by
    rw [Graph.size_append]
    omega
  have hnever := hg.neverEnters.append hi hh
  unfold Automaton.branch
  rw [hshift]
  refine ⟨(hg.wellFormed.append hh).absorb (Graph.add_initial_lt_append hh g),
    hnever.absorb hlt _, ?_⟩
  ext w
  show ((g.append h).absorb g.initial (g.size + h.initial)).AcceptsFrom g.initial w ↔
    w ∈ l ∨ h.Accepts w
  rw [Graph.acceptsFrom_absorb_self hlt hnever,
    (Graph.covers_append_right g hh).acceptsFrom_iff (p := h.initial) hh.initial_lt,
    ← hg.language_eq]
  exact or_congr_left ((Graph.covers_append_left hg.wellFormed h).acceptsFrom_iff hi)

theorem Rooted.foldl {l : Language Char} {hs : List Graph} (hg : Rooted g l)
    (hhs : ∀ h ∈ hs, h.WellFormed) :
    Rooted (hs.foldl Automaton.branch g) (l + (hs.map Graph.language).sum) := by
  induction hs generalizing g l with
  | nil =>
    rw [List.map_nil, List.sum_nil, add_zero]
    exact hg
  | cons h hs ih =>
    rw [List.map_cons, List.sum_cons, ← add_assoc]
    exact ih (hg.branch (hhs h List.mem_cons_self)) fun k hk => hhs k (List.mem_cons_of_mem _ hk)

theorem rooted_default : Rooted {} 0 := by
  obtain ⟨a, ha, hp, hl⟩ := computes_empty
  obtain rfl : empty = a := Except.ok.inj ha
  refine ⟨hp.wellFormed, ?_, hl⟩
  intro x c hx
  have hs : (({} : Graph).state x).transitions = [] := by
    match x with
    | 0 => rfl
    | x + 1 => rfl
  obtain ⟨t, ht, _⟩ := State.mem_stepAll.1 hx
  rw [hs] at ht
  cases ht

/-! ## Operands -/

/-- Operands without words add nothing. -/
theorem sum_filter_language {p : Automaton → Bool}
    (hp : ∀ a ∈ as, p a = false → a.language = 0) :
    ((as.filter p).map language).sum = (as.map language).sum := by
  induction as with
  | nil => rfl
  | cons a as ih =>
    have ih' := ih fun b hb => hp b (List.mem_cons_of_mem _ hb)
    cases hpa : p a with
    | true => rw [List.filter_cons_of_pos hpa, List.map_cons, List.map_cons, List.sum_cons,
        List.sum_cons, ih']
    | false => rw [List.filter_cons_of_neg (by rw [hpa]; exact Bool.false_ne_true), List.map_cons,
        List.sum_cons, ih', hp a List.mem_cons_self hpa, zero_add]

/-- Operands that are all one and the same add nothing to the first. -/
theorem sum_of_all_eq {a : Automaton} {rest : List Automaton} (h : ∀ b ∈ rest, b = a) :
    ((a :: rest).map language).sum = a.language := by
  induction rest with
  | nil => rw [List.map_singleton, List.sum_singleton]
  | cons b rest ih =>
    have ih' := ih fun c hc => h c (List.mem_cons_of_mem _ hc)
    rw [List.map_cons, List.sum_cons] at ih' ⊢
    rw [List.map_cons, List.sum_cons, h b List.mem_cons_self, ← add_assoc, Language.add_self, ih']

/-- The union of proper automata has the words of all of them. -/
theorem computes_union (has : ∀ a ∈ as, a.Proper) :
    Computes (union as) (as.map language).sum := by
  classical
  have hfilter : (as.filterM fun a => do return !(← a.isEmpty)) =
      .ok (as.filter fun a => !decide (a.language = 0)) := by
    apply filterM_eq_ok
    intro a ha
    rw [(has a ha).isEmpty_eq]
    rfl
  have hsum : ((as.filter fun a => !decide (a.language = 0)).map language).sum =
      (as.map language).sum := by
    apply sum_filter_language
    intro a _ h
    simpa using h
  have hproper : ∀ a ∈ as.filter fun a => !decide (a.language = 0), a.Proper :=
    fun a ha => has a (List.mem_filter.1 ha).1
  unfold union
  rw [hfilter, ← hsum]
  generalize as.filter (fun a => !decide (a.language = 0)) = live at hproper
  match live, hproper with
  | [], _ => exact computes_compact rooted_default.language_eq
  | a :: rest, hproper =>
    show Computes (if (rest.isEmpty || (a.isSingleton && rest.all (· = a))) = true then .ok a
      else .ok (.graph ((((a :: rest).map toGraph).foldl branch {}).setDeterministic
        false).compact)) _
    by_cases hc : (rest.isEmpty || (a.isSingleton && rest.all (· = a))) = true
    · rw [if_pos hc]
      apply Computes.of_ok (hproper a List.mem_cons_self)
      rw [sum_of_all_eq]
      rw [Bool.or_eq_true, Bool.and_eq_true, List.isEmpty_iff, List.all_eq_true] at hc
      rcases hc with rfl | ⟨_, hall⟩
      · intro b hb
        cases hb
      · exact fun b hb => of_decide_eq_true (hall b hb)
    · rw [if_neg hc]
      have hfold := rooted_default.foldl (wellFormed_of_mem_map_toGraph hproper)
      apply computes_compact
      rw [hfold.language_eq, zero_add, map_language_toGraph]

end Automaton

end RegLang
