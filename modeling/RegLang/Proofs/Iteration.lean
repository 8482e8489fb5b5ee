import RegLang.Automaton.Iterate
import RegLang.Proofs.Chaining
/-!
# Iteration

A new state that starts like the initial state and accepts gives the empty word as an option.  If
all accepting states start again like it, what is read is a star.  Powers between bounds are a
chain of copies each of which may be the last.

* `cons_mem_kstar_iff`: a word of a star that is not empty begins with a word that is not empty.
* `computes_optional`, `computes_star`, `computes_atLeast`, `computes_repeated`.
-/

namespace RegLang

open Computability

/-! ## Languages -/

section Languages

variable {l : Language Char} {c : Char} {w : Word} {lo hi n : Nat}

theorem cons_mem_kstar_iff : c :: w ∈ l∗ ↔ ∃ u v, u ++ v = w ∧ c :: u ∈ l ∧ v ∈ l∗ := by
  constructor
  · rw [Language.mem_kstar_iff_exists_nonempty]
    rintro ⟨ws, he, hws⟩
    cases ws with
    | nil => cases he
    | cons v ws =>
      obtain ⟨hv, hne⟩ := hws v List.mem_cons_self
      obtain ⟨d, u, rfl⟩ := List.exists_cons_of_ne_nil hne
      obtain ⟨rfl, rfl⟩ := List.cons.inj he
      refine ⟨u, ws.flatten, rfl, hv, Language.join_mem_kstar fun x hx => ?_⟩
      exact (hws x (List.mem_cons_of_mem _ hx)).1
  · rintro ⟨u, v, rfl, hu, hv⟩
    obtain ⟨ws, rfl, hws⟩ := Language.mem_kstar.1 hv
    refine Language.mem_kstar.2 ⟨(c :: u) :: ws, rfl, fun x hx => ?_⟩
    rcases List.mem_cons.1 hx with rfl | hx
    · exact hu
    · exact hws x hx

theorem mem_powersBetween : w ∈ powersBetween l lo hi ↔ ∃ n, lo ≤ n ∧ n ≤ hi ∧ w ∈ l ^ n := Iff.rfl

theorem powersBetween_self (l : Language Char) (n : Nat) : powersBetween l n n = l ^ n := by
  ext w
  rw [mem_powersBetween]
  constructor
  · rintro ⟨m, hlo, hhi, hw⟩
    rwa [Nat.le_antisymm hhi hlo] at hw
  · exact fun hw => ⟨n, Nat.le_refl n, Nat.le_refl n, hw⟩

theorem powersBetween_of_lt (h : hi < lo) : powersBetween l lo hi = 0 := by
  ext w
  rw [mem_powersBetween]
  constructor
  · rintro ⟨n, hlo, hhi, _⟩
    omega
  · exact fun hw => absurd hw (Language.notMem_zero w)

/-- The words required come first, those that are allowed follow. -/
theorem pow_mul_powersBetween (l : Language Char) (lo n : Nat) :
    l ^ lo * powersBetween l 0 n = powersBetween l lo (lo + n) := by
  ext w
  rw [Language.mem_mul, mem_powersBetween]
  constructor
  · rintro ⟨u, hu, v, ⟨k, _, hk, hv⟩, rfl⟩
    refine ⟨lo + k, Nat.le_add_right _ _, Nat.add_le_add_left hk lo, ?_⟩
    rw [pow_add]
    exact Language.append_mem_mul hu hv
  · rintro ⟨m, hlo, hhi, hw⟩
    obtain ⟨k, rfl⟩ := Nat.exists_eq_add_of_le hlo
    rw [pow_add, Language.mem_mul] at hw
    obtain ⟨u, hu, v, hv, rfl⟩ := hw
    exact ⟨u, hu, v, ⟨k, Nat.zero_le k, by omega, hv⟩, rfl⟩

theorem one_add_mul_powersBetween (l : Language Char) (n : Nat) :
    1 + l * powersBetween l 0 n = powersBetween l 0 (n + 1) := by
  have hstep := pow_mul_powersBetween l 1 n
  rw [pow_one] at hstep
  ext w
  rw [hstep, Language.mem_add, mem_powersBetween, mem_powersBetween, ← pow_zero l]
  constructor
  · rintro (hw | ⟨k, _, hk, hw⟩)
    · exact ⟨0, Nat.le_refl 0, Nat.zero_le _, hw⟩
    · exact ⟨k, Nat.zero_le k, by omega, hw⟩
  · rintro ⟨k, _, hk, hw⟩
    cases k with
    | zero => exact .inl hw
    | succ k => exact .inr ⟨k + 1, by omega, by omega, hw⟩

end Languages

namespace Graph

variable {g h : Graph} {p q r x : Nat} {c : Char} {w : Word} {ps : List Nat}

theorem ensureInside_of_lt {places : List Nat} (h : ∀ q ∈ places, q < g.size) :
    g.ensureInside places = .ok g := by
  unfold ensureInside
  rw [if_pos (List.all_eq_true.2 fun q hq => decide_eq_true (h q hq))]

theorem WellFormed.setInitial (hg : g.WellFormed) (hq : q < g.size) :
    (g.setInitial q).WellFormed := ⟨hq, hg.target_lt⟩

end Graph

namespace Automaton

open RegLang.Graph (Chained Covers WellFormed)

variable {a : Automaton} {g h : Graph} {l : Language Char} {c : Char} {w : Word}
  {lo hi n p q r x : Nat}

/-! ## A new start -/

@[simp] theorem size_acceptFirst (g : Graph) : (acceptFirst g).size = g.size + 1 := by
  simp [acceptFirst]

@[simp] theorem initial_acceptFirst (g : Graph) : (acceptFirst g).initial = g.initial := rfl

theorem state_acceptFirst_of_lt (hx : x < g.size) : (acceptFirst g).state x = g.state x := by
  have hne : x ≠ g.size := Nat.ne_of_lt hx
  unfold acceptFirst
  rw [Graph.state_setAccept, if_neg fun h => hne h.1, Graph.state_absorb_of_ne hne,
    Graph.state_addState]

theorem accept_acceptFirst (g : Graph) : ((acceptFirst g).state g.size).accept = true := by
  unfold acceptFirst
  rw [Graph.state_setAccept, if_pos ⟨rfl, by simp⟩]

/-- The new state steps like the initial one. -/
theorem mem_stepAll_acceptFirst :
    r ∈ ((acceptFirst g).state g.size).stepAll c ↔ r ∈ (g.state g.initial).stepAll c := by
  have hlt : g.size < g.addState.size := by
    rw [Graph.size_addState]
    omega
  unfold acceptFirst
  rw [Graph.mem_stepAll_setAccept, Graph.mem_stepAll_absorb hlt, Graph.state_addState,
    Graph.state_addState, Graph.state_of_not_lt (Nat.lt_irrefl _)]
  simp [State.stepAll]

theorem covers_acceptFirst (hg : g.WellFormed) : Covers id (· < g.size) g (acceptFirst g) :=
  Graph.covers_of_state_eq (fun _ _ _ hp hq => hg.lt_of_mem_stepAll hp hq) fun _ =>
    state_acceptFirst_of_lt

theorem wellFormed_acceptFirst (hg : g.WellFormed) : (acceptFirst g).WellFormed := by
  apply Graph.wellFormed_of_steps
  · rw [size_acceptFirst, initial_acceptFirst]
    have hlt := hg.initial_lt
    omega
  · intro x hx c r hr
    rw [size_acceptFirst] at hx ⊢
    refine Nat.lt_succ_of_lt ?_
    rcases Nat.lt_succ_iff_lt_or_eq.1 hx with hx | rfl
    · rw [state_acceptFirst_of_lt hx] at hr
      exact hg.lt_of_mem_stepAll hx hr
    · exact hg.lt_of_mem_stepAll hg.initial_lt (mem_stepAll_acceptFirst.1 hr)

theorem ensureInside_addState (hg : g.WellFormed) :
    g.addState.ensureInside [g.initial] = .ok g.addState := by
  apply Graph.ensureInside_of_lt
  intro q hq
  rw [List.mem_singleton.1 hq, Graph.size_addState]
  have hlt := hg.initial_lt
  omega

/-- The words of a proper automaton and the empty word. -/
theorem computes_optional (ha : a.Proper) : Computes a.optional (a.language + 1) := by
  have hg := ha.toGraph_wellFormed
  unfold optional
  dsimp only
  rw [ensureInside_addState hg, ← language_toGraph a]
  generalize a.toGraph = g at hg
  have hwf := (wellFormed_acceptFirst hg).setInitial (q := g.size) (by simp)
  refine Computes.of_ok (proper_of_flag_false ⟨hwf.initial_lt, hwf.target_lt⟩ rfl) ?_
  ext w
  have hsame : ∀ q, (((acceptFirst g).setInitial g.size).setDeterministic false).state q =
      (acceptFirst g).state q := fun _ => rfl
  show _ ↔ g.Accepts w ∨ w = []
  refine (Graph.acceptsFrom_congr hsame (p := g.size)).trans ?_
  cases w with
  | nil =>
    rw [Graph.acceptsFrom_nil_iff]
    exact ⟨fun _ => .inr rfl, fun _ => accept_acceptFirst g⟩
  | cons c w =>
    rw [or_iff_left (List.cons_ne_nil c w), Graph.acceptsFrom_cons_iff]
    refine Iff.trans ?_ Graph.acceptsFrom_cons_iff.symm
    refine exists_congr fun r => ?_
    rw [mem_stepAll_acceptFirst]
    exact and_congr_right fun hr =>
      (covers_acceptFirst hg).acceptsFrom_iff (p := r) (hg.lt_of_mem_stepAll hg.initial_lt hr)

/-! ## Star -/

/-- The accepting states of `acceptFirst` are those of the graph; the new state is not reached
yet. -/
theorem mem_acceptStates_acceptFirst (hg : g.WellFormed) :
    x ∈ (acceptFirst g).acceptStates ↔ x ∈ g.acceptStates := by
  have hreach := (covers_acceptFirst hg).isReachable_iff hg.initial_lt (initial_acceptFirst g)
    (q := x)
  simp only [id_eq, exists_eq_right] at hreach
  rw [Graph.mem_acceptStates, Graph.mem_acceptStates, hreach]
  refine and_congr_right fun hx => ?_
  rw [state_acceptFirst_of_lt (hg.lt_of_isReachable hx)]

/-- The graph of a star, before it is compacted. -/
def looped (g : Graph) : Graph :=
  ((acceptFirst g).absorbInto (acceptFirst g).acceptStates g.size).setInitial g.size

theorem lt_of_mem_acceptStates (hg : g.WellFormed) :
    ∀ q ∈ (acceptFirst g).acceptStates, q < (acceptFirst g).size :=
  (wellFormed_acceptFirst hg).lt_of_mem_acceptStates

theorem wellFormed_looped (hg : g.WellFormed) : (looped g).WellFormed := by
  have hlt : g.size < (acceptFirst g).size := by
    rw [size_acceptFirst]
    omega
  apply ((wellFormed_acceptFirst hg).absorbInto hlt).setInitial
  rwa [Graph.size_absorbInto]

/-- Accepting states start again. -/
theorem mem_stepAll_looped (hg : g.WellFormed) (hx : g.IsReachable x) :
    r ∈ ((looped g).state x).stepAll c ↔ r ∈ (g.state x).stepAll c ∨
      ((g.state x).accept = true ∧ r ∈ (g.state g.initial).stepAll c) := by
  unfold looped
  rw [Graph.state_setInitial, Graph.mem_stepAll_absorbInto (lt_of_mem_acceptStates hg),
    mem_acceptStates_acceptFirst hg, mem_stepAll_acceptFirst,
    state_acceptFirst_of_lt (hg.lt_of_isReachable hx), Graph.mem_acceptStates, and_iff_right hx]

theorem accept_looped (hg : g.WellFormed) (hx : g.IsReachable x) :
    ((looped g).state x).accept = true ↔ (g.state x).accept = true := by
  unfold looped
  rw [Graph.state_setInitial, Graph.accept_absorbInto (lt_of_mem_acceptStates hg),
    mem_acceptStates_acceptFirst hg, state_acceptFirst_of_lt (hg.lt_of_isReachable hx),
    Graph.mem_acceptStates, and_iff_right hx]
  exact or_iff_left_of_imp And.left

theorem size_notMem_acceptStates (hg : g.WellFormed) :
    g.size ∉ (acceptFirst g).acceptStates := fun h =>
  Nat.lt_irrefl _ (hg.lt_of_mem_acceptStates _ ((mem_acceptStates_acceptFirst hg).1 h))

theorem mem_stepAll_looped_size (hg : g.WellFormed) :
    r ∈ ((looped g).state g.size).stepAll c ↔ r ∈ (g.state g.initial).stepAll c := by
  unfold looped
  rw [Graph.state_setInitial, Graph.mem_stepAll_absorbInto (lt_of_mem_acceptStates hg),
    mem_stepAll_acceptFirst]
  exact or_iff_left fun h => size_notMem_acceptStates hg h.1

/-- What is read from a state of the graph ends a word of it; words of it follow. -/
theorem acceptsFrom_looped (hg : g.WellFormed) (hx : g.IsReachable x) :
    (looped g).AcceptsFrom x w ↔ ∃ u v, u ++ v = w ∧ g.AcceptsFrom x u ∧ v ∈ g.language∗ := by
  induction w generalizing x with
  | nil =>
    rw [Graph.acceptsFrom_nil_iff, accept_looped hg hx]
    constructor
    · exact fun ha => ⟨[], [], rfl, Graph.acceptsFrom_nil_iff.2 ha, Language.nil_mem_kstar _⟩
    · rintro ⟨u, v, he, hu, _⟩
      obtain ⟨rfl, rfl⟩ := List.append_eq_nil_iff.1 he
      exact Graph.acceptsFrom_nil_iff.1 hu
  | cons c w ih =>
    rw [Graph.acceptsFrom_cons_iff]
    constructor
    · rintro ⟨r, hr, hw⟩
      rcases (mem_stepAll_looped hg hx).1 hr with hr | ⟨ha, hr⟩
      · obtain ⟨u, v, rfl, hu, hv⟩ := (ih (hx.stepAll hr)).1 hw
        exact ⟨c :: u, v, rfl, Graph.acceptsFrom_cons_iff.2 ⟨r, hr, hu⟩, hv⟩
      · obtain ⟨u, v, rfl, hu, hv⟩ := (ih (g.isReachable_initial.stepAll hr)).1 hw
        refine ⟨[], c :: (u ++ v), rfl, Graph.acceptsFrom_nil_iff.2 ha, ?_⟩
        exact cons_mem_kstar_iff.2 ⟨u, v, rfl, Graph.acceptsFrom_cons_iff.2 ⟨r, hr, hu⟩, hv⟩
    · rintro ⟨u, v, he, hu, hv⟩
      cases u with
      | nil =>
        obtain rfl : v = c :: w := he
        obtain ⟨u, v, rfl, hu', hv⟩ := cons_mem_kstar_iff.1 hv
        obtain ⟨r, hr, hu'⟩ := Graph.acceptsFrom_cons_iff.1 hu'
        have ha := Graph.acceptsFrom_nil_iff.1 hu
        exact ⟨r, (mem_stepAll_looped hg hx).2 (.inr ⟨ha, hr⟩),
          (ih (g.isReachable_initial.stepAll hr)).2 ⟨u, v, rfl, hu', hv⟩⟩
      | cons d u =>
        obtain ⟨rfl, rfl⟩ := List.cons.inj he
        obtain ⟨r, hr, hu⟩ := Graph.acceptsFrom_cons_iff.1 hu
        exact ⟨r, (mem_stepAll_looped hg hx).2 (.inl hr),
          (ih (hx.stepAll hr)).2 ⟨u, v, rfl, hu, hv⟩⟩

theorem language_looped (hg : g.WellFormed) : (looped g).language = g.language∗ := by
  ext w
  show (looped g).AcceptsFrom g.size w ↔ _
  cases w with
  | nil =>
    rw [Graph.acceptsFrom_nil_iff]
    unfold looped
    rw [Graph.state_setInitial, Graph.accept_absorbInto (lt_of_mem_acceptStates hg)]
    exact ⟨fun _ => Language.nil_mem_kstar _, fun _ => .inl (accept_acceptFirst g)⟩
  | cons c w =>
    rw [Graph.acceptsFrom_cons_iff, cons_mem_kstar_iff]
    simp only [mem_stepAll_looped_size hg]
    constructor
    · rintro ⟨r, hr, hw⟩
      obtain ⟨u, v, he, hu, hv⟩ := (acceptsFrom_looped hg (g.isReachable_initial.stepAll hr)).1 hw
      exact ⟨u, v, he, Graph.acceptsFrom_cons_iff.2 ⟨r, hr, hu⟩, hv⟩
    · rintro ⟨u, v, he, hu, hv⟩
      obtain ⟨r, hr, hu⟩ := Graph.acceptsFrom_cons_iff.1 hu
      exact ⟨r, hr, (acceptsFrom_looped hg (g.isReachable_initial.stepAll hr)).2
        ⟨u, v, he, hu, hv⟩⟩

theorem star_eq (ha : a.Proper) :
    a.star = .ok (.graph ((looped a.toGraph).setDeterministic false).compact) := by
  have hg := ha.toGraph_wellFormed
  have hopened := (wellFormed_acceptFirst hg).ensureIntact
  have hlooped := (wellFormed_looped hg).ensureIntact
  unfold star looped at *
  dsimp only
  rw [ensureInside_addState hg]
  generalize acceptFirst a.toGraph = opened at hopened hlooped
  generalize (opened.absorbInto opened.acceptStates a.toGraph.size).setInitial a.toGraph.size =
    whole at hlooped
  show (opened.ensureIntact.bind fun _ => whole.ensureIntact.bind fun _ => _) = _
  rw [hopened]
  show (whole.ensureIntact.bind fun _ => _) = _
  rw [hlooped]
  rfl

/-- All concatenations of words of a proper automaton. -/
theorem computes_star (ha : a.Proper) : Computes a.star a.language∗ := by
  rw [star_eq ha, ← language_toGraph a]
  exact computes_compact (language_looped ha.toGraph_wellFormed)

/-- Copies of a proper automaton, and another one after them. -/
theorem Proper.replicate_append {rest : Automaton} (ha : a.Proper) (hrest : rest.Proper)
    (n : Nat) : ∀ b ∈ List.replicate n a ++ [rest], b.Proper := by
  intro b hb
  rcases List.mem_append.1 hb with hb | hb
  · rw [List.eq_of_mem_replicate hb]
    exact ha
  · rw [List.mem_singleton.1 hb]
    exact hrest

/-- All concatenations of at least `n` words of a proper automaton. -/
theorem computes_atLeast (ha : a.Proper) (n : Nat) :
    Computes (a.atLeast n) (a.language ^ n * a.language∗) := by
  obtain ⟨rest, hrest, hproper, hl⟩ := computes_star ha
  unfold atLeast
  by_cases hn : n = 0
  · rw [if_pos hn, hn, pow_zero, one_mul]
    exact computes_star ha
  · rw [if_neg hn, hrest]
    have h := computes_concatenate (ha.replicate_append hproper n)
    rw [List.map_append, List.map_replicate, List.map_singleton, List.prod_append,
      List.prod_replicate, List.prod_singleton, hl] at h
    exact h

/-! ## Powers between bounds -/

/-- The accepting states of the first graph also start the second. -/
def mayFollow (g h : Graph) : Graph :=
  (g.append h).absorbInto g.acceptStates (g.size + h.initial)

theorem lt_append_of_mem_acceptStates (hg : g.WellFormed) (h : Graph) :
    ∀ q ∈ g.acceptStates, q < (g.append h).size := by
  intro q hq
  have hlt := hg.lt_of_mem_acceptStates q hq
  rw [Graph.size_append]
  omega

theorem mayContinue_eq (hg : g.WellFormed) (hh : h.WellFormed) :
    mayContinue g h = .ok (mayFollow g h) := by
  have hinside : (g.append h).ensureInside (g.acceptStates.map fun _ => g.size + h.initial) =
      .ok (g.append h) := by
    apply Graph.ensureInside_of_lt
    intro q hq
    obtain ⟨_, _, rfl⟩ := List.mem_map.1 hq
    exact Graph.add_initial_lt_append hh g
  unfold mayContinue
  rw [hg.ensureIntact, Graph.shift_of_lt hh.initial_lt]
  show (((g.append h).ensureInside _).bind fun joined => _) = _
  rw [hinside]
  rfl

theorem wellFormed_mayFollow (hg : g.WellFormed) (hh : h.WellFormed) :
    (mayFollow g h).WellFormed :=
  (hg.append hh).absorbInto (Graph.add_initial_lt_append hh g)

theorem chained_mayFollow (hg : g.WellFormed) (hh : h.WellFormed) :
    Chained g h (mayFollow g h) True := by
  have hlt := lt_append_of_mem_acceptStates hg h
  refine .of_append hg hh hg.lt_of_mem_acceptStates
    (fun _ hx => Graph.mem_acceptStates.trans (and_iff_right hx)) ?_
    (fun x c r => Graph.mem_stepAll_absorbInto hlt) ?_ ?_
  · unfold mayFollow
    rw [Graph.initial_absorbInto]
    rfl
  · intro x hx
    unfold mayFollow
    rw [Graph.accept_absorbInto hlt, Graph.state_append_left (hg.lt_of_isReachable hx),
      Graph.mem_acceptStates, and_iff_right hx, and_true]
    exact or_iff_left_of_imp And.left
  · intro x hx
    exact (Graph.accept_absorbInto hlt).trans (or_iff_left fun h => hx h.1)

theorem language_mayFollow (hg : g.WellFormed) (hh : h.WellFormed) :
    (mayFollow g h).language = g.language * (1 + h.language) := by
  rw [(chained_mayFollow hg hh).language_eq hh, Graph.continuations_true]

/-- Copies in a row, each of which may be the last, read at least one word. -/
theorem exists_upTo (hg : g.WellFormed) (n : Nat) :
    ∃ h, upTo g n = .ok h ∧ h.WellFormed ∧
      h.language = g.language * powersBetween g.language 0 n := by
  induction n with
  | zero =>
    refine ⟨g, rfl, hg, ?_⟩
    rw [powersBetween_self, pow_zero, mul_one]
  | succ n ih =>
    obtain ⟨h, hh, hwf, hl⟩ := ih
    refine ⟨mayFollow g h, ?_, wellFormed_mayFollow hg hwf, ?_⟩
    · unfold upTo
      rw [hh]
      exact mayContinue_eq hg hwf
    · rw [language_mayFollow hg hwf, hl, one_add_mul_powersBetween]

/-- The concatenations that a repetition requires. -/
def required (a : Automaton) : Nat → Except Fault Automaton
  | 0 => .ok emptyWord
  | 1 => .ok a
  | lo => concatenate (List.replicate lo a)

theorem computes_required (ha : a.Proper) (lo : Nat) :
    Computes (a.required lo) (a.language ^ lo) := by
  match lo with
  | 0 =>
    rw [pow_zero]
    exact Computes.of_ok (proper_singleton []) rfl
  | 1 =>
    rw [pow_one]
    exact Computes.of_ok ha rfl
  | lo + 2 =>
    have hall : ∀ b ∈ List.replicate (lo + 2) a, b.Proper := by
      intro b hb
      rw [List.eq_of_mem_replicate hb]
      exact ha
    have h := computes_concatenate hall
    rwa [List.map_replicate, List.prod_replicate] at h

theorem repeated_eq (a : Automaton) (lo hi : Nat) :
    a.repeated lo hi = if hi < lo then .ok empty else
      (a.required lo).bind fun first =>
      if hi = lo then .ok first else
        (upTo a.toGraph (hi - lo - 1)).bind fun rest =>
        (mayContinue first.toGraph rest).bind fun whole =>
        whole.ensureIntact.bind fun _ => .ok (.graph (whole.setDeterministic false).compact) := by
  unfold repeated
  match lo with
  | 0 => rfl
  | 1 => rfl
  | lo + 2 => rfl

/-- What is required, and then up to so many words more. -/
theorem language_mayFollow_upTo (hg : g.WellFormed) (hh : h.WellFormed) (hlt : lo < hi)
    (hl : g.language = l ^ lo) (hl' : h.language = l * powersBetween l 0 (hi - lo - 1)) :
    (mayFollow g h).language = powersBetween l lo hi := by
  have hsum : lo + (hi - lo - 1 + 1) = hi := by omega
  rw [language_mayFollow hg hh, hl, hl', one_add_mul_powersBetween, pow_mul_powersBetween, hsum]

/-- All concatenations of at least `lo` and at most `hi` words of a proper automaton. -/
theorem computes_repeated (ha : a.Proper) (lo hi : Nat) :
    Computes (a.repeated lo hi) (powersBetween a.language lo hi) := by
  rw [repeated_eq]
  by_cases hlt : hi < lo
  · rw [if_pos hlt, powersBetween_of_lt hlt]
    exact computes_empty
  rw [if_neg hlt]
  obtain ⟨first, hreq, hproper, hl⟩ := computes_required ha lo
  rw [hreq]
  by_cases heq : hi = lo
  · show Computes (if hi = lo then _ else _) _
    rw [if_pos heq, heq, powersBetween_self]
    exact Computes.of_ok hproper hl
  · show Computes (if hi = lo then _ else _) _
    have hr := hproper.toGraph_wellFormed
    obtain ⟨rest, hrest, hwf, hlr⟩ := exists_upTo ha.toGraph_wellFormed (hi - lo - 1)
    rw [language_toGraph] at hlr
    have hintact := (wellFormed_mayFollow hr hwf).ensureIntact
    have hlang := language_mayFollow_upTo hr hwf (by omega) ((language_toGraph _).trans hl) hlr
    rw [if_neg heq, hrest]
    show Computes ((mayContinue first.toGraph rest).bind _) _
    rw [mayContinue_eq hr hwf]
    generalize mayFollow first.toGraph rest = whole at hintact hlang
    show Computes (whole.ensureIntact.bind _) _
    rw [hintact]
    exact computes_compact hlang

end Automaton

end RegLang
