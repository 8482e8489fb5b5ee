import RegLang.Semantics.Acceptance
/-!
# Machines and coverings

A machine is what graphs, sets of states and pairs of states have in common: states of some kind,
some of which accept, and steps on letters.  A covering maps the states of one machine to those of
another so that the steps of an image are the images of the steps.  It keeps what is accepted:

    n.Accepts (f s) w ↔ m.Accepts s w      (Covering.accepts_iff)

Renumbering, quotients and the graphs of discovered items are all coverings.
-/

namespace RegLang

/-- States with steps on letters. -/
structure Machine (σ : Type) where
  accept : σ → Prop
  step : σ → Char → σ → Prop

namespace Machine

variable {σ τ : Type} {m : Machine σ} {n : Machine τ}

/-- Some steps on the letters of a word lead from one state to another. -/
def Leads (m : Machine σ) : σ → Word → σ → Prop
  | s, [], t => s = t
  | s, c :: w, t => ∃ r, m.step s c r ∧ m.Leads r w t

/-- A word leads from a state to acceptance. -/
def Accepts (m : Machine σ) (s : σ) (w : Word) : Prop := ∃ t, m.Leads s w t ∧ m.accept t

theorem accepts_nil_iff {s : σ} : m.Accepts s [] ↔ m.accept s := by
  simp [Accepts, Leads]

theorem accepts_cons_iff {s : σ} {c : Char} {w : Word} :
    m.Accepts s (c :: w) ↔ ∃ r, m.step s c r ∧ m.Accepts r w := by
  simp only [Accepts, Leads]
  constructor
  · rintro ⟨t, ⟨r, hr, hw⟩, ha⟩
    exact ⟨r, hr, t, hw, ha⟩
  · rintro ⟨r, hr, t, hw, ha⟩
    exact ⟨t, ⟨r, hr, hw⟩, ha⟩

/-! ## Coverings -/

/-- On the states with a property that steps preserve, the steps of an image are the images of the
steps. -/
structure Covering (f : σ → τ) (P : σ → Prop) (m : Machine σ) (n : Machine τ) : Prop where
  closed : ∀ {s c t}, P s → m.step s c t → P t
  accept : ∀ {s}, P s → (n.accept (f s) ↔ m.accept s)
  step : ∀ {s c t}, P s → (n.step (f s) c t ↔ ∃ r, m.step s c r ∧ f r = t)

variable {f : σ → τ} {P : σ → Prop}

theorem Covering.closed_leads (h : Covering f P m n) {s t : σ} {w : Word} (hs : P s)
    (hw : m.Leads s w t) : P t := by
  induction w generalizing s with
  | nil =>
    rw [← show s = t from hw]
    exact hs
  | cons c w ih =>
    obtain ⟨r, hr, hw⟩ := hw
    exact ih (h.closed hs hr) hw

theorem Covering.leads_iff (h : Covering f P m n) {s : σ} {t : τ} {w : Word} (hs : P s) :
    n.Leads (f s) w t ↔ ∃ r, m.Leads s w r ∧ f r = t := by
  induction w generalizing s with
  | nil => simp [Leads]
  | cons c w ih =>
    constructor
    · rintro ⟨q, hq, hw⟩
      obtain ⟨r, hr, rfl⟩ := (h.step hs).1 hq
      obtain ⟨u, hu, rfl⟩ := (ih (h.closed hs hr)).1 hw
      exact ⟨u, ⟨r, hr, hu⟩, rfl⟩
    · rintro ⟨u, ⟨r, hr, hu⟩, rfl⟩
      exact ⟨f r, (h.step hs).2 ⟨r, hr, rfl⟩, (ih (h.closed hs hr)).2 ⟨u, hu, rfl⟩⟩

theorem Covering.accepts_iff (h : Covering f P m n) {s : σ} {w : Word} (hs : P s) :
    n.Accepts (f s) w ↔ m.Accepts s w := by
  constructor
  · rintro ⟨t, hw, ha⟩
    obtain ⟨r, hr, rfl⟩ := (h.leads_iff hs).1 hw
    exact ⟨r, hr, (h.accept (h.closed_leads hs hr)).1 ha⟩
  · rintro ⟨r, hr, ha⟩
    exact ⟨f r, (h.leads_iff hs).2 ⟨r, hr, rfl⟩, (h.accept (h.closed_leads hs hr)).2 ha⟩

/-- Only what a covering makes of the states with the property counts. -/
theorem Covering.congr {f' : σ → τ} (h : Covering f P m n) (hf : ∀ s, P s → f s = f' s) :
    Covering f' P m n := by
  refine ⟨h.closed, fun {s} hs => ?_, fun {s c t} hs => ?_⟩
  · rw [← hf s hs]
    exact h.accept hs
  · rw [← hf s hs, h.step hs]
    apply exists_congr
    intro r
    apply and_congr_right
    intro hr
    rw [hf r (h.closed hs hr)]

end Machine

/-- Retargeted transitions step to the images of what was stepped to. -/
theorem State.mem_stepAll_mapTargets {s : State} {f : Nat → Nat} {c : Char} {q : Nat} :
    q ∈ (s.mapTargets f).stepAll c ↔ ∃ r, r ∈ s.stepAll c ∧ f r = q := by
  simp only [mem_stepAll, mapTargets, List.mem_map]
  constructor
  · rintro ⟨_, ⟨t, ht, rfl⟩, hc, rfl⟩
    exact ⟨t.target, ⟨t, ht, hc, rfl⟩, rfl⟩
  · rintro ⟨_, ⟨t, ht, hc, rfl⟩, rfl⟩
    exact ⟨_, ⟨t, ht, rfl⟩, hc, rfl⟩

namespace Graph

variable {g h : Graph}

/-! ## Graphs as machines -/

/-- A graph with places for states. -/
def machine (g : Graph) : Machine Nat where
  accept q := (g.state q).accept = true
  step p c q := q ∈ (g.state p).stepAll c

theorem leads_machine_iff {p q : Nat} {w : Word} : g.machine.Leads p w q ↔ g.Path p w q := by
  induction w generalizing p with
  | nil => exact path_nil_iff.symm
  | cons c w ih =>
    rw [path_cons_iff]
    show (∃ r, r ∈ (g.state p).stepAll c ∧ g.machine.Leads r w q) ↔ _
    simp only [ih]

theorem accepts_machine_iff {q : Nat} {w : Word} : g.machine.Accepts q w ↔ g.AcceptsFrom q w := by
  simp only [Machine.Accepts, AcceptsFrom, leads_machine_iff]
  exact Iff.rfl

/-- The states of one graph stand for those of another. -/
abbrev Covers (f : Nat → Nat) (P : Nat → Prop) (g h : Graph) : Prop :=
  Machine.Covering f P g.machine h.machine

variable {f : Nat → Nat} {P : Nat → Prop}

/-- Places with a property that targets inherit are covered if their states are retargeted. -/
theorem Covers.of_mapTargets (closed : ∀ p q, P p → q ∈ (g.state p).targets → P q)
    (hstate : ∀ p, P p → h.state (f p) = (g.state p).mapTargets f) : Covers f P g h where
  closed hp hq := closed _ _ hp (targets_of_mem_stepAll hq)
  accept {p} hp := by
    show (h.state (f p)).accept = true ↔ (g.state p).accept = true
    rw [hstate p hp]
    exact Iff.rfl
  step {p c q} hp := by
    show q ∈ (h.state (f p)).stepAll c ↔ ∃ r, r ∈ (g.state p).stepAll c ∧ f r = q
    rw [hstate p hp]
    exact State.mem_stepAll_mapTargets

theorem Covers.path_iff (hf : Covers f P g h) {p q : Nat} {w : Word} (hp : P p) :
    h.Path (f p) w q ↔ ∃ r, g.Path p w r ∧ f r = q := by
  simp only [← leads_machine_iff]
  exact hf.leads_iff hp

theorem Covers.acceptsFrom_iff (hf : Covers f P g h) {p : Nat} {w : Word} (hp : P p) :
    h.AcceptsFrom (f p) w ↔ g.AcceptsFrom p w := by
  rw [← accepts_machine_iff, ← accepts_machine_iff]
  exact hf.accepts_iff hp

/-- What is reachable in the covering graph are the images of what is reachable. -/
theorem Covers.isReachable_iff (hf : Covers f P g h) (hi : P g.initial)
    (hinit : h.initial = f g.initial) {q : Nat} :
    h.IsReachable q ↔ ∃ p, g.IsReachable p ∧ f p = q := by
  unfold IsReachable
  rw [hinit]
  simp only [hf.path_iff hi]
  constructor
  · rintro ⟨w, p, hp, rfl⟩
    exact ⟨p, ⟨w, hp⟩, rfl⟩
  · rintro ⟨p, ⟨w, hp⟩, rfl⟩
    exact ⟨w, p, hp, rfl⟩

/-! ## The same states -/

/-- Graphs with the same states at places that steps do not leave go the same ways from there. -/
theorem covers_of_state_eq (closed : ∀ p c q, P p → q ∈ (g.state p).stepAll c → P q)
    (hs : ∀ q, P q → h.state q = g.state q) : Covers id P g h := by
  refine ⟨closed _ _ _, fun {q} hq => ?_, fun {q c r} hq => ?_⟩
  · show (h.state q).accept = true ↔ (g.state q).accept = true
    rw [hs q hq]
  · show r ∈ (h.state q).stepAll c ↔ ∃ x, x ∈ (g.state q).stepAll c ∧ id x = r
    rw [hs q hq]
    simp

theorem covers_of_forall_state_eq (hs : ∀ q, h.state q = g.state q) :
    Covers id (fun _ => True) g h :=
  covers_of_state_eq (fun _ _ _ _ _ => trivial) fun q _ => hs q

theorem acceptsFrom_congr (hs : ∀ q, h.state q = g.state q) {p : Nat} {w : Word} :
    h.AcceptsFrom p w ↔ g.AcceptsFrom p w :=
  (covers_of_forall_state_eq hs).acceptsFrom_iff trivial

theorem isReachable_congr (hs : ∀ q, h.state q = g.state q) (hi : h.initial = g.initial) {q : Nat} :
    h.IsReachable q ↔ g.IsReachable q := by
  rw [(covers_of_forall_state_eq hs).isReachable_iff trivial hi]
  simp

end Graph

end RegLang
