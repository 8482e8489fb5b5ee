import RegLang.Expr.Compile
import RegLang.Semantics.History
/-!
# What compiled automata inherit

A compiled automaton is made of primitive automata and of those held under names by operations
alone, so it has every property that primitive automata have and operations pass on.  Nothing is
said of whether compilation succeeds.

* `Compile.passes_plan`: the parts of an expression.
* `Inherited.compileWith`: a pattern, with automata under names.
-/

namespace RegLang

namespace Compile

variable {α β : Type} {P : Automaton → Prop} {Q : α → Prop} {R : β → Prop} {act : Action α}
  {f : α → Action β} {session : Session} {a : Automaton} {name : String} {left : Nat}
  {options : Options} {p q : Plan}

/-! ## Sessions -/

/-- All automata of a session satisfy `P`. -/
structure Holds (P : Automaton → Prop) (session : Session) : Prop where
  held : ∀ x ∈ session.held, P x.2
  taken : ∀ x ∈ session.taken, P x.2.1

/-- If all automata of the session satisfy `P`, they do so after the action, and if that succeeds,
its result satisfies `Q`. -/
def Keeps (P : Automaton → Prop) (act : Action α) (Q : α → Prop) : Prop :=
  ∀ session, Holds P session → ∀ x session', act.run.run session = (.ok x, session') →
    Q x ∧ Holds P session'

theorem Keeps.pure {x : α} (h : Q x) : Keeps P (Pure.pure x) Q := by
  intro session hs y session' hrun
  obtain ⟨hy, rfl⟩ := Prod.mk.inj hrun
  cases hy
  exact ⟨h, hs⟩

theorem Keeps.bind (h : Keeps P act Q) (hf : ∀ x, Q x → Keeps P (f x) R) :
    Keeps P (act >>= f) R := by
  intro session hs y session' hrun
  rw [ExceptT.run_bind, StateT.run_bind] at hrun
  cases hact : act.run.run session with
  | mk r session₁ =>
    rw [hact] at hrun
    cases r with
    | error e => cases hrun
    | ok x =>
      obtain ⟨hx, hs₁⟩ := h session hs x session₁ hact
      exact hf x hx session₁ hs₁ y session' hrun

theorem keeps_ofFault {r : Except Fault α} (h : ∀ x, r = .ok x → Q x) :
    Keeps P (.ofFault r) Q := by
  cases r with
  | error e =>
    intro session _ x session' hrun
    cases hrun
  | ok x => exact .pure (h x rfl)

/-! ## Names -/

theorem Holds.use (hs : Holds P session) (ha : P a) : Holds P (session.use name a left) := by
  have hothers : ∀ x ∈ session.taken.filter (·.1 != name), P x.2.1 := fun x hx =>
    hs.taken x (List.mem_filter.1 hx).1
  refine ⟨hs.held, ?_⟩
  unfold Session.use
  dsimp only
  split
  · exact hothers
  · intro x hx
    rcases List.mem_cons.1 hx with rfl | hx
    · exact ha
    · exact hothers x hx

theorem Holds.replace (hs : Holds P session) (ha : P a) :
    Holds P { session with held := session.held.replace name a } := by
  refine ⟨?_, hs.taken⟩
  intro x hx
  obtain ⟨y, hy, rfl⟩ := List.mem_map.1 hx
  split
  · exact ha
  · exact hs.held y hy

theorem of_acquire (handover : Handover) (hempty : P .empty) (ha : P a) :
    P (handover.acquire a).1 ∧ P (handover.acquire a).2 := by
  cases handover with
  | copy => exact ⟨ha, ha⟩
  | move => exact ⟨ha, hempty⟩

theorem mem_of_lookup {β : Type} {xs : List (String × β)} {b : β} (h : xs.lookup name = some b) :
    (name, b) ∈ xs := by
  obtain ⟨_, _, rfl, -⟩ := List.lookup_eq_some_iff.1 h
  exact List.mem_append_right _ List.mem_cons_self

/-- What is fetched was held or taken. -/
theorem keeps_fetch (hempty : P .empty) (handover : Handover) (uses : String → Nat)
    (name : String) : Keeps P (fetch handover uses name) P := by
  intro session hs x session' hrun
  have hget : (get : Action Session).run.run session = (.ok session, session) := rfl
  unfold fetch at hrun
  rw [ExceptT.run_bind, StateT.run_bind, hget] at hrun
  simp only [Bind.bind] at hrun
  cases htaken : session.taken.lookup name with
  | some found =>
    obtain ⟨a, left⟩ := found
    have ha : P a := hs.taken _ (mem_of_lookup htaken)
    rw [htaken] at hrun
    cases hrun
    exact ⟨ha, hs.use ha⟩
  | none =>
    rw [htaken] at hrun
    cases hheld : session.held.lookup name with
    | none =>
      rw [hheld] at hrun
      cases hrun
    | some a =>
      obtain ⟨hgot, hrest⟩ := of_acquire handover hempty (hs.held _ (mem_of_lookup hheld))
      rw [hheld] at hrun
      cases hrun
      exact ⟨hgot, (hs.replace hrest).use hgot⟩

/-! ## Plans -/

/-- What a plan yields satisfies `P`, as a whole and as operands. -/
structure Passes (P : Automaton → Prop) (p : Plan) : Prop where
  whole : Keeps P p.whole P
  summands : Keeps P p.summands fun as => ∀ a ∈ as, P a
  factors : Keeps P p.factors fun as => ∀ a ∈ as, P a

theorem keeps_operand {whole : Action Automaton} (h : Keeps P whole P) :
    Keeps P (do return [← whole]) fun as => ∀ a ∈ as, P a := by
  refine h.bind fun a ha => .pure ?_
  intro b hb
  rw [List.mem_singleton.1 hb]
  exact ha

theorem keeps_operands {parts parts' : Action (List Automaton)}
    (hp : Keeps P parts fun as => ∀ a ∈ as, P a) (hq : Keeps P parts' fun as => ∀ a ∈ as, P a) :
    Keeps P (do return (← parts) ++ (← parts')) fun as => ∀ a ∈ as, P a := by
  refine hp.bind fun as has => hq.bind fun bs hbs => .pure ?_
  intro a ha
  exact (List.mem_append.1 ha).elim (has a) (hbs a)

theorem Passes.single {whole : Action Automaton} (h : Keeps P whole P) : Passes P (.single whole) :=
  ⟨h, keeps_operand h, keeps_operand h⟩

theorem keeps_finish (hP : Inherited P) {r : Except Fault Automaton} (h : ∀ a, r = .ok a → P a) :
    Keeps P (finish options r) P := by
  refine keeps_ofFault fun b hb => ?_
  cases r with
  | error e => cases hb
  | ok a =>
    change (if options.minimize = true then a.minimize options.minimization else .ok a) = .ok b
      at hb
    split at hb
    · refine hP.operation (.minimize options.minimization a) b (fun c hc => ?_) hb
      rw [List.mem_singleton.1 hc]
      exact h _ rfl
    · cases hb
      exact h _ rfl

/-- The result of an operation on what satisfies `P`. -/
theorem keeps_operation (hP : Inherited P) (op : Operation) (hop : ∀ a ∈ op.operands, P a) :
    Keeps P (finish options op.run) P :=
  keeps_finish hP fun b hb => hP.operation op b hop hb

theorem Passes.unary (hP : Inherited P) (hp : Passes P p) (op : Automaton → Operation)
    (hop : ∀ a, (op a).operands = [a]) : Passes P (.unary options p fun a => (op a).run) := by
  refine .single (hp.whole.bind fun a ha => keeps_operation hP (op a) ?_)
  intro b hb
  rw [hop, List.mem_singleton] at hb
  rw [hb]
  exact ha

theorem Passes.primitive (hP : Inherited P) (p : Primitive) :
    Passes P (.single (.ofFault p.make)) :=
  .single (keeps_ofFault fun a ha => hP.primitive p a ha)

theorem passes_plan (hP : Inherited P) (options : Options) (uses : String → Nat) (e : Expr) :
    Passes P (plan options uses e) := by
  induction e with
  | union a b iha ihb =>
    have hparts := keeps_operands iha.summands ihb.summands
    have hwhole : Keeps P (plan options uses (.union a b)).whole P :=
      hparts.bind fun as has => keeps_operation hP (.union as) has
    exact ⟨hwhole, hparts, keeps_operand hwhole⟩
  | concat a b iha ihb =>
    have hparts := keeps_operands iha.factors ihb.factors
    have hwhole : Keeps P (plan options uses (.concat a b)).whole P :=
      hparts.bind fun as has => keeps_operation hP (.concatenate as) has
    exact ⟨hwhole, keeps_operand hwhole, hparts⟩
  | inter a b iha ihb =>
    refine .single (iha.whole.bind fun x hx => ihb.whole.bind fun y hy =>
      keeps_operation hP (.intersection x y) ?_)
    intro c hc
    rcases List.mem_cons.1 hc with rfl | hc
    · exact hx
    · rw [List.mem_singleton.1 hc]
      exact hy
  | optional a ih => exact ih.unary hP .optional fun _ => rfl
  | star a ih => exact ih.unary hP .star fun _ => rfl
  | atLeast a n ih => exact ih.unary hP (.atLeast · n) fun _ => rfl
  | repeated a lo hi ih => exact ih.unary hP (.repeated · lo hi) fun _ => rfl
  | compl a ih => exact ih.unary hP .complement fun _ => rfl
  | letter c => exact .primitive hP (.letter c)
  | range c d => exact .primitive hP (.range c d)
  | anyLetter => exact .primitive hP .anyLetter
  | empty => exact .primitive hP .empty
  | literal w => exact .primitive hP (.word w)
  | anyWord => exact .primitive hP .anyWord
  | named name => exact .single (keeps_fetch (hP.primitive .empty _ rfl) _ _ _)
  | interval lo hi digits => exact .primitive hP (.interval lo hi digits)

end Compile

/-! ## Compiled automata -/

namespace Inherited

variable {P : Automaton → Prop} {a : Automaton} {names : Names}

theorem toAutomaton (hP : Inherited P) {e : Expr} {options : Options}
    (hnames : ∀ x ∈ names, P x.2) (h : (e.toAutomaton options names).1 = .ok a) : P a := by
  have hs : Compile.Holds P ⟨names, []⟩ := ⟨hnames, fun x hx => absurd hx List.not_mem_nil⟩
  exact ((Compile.passes_plan hP options (e.names.count ·) e).whole _ hs a _ (Prod.ext h rfl)).1

/-- What a pattern compiles to inherits what the automata under names have. -/
theorem compileWith (hP : Inherited P) {pattern : Word} {options : Options}
    (hnames : ∀ x ∈ names, P x.2) (h : (compileWith pattern options names).1 = .ok a) : P a := by
  unfold RegLang.compileWith at h
  cases hparse : Expr.parse pattern options.features with
  | error e =>
    rw [hparse] at h
    cases h
  | ok e =>
    rw [hparse] at h
    change ((e.toAutomaton options names).1.bind fun b =>
      if options.minimize then (b.minimize options.minimization).mapError CompileError.fault
      else .ok b) = .ok a at h
    cases hb : (e.toAutomaton options names).1 with
    | error e =>
      rw [hb] at h
      cases h
    | ok b =>
      have hPb : P b := hP.toAutomaton hnames hb
      rw [hb] at h
      change (if options.minimize then
        (b.minimize options.minimization).mapError CompileError.fault else .ok b) = .ok a at h
      split at h
      · cases hm : b.minimize options.minimization with
        | error f =>
          rw [hm] at h
          cases h
        | ok c =>
          rw [hm] at h
          cases h
          refine hP.operation (.minimize options.minimization b) a (fun c hc => ?_) hm
          rw [List.mem_singleton.1 hc]
          exact hPb
      · cases h
        exact hPb

end Inherited

end RegLang
