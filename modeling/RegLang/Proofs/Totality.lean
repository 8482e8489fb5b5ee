import RegLang.Checked.Compile
import RegLang.Proofs.CheckedIntervals
import RegLang.Proofs.Compilation
import RegLang.Proofs.PrintedIntervals
/-!
# Compilation is total

Whatever a pattern is, compiling it without automata to name ends in one of three ways: the pattern
is malformed, a name is undefined, or there is a proper automaton.  No check fails on the way: all
operands are proper, so the operations with checks do on them what those without checks do, and the
intervals of a pattern have bounds in order that fit into their width.

* `Settles`: a compilation with checks beside one with a session.
* `settles_plan`: expressions.
* `compile_total`: patterns.
-/

namespace RegLang

/-- The intervals of a pattern fit. -/
theorem Expr.Spells.fits {e : Expr} (h : e.Spells) : e.Fits := by
  have left : ∀ {a b e : Expr}, e.Spells → e.intervals = a.intervals ++ b.intervals → a.Spells :=
    fun h he lo hi digits hmem => h lo hi digits (he ▸ List.mem_append_left _ hmem)
  have right : ∀ {a b e : Expr}, e.Spells → e.intervals = a.intervals ++ b.intervals → b.Spells :=
    fun h he lo hi digits hmem => h lo hi digits (he ▸ List.mem_append_right _ hmem)
  induction e with
  | union a b iha ihb | concat a b iha ihb | inter a b iha ihb =>
    exact ⟨iha (left h rfl), ihb (right h rfl)⟩
  | optional a ih | star a ih | atLeast a _ ih | repeated a _ _ ih | compl a ih => exact ih h
  | interval lo hi digits =>
    have hspelled := h lo hi digits (List.mem_singleton.2 rfl)
    exact ⟨hspelled.ordered, hspelled.fits⟩
  | _ => trivial

namespace Checked

open RegLang.Automaton (Computes)
open RegLang.Compile (Action Plan Session plan)

variable {α β : Type} {xs ys : List String} {act : Action α} {r : Except CompileError α}
  {P : α → Prop} {Q : β → Prop} {f : α → Action β} {f' : α → Except CompileError β}
  {options : Options} {a : Automaton} {e : Expr} {s s' : Except Fault Automaton}

theorem succeeds_of_computes {l : Language Char} (h : Computes s l) :
    Succeeds s Automaton.Proper := by
  obtain ⟨a, rfl, ha, -⟩ := h
  exact .pure ha

/-- An action that meets the names `xs` where no automata are held comes to the result `r`: the
first name is undefined, and without any the result has a property. -/
structure Settles (xs : List String) (act : Action α) (r : Except CompileError α) (P : α → Prop) :
    Prop where
  run : act.run.run ⟨[], []⟩ = (r, ⟨[], []⟩)
  undefined : ∀ name ∈ xs.head?, r = .error (.undefined name)
  succeeds : xs = [] → Succeeds r P

/-! ## Actions one after another -/

theorem Settles.pure {x : α} (h : P x) : Settles [] (Pure.pure x) (.ok x) P :=
  ⟨rfl, nofun, fun _ => .pure h⟩

/-- The names that are met first come first. -/
theorem Settles.bind (h : Settles xs act r P) (hf : ∀ x, P x → Settles ys (f x) (f' x) Q) :
    Settles (xs ++ ys) (act >>= f) (r >>= f') Q := by
  have hrun : (act >>= f).run.run ⟨[], []⟩ = match r with
      | .ok x => (f x).run.run ⟨[], []⟩
      | .error e => (.error e, ⟨[], []⟩) := by
    rw [ExceptT.run_bind, StateT.run_bind, h.run]
    cases r <;> rfl
  cases xs with
  | nil =>
    obtain ⟨x, rfl, hx⟩ := h.succeeds rfl
    have hnext := hf x hx
    exact ⟨hrun.trans hnext.run, hnext.undefined, hnext.succeeds⟩
  | cons name xs =>
    obtain rfl := h.undefined name rfl
    refine ⟨hrun, fun n hn => ?_, nofun⟩
    obtain rfl : name = n := Option.some.inj hn
    rfl

/-- Actions that follow meet no names. -/
theorem Settles.map (h : Settles xs act r P) (hf : ∀ x, P x → Settles [] (f x) (f' x) Q) :
    Settles xs (act >>= f) (r >>= f') Q := by
  simpa using h.bind hf

/-- An operation with checks beside one without. -/
theorem settles_ofFault (hs : s' = s) (h : Succeeds s Automaton.Proper) :
    Settles [] (.ofFault s) (s'.mapError .fault) Automaton.Proper := by
  obtain ⟨a, rfl, ha⟩ := h
  rw [hs]
  exact .pure ha

/-- The last step of a compilation. -/
theorem finish_eq (options : Options) (ha : a.Proper) : finish options (.ok a) =
    if options.minimize then (a.minimize options.minimization).mapError .fault else .ok a := by
  show (if options.minimize = true then minimize options.minimization a else .ok a).mapError _ = _
  rw [minimize_eq options.minimization ha]
  split <;> rfl

theorem succeeds_finish (options : Options) (ha : a.Proper) :
    Succeeds (finish options (.ok a)) Automaton.Proper := by
  rw [finish_eq options ha]
  split
  · obtain ⟨b, hb, hproper⟩ :=
      succeeds_of_computes (Automaton.computes_minimize options.minimization ha)
    exact .of_eq (by rw [hb]; rfl) hproper
  · exact .pure ha

theorem settles_finish (options : Options) (hs : s' = s) (h : Succeeds s Automaton.Proper) :
    Settles [] (Compile.finish options s) (finish options s') Automaton.Proper := by
  obtain ⟨a, rfl, ha⟩ := h
  unfold Compile.finish finish
  rw [hs]
  cases hm : options.minimize with
  | true =>
    exact settles_ofFault (minimize_eq options.minimization ha)
      (succeeds_of_computes (Automaton.computes_minimize options.minimization ha))
  | false => exact .pure ha

/-! ## Plans -/

/-- All that a plan yields where no automata are held. -/
structure PlanSettles (xs : List String) (p : Plan) (o : Outcome) : Prop where
  whole : Settles xs p.whole o.whole Automaton.Proper
  summands : Settles xs p.summands o.summands (∀ a ∈ ·, a.Proper)
  factors : Settles xs p.factors o.factors (∀ a ∈ ·, a.Proper)

variable {p q : Plan} {o o' : Outcome} {whole : Action Automaton}
  {result : Except CompileError Automaton} {parts parts' : Action (List Automaton)}
  {results results' : Except CompileError (List Automaton)}

/-- An automaton by itself, as the only operand. -/
theorem Settles.operand (h : Settles xs whole result Automaton.Proper) :
    Settles xs (do return [← whole]) (do return [← result]) (∀ a ∈ ·, a.Proper) := by
  refine h.map fun a ha => .pure fun b hb => ?_
  rw [List.mem_singleton.1 hb]
  exact ha

/-- The operands of two operands. -/
theorem Settles.operands (hp : Settles xs parts results (∀ a ∈ ·, a.Proper))
    (hq : Settles ys parts' results' (∀ a ∈ ·, a.Proper)) :
    Settles (xs ++ ys) (do return (← parts) ++ (← parts'))
      (do return (← results) ++ (← results')) (∀ a ∈ ·, a.Proper) :=
  hp.bind fun _ ha => hq.map fun _ hb => .pure fun a h =>
    (List.mem_append.1 h).elim (ha a) (hb a)

theorem PlanSettles.single (h : Settles xs whole result Automaton.Proper) :
    PlanSettles xs (.single whole) (.single result) := ⟨h, h.operand, h.operand⟩

theorem PlanSettles.primitive (ha : a.Proper) (h : s = .ok a) :
    PlanSettles [] (.single (return a)) (.primitive s) := by
  rw [h]
  exact .single (.pure ha)

/-- An operation on one automaton. -/
theorem PlanSettles.unary {op op' : Automaton → Except Fault Automaton}
    (h : PlanSettles xs p o) (hop : ∀ a, a.Proper → op' a = op a)
    (hproper : ∀ a, a.Proper → Succeeds (op a) Automaton.Proper) :
    PlanSettles xs (.unary options p op) (.unary options o op') :=
  .single (h.whole.map fun a ha => settles_finish options (hop a ha) (hproper a ha))

/-- Each expression whose intervals fit comes to the outcome with checks; the first name in it is
undefined. -/
theorem settles_plan (options : Options) (uses : String → Nat) (hfits : e.Fits) :
    PlanSettles e.names (plan options uses e) (outcome options e) := by
  induction e with
  | union a b iha ihb =>
    have hparts := (iha hfits.1).summands.operands (ihb hfits.2).summands
    have hwhole := hparts.map fun as has => settles_finish options (union_eq has)
      (succeeds_of_computes (Automaton.computes_union has))
    exact ⟨hwhole, hparts, hwhole.operand⟩
  | concat a b iha ihb =>
    have hparts := (iha hfits.1).factors.operands (ihb hfits.2).factors
    have hwhole := hparts.map fun as has => settles_finish options (concatenate_eq has)
      (succeeds_of_computes (Automaton.computes_concatenate has))
    exact ⟨hwhole, hwhole.operand, hparts⟩
  | inter a b iha ihb =>
    exact .single ((iha hfits.1).whole.bind fun x hx => (ihb hfits.2).whole.map fun y hy =>
      settles_finish options (intersection_eq hx hy)
        (succeeds_of_computes (Automaton.computes_intersection hx hy)))
  | optional a ih =>
    exact (ih hfits).unary (fun _ => optional_eq) fun _ ha =>
      succeeds_of_computes (Automaton.computes_optional ha)
  | star a ih =>
    exact (ih hfits).unary (fun _ => star_eq) fun _ ha =>
      succeeds_of_computes (Automaton.computes_star ha)
  | atLeast a n ih =>
    exact (ih hfits).unary (fun _ ha => atLeast_eq ha n) fun _ ha =>
      succeeds_of_computes (Automaton.computes_atLeast ha n)
  | repeated a lo hi ih =>
    exact (ih hfits).unary (fun _ ha => repeated_eq ha lo hi) fun _ ha =>
      succeeds_of_computes (Automaton.computes_repeated ha lo hi)
  | compl a ih =>
    exact (ih hfits).unary (fun _ => complement_eq) fun _ ha =>
      succeeds_of_computes (Automaton.computes_complement ha)
  | letter c => exact .primitive (Automaton.proper_singleton [c]) rfl
  | range c d => exact .primitive (Automaton.proper_ofRange c d) (ofRange_eq c d)
  | anyLetter => exact .primitive (Automaton.proper_ofRange _ _) (ofRange_eq _ _)
  | empty => exact .primitive Automaton.proper_empty rfl
  | literal w => exact .primitive (Automaton.proper_singleton w) rfl
  | anyWord => exact .primitive Automaton.proper_anyWord anyWord_eq
  | named name => exact .single ⟨rfl, fun n hn => by rw [← Option.some.inj hn], nofun⟩
  | interval lo hi digits =>
    exact .single (settles_ofFault (ofInterval_eq hfits.1 hfits.2)
      (succeeds_of_computes (Automaton.computes_ofInterval hfits.1 hfits.2)))

/-- What an expression is compiled to where no automata are held. -/
theorem fst_toAutomaton (options : Options) (hfits : e.Fits) :
    (e.toAutomaton options []).1 = (outcome options e).whole := by
  unfold Expr.toAutomaton
  rw [(settles_plan options (e.names.count ·) hfits).whole.run]

/-- An expression is compiled to a proper automaton, or its first name is undefined. -/
theorem toAutomaton_cases (options : Options) (hfits : e.Fits) :
    (e.names = [] ∧ ∃ a, (e.toAutomaton options []).1 = .ok a ∧ a.Proper) ∨
      ∃ name ∈ e.names.head?, (e.toAutomaton options []).1 = .error (.undefined name) := by
  have hsettles := (settles_plan options (e.names.count ·) hfits).whole
  rw [fst_toAutomaton options hfits]
  cases hnames : e.names with
  | nil => exact .inl ⟨rfl, hsettles.succeeds hnames⟩
  | cons name names => exact .inr ⟨name, rfl, hsettles.undefined name (by rw [hnames]; rfl)⟩

/-! ## Patterns -/

/-- Every pattern is compiled, under any options, without a check that fails and to the result
without checks: a malformed pattern is refused, the first name in a pattern is undefined, and
a pattern without names has a proper automaton. -/
theorem compile_total (pattern : Word) (options : Options) :
    compile pattern options = RegLang.compile pattern options ∧
    (∀ fault, compile pattern options ≠ .error (.fault fault)) ∧
    match Expr.parse pattern options.features with
    | .error e => RegLang.compile pattern options = .error (.malformed e)
    | .ok e =>
      match e.names with
      | [] => ∃ a, RegLang.compile pattern options = .ok a ∧ a.Proper
      | name :: _ => RegLang.compile pattern options = .error (.undefined name) := by
  unfold compile RegLang.compile compileWith
  cases hparse : Expr.parse pattern options.features with
  | error e => exact ⟨rfl, nofun, rfl⟩
  | ok e =>
    have hfits := (Expr.spells_of_parse hparse).fits
    have hsettles := (settles_plan options (e.names.count ·) hfits).whole
    dsimp only
    rw [fst_toAutomaton options hfits]
    cases hnames : e.names with
    | nil =>
      obtain ⟨a, hwhole, ha⟩ := hsettles.succeeds hnames
      obtain ⟨b, hfinish, hb⟩ := succeeds_finish options ha
      have hplain := (finish_eq options ha).symm.trans hfinish
      rw [hwhole]
      refine ⟨hfinish.trans hplain.symm, fun fault hfault => ?_, b, hplain, hb⟩
      cases hfinish.symm.trans hfault
    | cons name names =>
      rw [hsettles.undefined name (by rw [hnames]; rfl)]
      refine ⟨rfl, fun fault hfault => ?_, rfl⟩
      cases hfault

end Checked

end RegLang
