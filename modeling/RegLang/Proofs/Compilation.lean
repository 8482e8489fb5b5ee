import RegLang.Expr.Compile
import RegLang.Proofs.Intervals
import RegLang.Proofs.Iteration
import RegLang.Proofs.Primitives
import RegLang.Proofs.Product
/-!
# Compilation

A session serves a number of uses of each name: it has the automaton of the name with just that
number of uses left, or still holds it and no use was made of it yet.  Compiling a part of an
expression takes the occurrences of names in that part from what the session serves, and yields an
automaton of the language that the part denotes.

* `yields_fetch`: one occurrence of a name.
* `meets_plan`: an expression, as a whole and as operands.
* `Expr.toAutomaton_spec`: a compiled expression accepts the words that it denotes.
-/

namespace RegLang

open Computability

/-- The language of the automaton of a name; there are no words without one. -/
def Names.language (names : Names) (name : String) : Language Char :=
  match names.lookup name with
  | some a => a.language
  | none => 0

/-- Numeric intervals have their bounds in order, and the upper one fits into the width. -/
def Expr.Fits : Expr → Prop
  | union a b | concat a b | inter a b => a.Fits ∧ b.Fits
  | optional a | star a | atLeast a _ | repeated a _ _ | compl a => a.Fits
  | interval lo hi digits => lo ≤ hi ∧ (digits = 0 ∨ (Numeral.decimal hi).length ≤ digits)
  | _ => True

namespace Compile

variable {α β : Type} {env : String → Language Char} {uses need need₁ need₂ rest : String → Nat}
  {session : Session} {act : Action α} {f : α → Action β} {P : α → Prop} {Q : β → Prop}
  {l m : Language Char} {a : Automaton} {name n : String} {left : Nat} {options : Options}

/-! ## Sessions -/

/-- A proper automaton of a language. -/
def Stands (l : Language Char) (a : Automaton) : Prop := a.Proper ∧ a.language = l

/-- The session can serve `k` uses of a name: it has its automaton with that many left, or these
are all the uses there are and it still holds it. -/
def ServesName (env : String → Language Char) (uses : String → Nat) (session : Session)
    (name : String) (k : Nat) : Prop :=
  (∃ a, session.taken.lookup name = some (a, k) ∧ Stands (env name) a) ∨
  (session.taken.lookup name = none ∧ k = uses name ∧
    ∃ a, session.held.lookup name = some a ∧ Stands (env name) a)

/-- The session can serve so many uses of each name. -/
def Serves (env : String → Language Char) (uses need : String → Nat) (session : Session) : Prop :=
  ∀ name, need name ≠ 0 → ServesName env uses session name (need name)

/-- Served what it needs, the action succeeds with a result that satisfies `P`, and what else the
session serves it still does. -/
def Yields (env : String → Language Char) (uses need : String → Nat) (act : Action α)
    (P : α → Prop) : Prop :=
  ∀ rest session, Serves env uses (fun name => need name + rest name) session →
    ∃ x session', act.run.run session = (.ok x, session') ∧ P x ∧ Serves env uses rest session'

theorem Yields.pure {x : α} (h : P x) : Yields env uses (fun _ => 0) (Pure.pure x) P := by
  intro rest session hs
  refine ⟨x, session, rfl, h, ?_⟩
  simpa using hs

/-- What is needed by one action after the other adds up. -/
theorem Yields.bind (h : Yields env uses need₁ act P)
    (hf : ∀ x, P x → Yields env uses need₂ (f x) Q)
    (hneed : ∀ name, need name = need₁ name + need₂ name) : Yields env uses need (act >>= f) Q := by
  intro rest session hs
  have hsum : (fun name => need name + rest name) =
      fun name => need₁ name + (need₂ name + rest name) :=
    funext fun name => by rw [hneed, Nat.add_assoc]
  rw [hsum] at hs
  obtain ⟨x, session₁, hx, hP, hs₂⟩ := h _ session hs
  obtain ⟨y, session₂, hy, hQ, hs₃⟩ := hf x hP rest session₁ hs₂
  refine ⟨y, session₂, ?_, hQ, hs₃⟩
  rw [ExceptT.run_bind, StateT.run_bind, hx]
  exact hy

/-- Actions that follow need no names. -/
theorem Yields.map (h : Yields env uses need act P)
    (hf : ∀ x, P x → Yields env uses (fun _ => 0) (f x) Q) : Yields env uses need (act >>= f) Q :=
  h.bind hf fun _ => rfl

theorem yields_ofFault {r : Except Fault Automaton} (h : Automaton.Computes r l) :
    Yields env uses (fun _ => 0) (.ofFault r) (Stands l) := by
  obtain ⟨a, rfl, ha⟩ := h
  exact .pure ha

/-- An automaton stands for the same language whether it is minimized or not. -/
theorem computes_finished (options : Options) (ha : a.Proper) :
    Automaton.Computes (if options.minimize = true then a.minimize options.minimization else .ok a)
      a.language := by
  by_cases hm : options.minimize = true
  · rw [if_pos hm]
    exact Automaton.computes_minimize _ ha
  · rw [if_neg hm]
    exact .of_ok ha rfl

theorem yields_finish {r : Except Fault Automaton} (h : Automaton.Computes r l) :
    Yields env uses (fun _ => 0) (finish options r) (Stands l) := by
  apply yields_ofFault
  obtain ⟨a, rfl, ha, rfl⟩ := h
  exact computes_finished options ha

/-! ## Names -/

theorem lookup_filter_of_ne {β : Type} (xs : List (String × β)) (h : n ≠ name) :
    (xs.filter (·.1 != name)).lookup n = xs.lookup n := by
  induction xs with
  | nil => rfl
  | cons x xs ih =>
    obtain ⟨m, b⟩ := x
    by_cases hm : m = name
    · have hne : (n == m) = false := by
        rw [beq_eq_false_iff_ne, hm]
        exact h
      rw [List.filter_cons_of_neg (by simp [hm]), ih, List.lookup_cons, hne]
    · rw [List.filter_cons_of_pos (by simp [hm]), List.lookup_cons, List.lookup_cons, ih]

theorem lookup_use_of_ne (h : n ≠ name) :
    (session.use name a left).taken.lookup n = session.taken.lookup n := by
  have hne : (n == name) = false := beq_eq_false_iff_ne.2 h
  unfold Session.use
  dsimp only
  split
  · exact lookup_filter_of_ne _ h
  · rw [List.lookup_cons, hne]
    exact lookup_filter_of_ne _ h

theorem lookup_use_self (h : left - 1 ≠ 0) :
    (session.use name a left).taken.lookup name = some (a, left - 1) := by
  unfold Session.use
  dsimp only
  rw [if_neg h, List.lookup_cons, beq_self_eq_true]

theorem lookup_replace_of_ne (names : Names) (h : n ≠ name) :
    (names.replace name a).lookup n = names.lookup n := by
  unfold Names.replace
  induction names with
  | nil => rfl
  | cons x xs ih =>
    obtain ⟨m, b⟩ := x
    rw [List.map_cons]
    by_cases hm : m = name
    · have hne : (n == name) = false := beq_eq_false_iff_ne.2 h
      rw [if_pos hm, List.lookup_cons, List.lookup_cons, hm, hne]
      exact ih
    · rw [if_neg hm, List.lookup_cons, List.lookup_cons, ih]

/-- After one use the session serves the other uses, and other names as before. -/
theorem serves_use (ha : Stands (env name) a)
    (hother : ∀ n, n ≠ name → rest n ≠ 0 → ServesName env uses session n (rest n)) :
    Serves env uses rest (session.use name a (1 + rest name)) := by
  intro n hn
  by_cases hname : n = name
  · subst hname
    have hleft : 1 + rest n - 1 = rest n := Nat.add_sub_cancel_left _ _
    refine .inl ⟨a, ?_, ha⟩
    rw [lookup_use_self (by rwa [hleft]), hleft]
  · unfold ServesName
    rw [lookup_use_of_ne hname]
    exact hother n hname hn

theorem serves_others (hs : Serves env uses (fun n => [name].count n + rest n) session) :
    ∀ n, n ≠ name → rest n ≠ 0 → ServesName env uses session n (rest n) := by
  intro n hne hn
  have hzero : [name].count n = 0 := List.count_eq_zero.2 fun h => hne (List.mem_singleton.1 h)
  have h := hs n
  simp only [hzero, Nat.zero_add] at h
  exact h hn

theorem run_fetch_taken {handover : Handover}
    (h : session.taken.lookup name = some (a, left)) :
    (fetch handover uses name).run.run session = (.ok a, session.use name a left) := by
  have hget : (get : Action Session).run.run session = (.ok session, session) := rfl
  unfold fetch
  rw [ExceptT.run_bind, StateT.run_bind, hget]
  simp only [bind, h]
  rfl

theorem run_fetch_held {handover : Handover} (hnone : session.taken.lookup name = none)
    (h : session.held.lookup name = some a) :
    (fetch handover uses name).run.run session = (.ok (handover.acquire a).1,
      ({ session with held := session.held.replace name (handover.acquire a).2 } : Session).use
        name (handover.acquire a).1 (uses name)) := by
  have hget : (get : Action Session).run.run session = (.ok session, session) := rfl
  unfold fetch
  rw [ExceptT.run_bind, StateT.run_bind, hget]
  simp only [bind, h, hnone]
  rfl

/-- The automaton of a name, wherever the session has it. -/
theorem yields_fetch (handover : Handover) (name : String) :
    Yields env uses (fun n => [name].count n) (fetch handover uses name) (Stands (env name)) := by
  intro rest session hs
  have hother := serves_others hs
  have hself := hs name
  simp only [List.count_singleton_self] at hself
  rcases hself (by omega) with ⟨a, htaken, ha⟩ | ⟨htaken, hall, a, hheld, ha⟩
  · refine ⟨a, session.use name a (1 + rest name), ?_, ha, serves_use ha hother⟩
    exact run_fetch_taken htaken
  · have hgot : (handover.acquire a).1 = a := handover.acquire_fst a
    refine ⟨a, ({ session with
      held := session.held.replace name (handover.acquire a).2 } : Session).use name a
        (1 + rest name), ?_, ha, serves_use ha ?_⟩
    · rw [run_fetch_held htaken hheld, hgot, hall]
    · intro n hne hn
      unfold ServesName
      dsimp only
      rw [lookup_replace_of_ne _ hne]
      exact hother n hne hn

/-! ## Plans -/

/-- What the plan of an expression yields that denotes a language: an automaton of it, and operands
whose union or concatenation it is. -/
structure Meets (env : String → Language Char) (uses need : String → Nat) (p : Plan)
    (l : Language Char) : Prop where
  whole : Yields env uses need p.whole (Stands l)
  summands : Yields env uses need p.summands fun as =>
    (∀ a ∈ as, a.Proper) ∧ (as.map Automaton.language).sum = l
  factors : Yields env uses need p.factors fun as =>
    (∀ a ∈ as, a.Proper) ∧ (as.map Automaton.language).prod = l

variable {p q : Plan} {whole : Action Automaton} {parts parts' : Action (List Automaton)}

/-- An automaton by itself, as the only operand. -/
theorem yields_operand (combine : List (Language Char) → Language Char)
    (hone : ∀ l, combine [l] = l)
    (h : Yields env uses need whole (Stands l)) :
    Yields env uses need (do return [← whole]) fun as =>
      (∀ a ∈ as, a.Proper) ∧ combine (as.map Automaton.language) = l := by
  refine h.map fun a ha => .pure ⟨?_, ?_⟩
  · intro b hb
    rw [List.mem_singleton.1 hb]
    exact ha.1
  · rw [List.map_singleton, hone, ha.2]

/-- The operands of two operands. -/
theorem yields_operands (combine : List (Language Char) → Language Char)
    {op : Language Char → Language Char → Language Char}
    (happend : ∀ ls ms, combine (ls ++ ms) = op (combine ls) (combine ms))
    (hp : Yields env uses need₁ parts fun as =>
      (∀ a ∈ as, a.Proper) ∧ combine (as.map Automaton.language) = l)
    (hq : Yields env uses need₂ parts' fun as =>
      (∀ a ∈ as, a.Proper) ∧ combine (as.map Automaton.language) = m)
    (hneed : ∀ name, need name = need₁ name + need₂ name) :
    Yields env uses need (do return (← parts) ++ (← parts')) fun as =>
      (∀ a ∈ as, a.Proper) ∧ combine (as.map Automaton.language) = op l m := by
  refine hp.bind (fun as ha => hq.map fun bs hb => .pure ⟨?_, ?_⟩) hneed
  · intro a h
    exact (List.mem_append.1 h).elim (ha.1 a) (hb.1 a)
  · rw [List.map_append, happend, ha.2, hb.2]

/-- Operands, put together. -/
theorem yields_combined (options : Options) {combine : List (Language Char) → Language Char}
    {f : List Automaton → Except Fault Automaton}
    (hf : ∀ as : List Automaton, (∀ a ∈ as, a.Proper) →
      Automaton.Computes (f as) (combine (as.map Automaton.language)))
    (h : Yields env uses need parts fun as =>
      (∀ a ∈ as, a.Proper) ∧ combine (as.map Automaton.language) = l) :
    Yields env uses need (do finish options (f (← parts))) (Stands l) := by
  refine h.map fun as has => yields_finish ?_
  rw [← has.2]
  exact hf as has.1

theorem Meets.single (h : Yields env uses need whole (Stands l)) :
    Meets env uses need (.single whole) l :=
  ⟨h, yields_operand List.sum (fun _ => List.sum_singleton) h,
    yields_operand List.prod (fun _ => List.prod_singleton) h⟩

theorem Meets.pure (ha : Stands l a) : Meets env uses (fun _ => 0) (.single (return a)) l :=
  .single (.pure ha)

/-- An operation on automata that computes an operation on languages. -/
theorem Meets.unary {f : Automaton → Except Fault Automaton}
    (φ : Language Char → Language Char) (h : Meets env uses need p l)
    (hf : ∀ a, a.Proper → Automaton.Computes (f a) (φ a.language)) :
    Meets env uses need (.unary options p f) (φ l) := by
  refine .single (h.whole.map fun a ha => yields_finish ?_)
  rw [← ha.2]
  exact hf a ha.1

/-- The plan of an expression whose intervals fit yields what the expression denotes, and takes
each name as often as it occurs. -/
theorem meets_plan (options : Options) (uses : String → Nat) {e : Expr} (hfits : e.Fits) :
    Meets env uses (fun name => e.names.count name) (plan options uses e) (e.denote env) := by
  induction e with
  | union a b iha ihb =>
    have hparts := yields_operands List.sum (fun _ _ => List.sum_append)
      (iha hfits.1).summands (ihb hfits.2).summands fun name => List.count_append (a := name)
    have hwhole := yields_combined options (fun _ => Automaton.computes_union) hparts
    exact ⟨hwhole, hparts, yields_operand List.prod (fun _ => List.prod_singleton) hwhole⟩
  | concat a b iha ihb =>
    have hparts := yields_operands List.prod (fun _ _ => List.prod_append)
      (iha hfits.1).factors (ihb hfits.2).factors fun name => List.count_append (a := name)
    have hwhole := yields_combined options (fun _ => Automaton.computes_concatenate)
      hparts
    exact ⟨hwhole, yields_operand List.sum (fun _ => List.sum_singleton) hwhole, hparts⟩
  | inter a b iha ihb =>
    refine .single ((iha hfits.1).whole.bind (fun x hx => (ihb hfits.2).whole.map fun y hy =>
      yields_finish ?_) fun name => List.count_append (a := name))
    have h := Automaton.computes_intersection hx.1 hy.1
    rw [hx.2, hy.2] at h
    exact h
  | optional a ih => exact (ih hfits).unary (· + 1) fun _ => Automaton.computes_optional
  | star a ih => exact (ih hfits).unary (·∗) fun _ => Automaton.computes_star
  | atLeast a k ih =>
    exact (ih hfits).unary (fun l => l ^ k * l∗) fun _ ha => Automaton.computes_atLeast ha k
  | repeated a lo hi ih =>
    exact (ih hfits).unary (powersBetween · lo hi) fun _ ha =>
      Automaton.computes_repeated ha lo hi
  | compl a ih => exact (ih hfits).unary (·ᶜ) fun _ => Automaton.computes_complement
  | letter c => exact .pure ⟨Automaton.proper_singleton [c], rfl⟩
  | range c d => exact .pure ⟨Automaton.proper_ofRange c d, Automaton.language_ofRange c d⟩
  | anyLetter => exact .pure ⟨Automaton.proper_ofRange _ _, Automaton.language_ofRange _ _⟩
  | empty => exact .pure ⟨Automaton.proper_empty, Automaton.language_empty⟩
  | literal w => exact .pure ⟨Automaton.proper_singleton w, rfl⟩
  | anyWord => exact .pure ⟨Automaton.proper_anyWord, Automaton.language_anyWord⟩
  | named name => exact .single (yields_fetch options.handover name)
  | interval lo hi digits =>
    exact .single (yields_ofFault (Automaton.computes_ofInterval hfits.1 hfits.2))

end Compile

/-! ## Compiled expressions -/

namespace Expr

variable {e : Expr} {names : Names}

/-- A session that has made no use of any name yet serves all uses of the names of an
expression. -/
theorem serves_start (hnames : ∀ name ∈ e.names, ∃ a, names.lookup name = some a ∧ a.Proper) :
    Compile.Serves names.language (e.names.count ·) (fun name => e.names.count name + 0)
      ⟨names, []⟩ := by
  intro name hname
  have hmem : name ∈ e.names := List.count_pos_iff.1 (Nat.pos_of_ne_zero hname)
  obtain ⟨a, ha, hproper⟩ := hnames name hmem
  refine .inr ⟨rfl, rfl, a, ha, hproper, ?_⟩
  unfold Names.language
  rw [ha]

theorem exists_toAutomaton (options : Options) (hfits : e.Fits)
    (hnames : ∀ name ∈ e.names, ∃ a, names.lookup name = some a ∧ a.Proper) :
    ∃ a, (e.toAutomaton options names).1 = .ok a ∧ a.Proper ∧
      a.language = e.denote names.language := by
  obtain ⟨a, session, hrun, ha, _⟩ :=
    (Compile.meets_plan options (e.names.count ·) hfits).whole (fun _ => 0) ⟨names, []⟩
      (serves_start hnames)
  refine ⟨a, ?_, ha⟩
  unfold toAutomaton
  rw [hrun]

/-- A pattern is compiled as the expression that it is read as. -/
theorem compile_of_parse {pattern : Word} {options : Options}
    (hparse : Expr.parse pattern options.features = .ok e) :
    compile pattern options = (e.toAutomaton options []).1.bind fun a =>
      if options.minimize = true then (a.minimize options.minimization).mapError .fault
      else .ok a := by
  unfold compile compileWith
  rw [hparse]

/-- A pattern that is read as an expression without names is compiled to a proper automaton of
what the expression denotes. -/
theorem exists_compile {pattern : Word} {options : Options}
    (hparse : Expr.parse pattern options.features = .ok e) (hfits : e.Fits) (hnone : e.names = []) :
    ∃ a, compile pattern options = .ok a ∧ a.Proper ∧
      a.language = e.denote (Names.language []) := by
  have hnames : ∀ name ∈ e.names, ∃ a, List.lookup name ([] : Names) = some a ∧ a.Proper := by
    simp [hnone]
  obtain ⟨a, ha, hproper, hl⟩ := exists_toAutomaton options hfits hnames
  obtain ⟨b, hb, hproper', hl'⟩ := Compile.computes_finished options hproper
  refine ⟨b, ?_, hproper', hl'.trans hl⟩
  rw [compile_of_parse hparse, ha]
  show (if options.minimize = true then
    (a.minimize options.minimization).mapError CompileError.fault else .ok a) = .ok b
  by_cases hm : options.minimize = true
  · rw [if_pos hm] at hb ⊢
    exact mapError_eq_ok.2 hb
  · rw [if_neg hm] at hb ⊢
    cases hb
    rfl

open Classical in
/-- An expression whose intervals fit and whose names have proper automata is compiled, under any
options, to a proper automaton that accepts the words that the expression denotes and no others. -/
theorem toAutomaton_spec (options : Options) (hfits : e.Fits)
    (hnames : ∀ name ∈ e.names, ∃ a, names.lookup name = some a ∧ a.Proper) :
    ∃ a, (e.toAutomaton options names).1 = .ok a ∧ a.Proper ∧
      ∀ w, a.run w = .ok (decide (w ∈ e.denote names.language)) := by
  obtain ⟨a, ha, hproper, hl⟩ := exists_toAutomaton options hfits hnames
  refine ⟨a, ha, hproper, fun w => ?_⟩
  rw [Automaton.run_eq_decide hproper.wellFormed hproper.truthful, ← hl]
  rfl

/-- A name that occurs twice, or a number. -/
def twice : Expr := .union (.concat (.named "x") (.named "x")) (.interval 0 9 0)

open Classical in
theorem toAutomaton_spec_twice : twice.Fits ∧
    (∀ name ∈ twice.names, ∃ a, List.lookup name [("x", Automaton.singleton ['a'])] = some a ∧
      a.Proper) ∧
    ∃ a, (twice.toAutomaton {} [("x", Automaton.singleton ['a'])]).1 = .ok a ∧ a.Proper ∧
      ∀ w, a.run w =
        .ok (decide (w ∈ twice.denote (Names.language [("x", Automaton.singleton ['a'])]))) := by
  have hfits : twice.Fits := ⟨⟨trivial, trivial⟩, by decide, .inl rfl⟩
  have hnames : ∀ name ∈ twice.names,
      ∃ a, List.lookup name [("x", Automaton.singleton ['a'])] = some a ∧ a.Proper := by
    intro name hname
    have hx : name = "x" := by simpa [twice, names] using hname
    subst hx
    exact ⟨_, rfl, Automaton.proper_singleton ['a']⟩
  exact ⟨hfits, hnames, toAutomaton_spec {} hfits hnames⟩

end Expr

end RegLang
