import RegLang.Proofs.Compilation
/-!
# Handing over automata

An automaton that a pattern names is taken from its holder where the name is met first; the holder
keeps it or is left without it, and later occurrences of the name are served from what was taken.
Two compilations that differ in nothing but what the holder keeps go on side by side: they have
taken the same automata with the same number of uses left, namely those of the names that were met
and will be met again.  So they give the same result.

* `Level`: two sessions side by side, after so many names.
* `agrees_fetch`: one more name.
* `agrees_plan`: the names of an expression, from left to right.
* `compileWith_handover`: whole patterns.
-/

namespace RegLang

namespace Compile

/-! ## Definitions -/

/-- Two sessions after the names that were met, one of a holder that keeps its automata and one of a
holder that gives them away. -/
structure Level (names : Names) (uses : String → Nat) (seen : List String) (s t : Session) :
    Prop where
  present : ∀ n ∈ seen, (names.lookup n).isSome
  kept : ∀ n, s.held.lookup n = names.lookup n
  given : ∀ n, t.held.lookup n = if n ∈ seen then some .empty else names.lookup n
  same : ∀ n, s.taken.lookup n = t.taken.lookup n
  /-- Taken are the automata of the names that were met and will be met again. -/
  taken : ∀ n, t.taken.lookup n = if 0 < seen.count n ∧ seen.count n < uses n then
    (names.lookup n).map (·, uses n - seen.count n) else none

/-- How two runs end that were side by side and meet the names `xs`. -/
inductive Ends {α : Type} (names : Names) (uses : String → Nat) (seen xs : List String) :
    Except CompileError α × Session → Except CompileError α × Session → Prop where
  | done (x : α) (level : Level names uses (seen ++ xs) s t) :
      Ends names uses seen xs (.ok x, s) (.ok x, t)
  | undefined (first : xs.find? (fun n => (names.lookup n).isNone) = some name)
      (kept : ∀ n, s.held.lookup n = names.lookup n) :
      Ends names uses seen xs (.error (.undefined name), s) (.error (.undefined name), t)
  | fault (error : Fault) (kept : ∀ n, s.held.lookup n = names.lookup n) :
      Ends names uses seen xs (.error (.fault error), s) (.error (.fault error), t)

/-- Side by side the two actions give the same result, and meet the names `xs`. -/
def Agrees {α : Type} (names : Names) (uses : String → Nat) (xs : List String)
    (act act' : Action α) : Prop :=
  ∀ seen s t, Level names uses seen s t → (∀ n, (seen ++ xs).count n ≤ uses n) →
    Ends names uses seen xs (act.run.run s) (act'.run.run t)

variable {α β : Type} {names : Names} {uses : String → Nat} {seen xs ys : List String}
  {s t session : Session} {act act' : Action α} {f f' : α → Action β} {a : Automaton}
  {name n : String} {left : Nat} {options : Options}

/-! ## Actions one after another -/

theorem Agrees.pure (x : α) : Agrees names uses [] (Pure.pure x) (Pure.pure x) := by
  intro seen s t level _
  exact .done x (by rwa [List.append_nil])

theorem agrees_ofFault (r : Except Fault α) :
    Agrees names uses [] (.ofFault r) (.ofFault r) := by
  cases r with
  | ok x => exact .pure x
  | error e =>
    intro seen s t level _
    exact .fault e level.kept

theorem Level.find?_lacking (level : Level names uses (seen ++ xs) s t) :
    xs.find? (fun n => (names.lookup n).isNone) = none := by
  refine List.find?_eq_none.2 fun n hn hnone => ?_
  have hsome := level.present n (List.mem_append_right seen hn)
  rw [Option.isNone_iff_eq_none.1 hnone] at hsome
  cases hsome

/-- The names that are met first come first. -/
theorem Agrees.bind (h : Agrees names uses xs act act')
    (hf : ∀ x, Agrees names uses ys (f x) (f' x)) :
    Agrees names uses (xs ++ ys) (act >>= f) (act' >>= f') := by
  intro seen s t level hcount
  have hcount₁ : ∀ n, (seen ++ xs).count n ≤ uses n := by
    intro n
    have := hcount n
    simp only [List.count_append] at this ⊢
    omega
  rw [ExceptT.run_bind, StateT.run_bind, ExceptT.run_bind, StateT.run_bind]
  have hends := h seen s t level hcount₁
  generalize act.run.run s = r, act'.run.run t = r' at hends ⊢
  cases hends with
  | @done s₁ t₁ x level₁ =>
    have hends := hf x (seen ++ xs) s₁ t₁ level₁ (by rwa [List.append_assoc])
    show Ends names uses seen (xs ++ ys) ((f x).run.run s₁) ((f' x).run.run t₁)
    generalize (f x).run.run s₁ = r, (f' x).run.run t₁ = r' at hends ⊢
    cases hends with
    | done y level₂ => exact .done y (by rwa [← List.append_assoc])
    | undefined first kept =>
      refine .undefined ?_ kept
      rwa [List.find?_append, level₁.find?_lacking, Option.none_or]
    | fault error kept => exact .fault error kept
  | undefined first kept =>
    refine .undefined ?_ kept
    rw [List.find?_append, first, Option.some_or]
  | fault error kept => exact .fault error kept

/-- Actions that follow meet no names. -/
theorem Agrees.map (h : Agrees names uses xs act act')
    (hf : ∀ x, Agrees names uses [] (f x) (f' x)) :
    Agrees names uses xs (act >>= f) (act' >>= f') := by
  simpa using h.bind hf

/-! ## Names -/

theorem lookup_filter_self {β : Type} (xs : List (String × β)) :
    (xs.filter (·.1 != name)).lookup name = none := by
  refine List.lookup_eq_none_iff.2 fun x hx => ?_
  have hne : x.1 ≠ name := by simpa using (List.mem_filter.1 hx).2
  simpa using fun h : name = x.1 => hne h.symm

/-- What is taken after one use of a name. -/
theorem lookup_use (n : String) : (session.use name a left).taken.lookup n =
    if n = name then (if left - 1 = 0 then none else some (a, left - 1))
    else session.taken.lookup n := by
  by_cases hn : n = name
  · subst hn
    rw [if_pos rfl]
    split
    · next hlast =>
      unfold Session.use
      dsimp only
      rw [if_pos hlast]
      exact lookup_filter_self _
    · next hleft => exact lookup_use_self hleft
  · rw [if_neg hn]
    exact lookup_use_of_ne hn

theorem lookup_replace_self (names : Names) (name : String) (a : Automaton) :
    (names.replace name a).lookup name = (names.lookup name).map fun _ => a := by
  unfold Names.replace
  induction names with
  | nil => rfl
  | cons x xs ih =>
    obtain ⟨m, b⟩ := x
    rw [List.map_cons]
    by_cases hm : m = name
    · rw [if_pos hm, List.lookup_cons, List.lookup_cons, hm, beq_self_eq_true]
      rfl
    · have hne : (name == m) = false := beq_eq_false_iff_ne.2 (Ne.symm hm)
      rw [if_neg hm, List.lookup_cons, List.lookup_cons, hne]
      exact ih

theorem lookup_replace (names : Names) (name : String) (a : Automaton) (n : String) :
    (names.replace name a).lookup n =
      if n = name then (names.lookup name).map fun _ => a else names.lookup n := by
  by_cases hn : n = name
  · subst hn
    rw [if_pos rfl, lookup_replace_self]
  · rw [if_neg hn, lookup_replace_of_ne names hn]

theorem run_fetch_none {handover : Handover} (hnone : session.taken.lookup name = none)
    (h : session.held.lookup name = none) :
    (fetch handover uses name).run.run session = (.error (.undefined name), session) := by
  have hget : (get : Action Session).run.run session = (.ok session, session) := rfl
  unfold fetch
  rw [ExceptT.run_bind, StateT.run_bind, hget]
  simp only [bind, h, hnone]
  rfl

/-- After one more use of a name that is held, the automaton is taken once less. -/
theorem Level.use (level : Level names uses seen s t) (ha : names.lookup name = some a)
    (hlt : seen.count name < uses name) {s' t' : Session} (hs : s'.taken = s.taken)
    (ht : t'.taken = t.taken) (kept : ∀ n, s'.held.lookup n = names.lookup n)
    (given : ∀ n, t'.held.lookup n = if n ∈ seen ++ [name] then some .empty else names.lookup n) :
    Level names uses (seen ++ [name]) (s'.use name a (uses name - seen.count name))
      (t'.use name a (uses name - seen.count name)) := by
  refine ⟨fun n hn => ?_, kept, given, fun n => ?_, fun n => ?_⟩
  · rcases List.mem_append.1 hn with hn | hn
    · exact level.present n hn
    · rw [List.mem_singleton.1 hn, ha]
      rfl
  · rw [lookup_use, lookup_use, hs, ht, level.same]
  · rw [lookup_use, ht, level.taken, List.count_append]
    by_cases hn : n = name
    · subst hn
      rw [if_pos rfl, List.count_singleton_self, ha]
      by_cases hlast : uses n - seen.count n - 1 = 0
      · rw [if_pos hlast, if_neg (by omega)]
      · rw [if_neg hlast, if_pos (by omega), Option.map_some, Nat.sub_sub]
    · have hzero : [name].count n = 0 := List.count_eq_zero.2 fun h => hn (List.mem_singleton.1 h)
      rw [if_neg hn, hzero, Nat.add_zero]

/-- The first occurrence of a name takes its automaton from the holder, the others take what was
taken. -/
theorem agrees_fetch (name : String) :
    Agrees names uses [name] (fetch .copy uses name) (fetch .move uses name) := by
  intro seen s t level hcount
  have hlt : seen.count name < uses name := by
    have := hcount name
    rw [List.count_append, List.count_singleton_self] at this
    omega
  have htaken := level.taken name
  by_cases hmem : name ∈ seen
  · obtain ⟨a, ha⟩ := Option.isSome_iff_exists.1 (level.present name hmem)
    rw [if_pos ⟨List.count_pos_iff.2 hmem, hlt⟩, ha, Option.map_some] at htaken
    rw [run_fetch_taken ((level.same name).trans htaken), run_fetch_taken htaken]
    refine .done a (level.use ha hlt rfl rfl level.kept fun n => ?_)
    have hseen : n ∈ seen ++ [name] ↔ n ∈ seen :=
      ⟨fun h => (List.mem_append.1 h).elim id fun h => List.mem_singleton.1 h ▸ hmem,
        List.mem_append_left [name]⟩
    rw [level.given]
    simp only [hseen]
  · have hzero : seen.count name = 0 := List.count_eq_zero.2 hmem
    rw [if_neg (by omega)] at htaken
    have hgiven := level.given name
    rw [if_neg hmem] at hgiven
    cases ha : names.lookup name with
    | none =>
      rw [run_fetch_none ((level.same name).trans htaken) ((level.kept name).trans ha),
        run_fetch_none htaken (hgiven.trans ha)]
      exact .undefined (by simp [ha]) level.kept
    | some a =>
      rw [run_fetch_held ((level.same name).trans htaken) ((level.kept name).trans ha),
        run_fetch_held htaken (hgiven.trans ha)]
      have hleft : uses name = uses name - seen.count name := by omega
      rw [hleft]
      refine .done a (level.use ha hlt rfl rfl (fun n => ?_) fun n => ?_)
      · show List.lookup n (Names.replace s.held name a) = _
        rw [lookup_replace, level.kept, level.kept, ha]
        split
        · next hn => rw [hn, ha, Option.map_some]
        · rfl
      · show List.lookup n (Names.replace t.held name .empty) = _
        rw [lookup_replace, hgiven, ha, level.given]
        by_cases hn : n = name
        · simp [hn]
        · simp [hn]

/-! ## Plans -/

/-- Side by side two plans of an expression give the same automata, and meet its names. -/
structure AgreeingPlans (names : Names) (uses : String → Nat) (xs : List String) (p q : Plan) :
    Prop where
  whole : Agrees names uses xs p.whole q.whole
  summands : Agrees names uses xs p.summands q.summands
  factors : Agrees names uses xs p.factors q.factors

variable {p q p₁ q₁ p₂ q₂ : Plan}

theorem agrees_operand {whole whole' : Action Automaton} (h : Agrees names uses xs whole whole') :
    Agrees names uses xs (do return [← whole]) (do return [← whole']) :=
  h.map fun a => .pure [a]

theorem agrees_operands {parts₁ parts₁' parts₂ parts₂' : Action (List Automaton)}
    (h₁ : Agrees names uses xs parts₁ parts₁') (h₂ : Agrees names uses ys parts₂ parts₂') :
    Agrees names uses (xs ++ ys) (do return (← parts₁) ++ (← parts₂))
      (do return (← parts₁') ++ (← parts₂')) :=
  h₁.bind fun as => h₂.map fun bs => .pure (as ++ bs)

theorem AgreeingPlans.single {whole whole' : Action Automaton}
    (h : Agrees names uses xs whole whole') :
    AgreeingPlans names uses xs (.single whole) (.single whole') :=
  ⟨h, agrees_operand h, agrees_operand h⟩

theorem AgreeingPlans.leaf (r : Except Fault Automaton) :
    AgreeingPlans names uses [] (.single (.ofFault r)) (.single (.ofFault r)) :=
  .single (agrees_ofFault r)

theorem AgreeingPlans.unary (h : AgreeingPlans names uses xs p q)
    (op : Automaton → Except Fault Automaton) :
    AgreeingPlans names uses xs (.unary options p op) (.unary options q op) :=
  .single (h.whole.map fun _ => agrees_ofFault _)

/-- The plans of an expression for a holder that keeps its automata and for one that does not. -/
theorem agrees_plan (options : Options) (e : Expr) :
    AgreeingPlans names uses e.names (plan { options with handover := .copy } uses e)
      (plan { options with handover := .move } uses e) := by
  induction e with
  | union a b iha ihb =>
    have hparts := agrees_operands iha.summands ihb.summands
    have hwhole := hparts.map fun as =>
      agrees_ofFault ((Automaton.union as).bind fun a =>
        if options.minimize then a.minimize options.minimization else .ok a)
    exact ⟨hwhole, hparts, agrees_operand hwhole⟩
  | concat a b iha ihb =>
    have hparts := agrees_operands iha.factors ihb.factors
    have hwhole := hparts.map fun as =>
      agrees_ofFault ((Automaton.concatenate as).bind fun a =>
        if options.minimize then a.minimize options.minimization else .ok a)
    exact ⟨hwhole, agrees_operand hwhole, hparts⟩
  | inter a b iha ihb =>
    exact .single (iha.whole.bind fun x => ihb.whole.map fun y => agrees_ofFault _)
  | optional a ih => exact ih.unary Automaton.optional
  | star a ih => exact ih.unary Automaton.star
  | atLeast a n ih => exact ih.unary (·.atLeast n)
  | repeated a lo hi ih => exact ih.unary (·.repeated lo hi)
  | compl a ih => exact ih.unary Automaton.complement
  | letter c => exact .leaf (.ok _)
  | range c d => exact .leaf (.ok _)
  | anyLetter => exact .leaf (.ok _)
  | empty => exact .leaf (.ok _)
  | literal w => exact .leaf (.ok _)
  | anyWord => exact .leaf (.ok _)
  | named name => exact .single (agrees_fetch name)
  | interval lo hi digits => exact .leaf (Automaton.ofInterval lo hi digits)

theorem level_start (names : Names) (uses : String → Nat) :
    Level names uses [] ⟨names, []⟩ ⟨names, []⟩ :=
  ⟨nofun, fun _ => rfl, fun _ => rfl, fun _ => rfl, fun n => by simp⟩

end Compile

/-! ## Compiled patterns -/

/-- The two runs of an expression, from the automata under names. -/
theorem Expr.ends_whole (options : Options) (e : Expr) (names : Names) :
    Compile.Ends names (e.names.count ·) [] e.names
      ((Compile.plan { options with handover := .copy } (e.names.count ·) e).whole.run.run
        ⟨names, []⟩)
      ((Compile.plan { options with handover := .move } (e.names.count ·) e).whole.run.run
        ⟨names, []⟩) :=
  (Compile.agrees_plan options e).whole [] _ _ (Compile.level_start names _) fun _ => Nat.le_refl _

/-- Only a fault can stop the last step of a compilation. -/
theorem fault_of_minimized {a : Automaton} {options : Options} {err : CompileError}
    (h : (if options.minimize = true then
      (a.minimize options.minimization).mapError CompileError.fault else .ok a) = .error err) :
    ∃ fault, err = .fault fault := by
  split at h
  · cases hm : a.minimize options.minimization with
    | error fault =>
      rw [hm] at h
      cases h
      exact ⟨fault, rfl⟩
    | ok b =>
      rw [hm] at h
      cases h
  · cases h

/-- Compiling a pattern gives the same result whether the holder keeps its automata or not.  A
holder that keeps them has them afterwards.  One that gives them away is left with the empty
language under the names of the pattern, if that is compiled, and with all others as they were; a
pattern that is malformed takes nothing.  A name that is missed is the first in the pattern that the
holder does not have. -/
theorem compileWith_handover (pattern : Word) (options : Options) (names : Names) :
    let copied := compileWith pattern { options with handover := .copy } names
    let moved := compileWith pattern { options with handover := .move } names
    copied.1 = moved.1 ∧ (∀ n, copied.2.lookup n = names.lookup n) ∧
      match Expr.parse pattern options.features with
      | .error e => copied = (.error (.malformed e), names) ∧ moved = (.error (.malformed e), names)
      | .ok e =>
        match moved.1 with
        | .ok _ => ∀ n, moved.2.lookup n = if n ∈ e.names then some .empty else names.lookup n
        | .error (.undefined name) => e.names.find? (fun n => (names.lookup n).isNone) = some name
        | .error (.malformed _) => False
        | .error (.fault _) => True := by
  unfold compileWith
  cases Expr.parse pattern options.features with
  | error e => exact ⟨rfl, fun _ => rfl, rfl, rfl⟩
  | ok e =>
    have hends := e.ends_whole options names
    dsimp only [Expr.toAutomaton]
    generalize (Compile.plan { options with handover := .copy } (e.names.count ·) e).whole.run.run
      ⟨names, []⟩ = copied,
      (Compile.plan { options with handover := .move } (e.names.count ·) e).whole.run.run
      ⟨names, []⟩ = moved at hends ⊢
    cases hends with
    | undefined first kept => exact ⟨rfl, kept, first⟩
    | fault error kept => exact ⟨rfl, kept, trivial⟩
    | @done s t a level =>
      refine ⟨rfl, level.kept, ?_⟩
      dsimp only [Except.bind]
      split
      · exact level.given
      · next herr => exact absurd (fault_of_minimized herr).choose_spec nofun
      · next herr => exact absurd (fault_of_minimized herr).choose_spec nofun
      · trivial

end RegLang
