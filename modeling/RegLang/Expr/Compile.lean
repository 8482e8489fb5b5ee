import RegLang.Automaton.Iterate
import RegLang.Automaton.Product
import RegLang.Expr.Parser
import RegLang.Primitive.Basic
import RegLang.Primitive.Interval
/-!
# From expressions to automata

An expression is compiled from its leaves upwards; unions and concatenations are made of all their
operands at once.  Automata that are named in the expression are held by a list of names.  Each is
taken from its holder where it is met first and serves all occurrences of its name; these are
counted down, and with the last one it is dropped.
-/

namespace RegLang

/-- Why there is no automaton. -/
inductive CompileError where
  | malformed (e : SyntaxError)
  | undefined (name : String)
  | fault (f : Fault)
deriving DecidableEq

/-- The text of an error; a fault may have none. -/
def CompileError.message? : CompileError → Option String
  | malformed e => some s!"syntax error: {e.text}"
  | undefined name => some s!"automaton '{name}' not found"
  | fault f => f.message?

/-- Automata by name. -/
abbrev Names := List (String × Automaton)

/-- Puts another automaton under a name that is there. -/
def Names.replace (names : Names) (name : String) (a : Automaton) : Names :=
  names.map fun p => if p.1 = name then (name, a) else p

namespace Compile

/-- The automata still held, and those taken from the holder with the number of times that each is
still to be used. -/
structure Session where
  held : Names
  taken : List (String × Automaton × Nat) := []

/-- Uses a taken automaton that is still to be used `left` times, this time included. -/
def Session.use (session : Session) (name : String) (a : Automaton) (left : Nat) : Session :=
  let others := session.taken.filter (·.1 != name)
  { session with taken := if left - 1 = 0 then others else (name, a, left - 1) :: others }

/-- A computation that may fail; the session goes on with what was done before the failure. -/
abbrev Action (α : Type) := ExceptT CompileError (StateM Session) α

/-- The result of an operation on automata. -/
def Action.ofFault {α : Type} (r : Except Fault α) : Action α :=
  match r with
  | .ok a => pure a
  | .error f => throw (.fault f)

/-- The automaton of a name that is used so many times in all. -/
def fetch (handover : Handover) (uses : String → Nat) (name : String) : Action Automaton := do
  let session ← get
  match session.taken.lookup name with
  | some (a, left) =>
    set (session.use name a left)
    return a
  | none =>
    match session.held.lookup name with
    | some a =>
      let (got, rest) := handover.acquire a
      set (({ session with held := session.held.replace name rest } : Session).use name got
        (uses name))
      return got
    | none => throw (.undefined name)

/-- Minimizes an intermediate automaton if that is asked for. -/
def finish (options : Options) (r : Except Fault Automaton) : Action Automaton :=
  .ofFault (r.bind fun a => if options.minimize then a.minimize options.minimization else .ok a)

/-- How to compile an expression: as a whole, as the operands of a union, or as the factors of a
concatenation. -/
structure Plan where
  whole : Action Automaton
  summands : Action (List Automaton)
  factors : Action (List Automaton)

/-- The plan of an expression that is its only operand. -/
def Plan.single (whole : Action Automaton) : Plan :=
  ⟨whole, return [← whole], return [← whole]⟩

/-- The plan of an expression with one operand. -/
def Plan.unary (options : Options) (p : Plan) (f : Automaton → Except Fault Automaton) : Plan :=
  .single do finish options (f (← p.whole))

/-- The plan of an expression that is part of one with so many uses of each name. -/
def plan (options : Options) (uses : String → Nat) : Expr → Plan
  | .union a b =>
    let p := plan options uses a
    let q := plan options uses b
    let parts : Action (List Automaton) := do return (← p.summands) ++ (← q.summands)
    let whole : Action Automaton := do finish options (Automaton.union (← parts))
    ⟨whole, parts, return [← whole]⟩
  | .concat a b =>
    let p := plan options uses a
    let q := plan options uses b
    let parts : Action (List Automaton) := do return (← p.factors) ++ (← q.factors)
    let whole : Action Automaton := do finish options (Automaton.concatenate (← parts))
    ⟨whole, return [← whole], parts⟩
  | .inter a b =>
    let p := plan options uses a
    let q := plan options uses b
    .single do
      let x ← p.whole
      let y ← q.whole
      finish options (x.intersection y)
  | .optional a => .unary options (plan options uses a) Automaton.optional
  | .star a => .unary options (plan options uses a) Automaton.star
  | .atLeast a n => .unary options (plan options uses a) (·.atLeast n)
  | .repeated a lo hi => .unary options (plan options uses a) (·.repeated lo hi)
  | .compl a => .unary options (plan options uses a) Automaton.complement
  | .letter c => .single (return .ofLetter c)
  | .range c d => .single (return .ofRange c d)
  | .anyLetter => .single (return .anyLetter)
  | .empty => .single (return .empty)
  | .literal w => .single (return .ofWord w)
  | .anyWord => .single (return .anyWord)
  | .named name => .single (fetch options.handover uses name)
  | .interval lo hi digits => .single (.ofFault (Automaton.ofInterval lo hi digits))

end Compile

/-- The automaton of an expression with the automata held under names, and what is held
afterwards. -/
def Expr.toAutomaton (e : Expr) (options : Options) (names : Names) :
    Except CompileError Automaton × Names :=
  let (result, session) := (Compile.plan options (e.names.count ·) e).whole.run.run ⟨names, []⟩
  (result, session.held)

/-- The automaton of a pattern, minimized at the end unless that is turned off, and what is held
afterwards. -/
def compileWith (pattern : Word) (options : Options) (names : Names) :
    Except CompileError Automaton × Names :=
  match Expr.parse pattern options.features with
  | .error e => (.error (.malformed e), names)
  | .ok e =>
    let (result, names) := e.toAutomaton options names
    let final := result.bind fun a =>
      if options.minimize then (a.minimize options.minimization).mapError .fault else .ok a
    (final, names)

/-- The automaton of a pattern that names no automata. -/
def compile (pattern : Word) (options : Options) : Except CompileError Automaton :=
  (compileWith pattern options []).1

end RegLang
