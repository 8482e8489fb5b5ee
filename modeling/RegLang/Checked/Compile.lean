import RegLang.Checked.Interval
import RegLang.Expr.Compile
/-!
# Compilation with checks

A pattern is compiled by operations with checks, without automata to name: where a name is met it
is undefined.
-/

namespace RegLang.Checked

/-- What becomes of an expression: as a whole, as the operands of a union, or as the factors of a
concatenation. -/
structure Outcome where
  whole : Except CompileError Automaton
  summands : Except CompileError (List Automaton)
  factors : Except CompileError (List Automaton)

/-- The outcome of an expression that is its only operand. -/
def Outcome.single (whole : Except CompileError Automaton) : Outcome :=
  ⟨whole, return [← whole], return [← whole]⟩

/-- Minimizes an automaton if that is asked for. -/
def finish (options : Options) (r : Except Fault Automaton) : Except CompileError Automaton :=
  (r.bind fun a => if options.minimize then minimize options.minimization a else .ok a).mapError
    .fault

/-- The outcome of an expression with one operand. -/
def Outcome.unary (options : Options) (o : Outcome) (f : Automaton → Except Fault Automaton) :
    Outcome :=
  .single do finish options (f (← o.whole))

/-- The outcome of a primitive expression. -/
def Outcome.primitive (r : Except Fault Automaton) : Outcome := .single (r.mapError .fault)

def outcome (options : Options) : Expr → Outcome
  | .union a b =>
    let p := outcome options a
    let q := outcome options b
    let parts : Except CompileError (List Automaton) := do return (← p.summands) ++ (← q.summands)
    let whole : Except CompileError Automaton := do finish options (union (← parts))
    ⟨whole, parts, return [← whole]⟩
  | .concat a b =>
    let p := outcome options a
    let q := outcome options b
    let parts : Except CompileError (List Automaton) := do return (← p.factors) ++ (← q.factors)
    let whole : Except CompileError Automaton := do finish options (concatenate (← parts))
    ⟨whole, return [← whole], parts⟩
  | .inter a b =>
    let p := outcome options a
    let q := outcome options b
    .single do
      let x ← p.whole
      let y ← q.whole
      finish options (intersection x y)
  | .optional a => .unary options (outcome options a) optional
  | .star a => .unary options (outcome options a) star
  | .atLeast a n => .unary options (outcome options a) (atLeast · n)
  | .repeated a lo hi => .unary options (outcome options a) (repeated · lo hi)
  | .compl a => .unary options (outcome options a) complement
  | .letter c => .primitive (.ok (.ofLetter c))
  | .range c d => .primitive (ofRange c d)
  | .anyLetter => .primitive (ofRange Alphabet.first Alphabet.last)
  | .empty => .primitive (.ok .empty)
  | .literal w => .primitive (.ok (.ofWord w))
  | .anyWord => .primitive anyWord
  | .named name => .single (.error (.undefined name))
  | .interval lo hi digits => .primitive (ofInterval lo hi digits)

/-- The automaton of a pattern that names no automata, minimized at the end unless that is turned
off. -/
def compile (pattern : Word) (options : Options) : Except CompileError Automaton :=
  match Expr.parse pattern options.features with
  | .error e => .error (.malformed e)
  | .ok e => do finish options (.ok (← (outcome options e).whole))

end RegLang.Checked
