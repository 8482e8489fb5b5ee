import RegLang.Expr.Compile
import RegLang.Random.Walk
/-!
# Samplers

A pattern ready to draw words from and to test words with.  Patterns match whole words, so one
leading caret and one trailing dollar sign are dropped; a dollar sign behind a backslash that is
not itself escaped is kept.
-/

namespace RegLang

/-- A pattern with its minimal automaton. -/
structure Sampler where
  pattern : Word
  automaton : Automaton

namespace Sampler

/-- The pattern without a caret at its beginning. -/
def dropCaret : Word → Word
  | '^' :: w => w
  | w => w

/-- Number of backslashes at the end of a pattern. -/
def trailingBackslashes (w : Word) : Nat := (w.reverse.takeWhile (· = '\\')).length

/-- The pattern without an unescaped dollar sign at its end. -/
def dropDollar (w : Word) : Word :=
  if w.getLast? = some '$' && trailingBackslashes w.dropLast % 2 = 0 then w.dropLast else w

/-- The pattern without anchors. -/
def stripAnchors (w : Word) : Word := dropDollar (dropCaret w)

/-- The options of a sampler unless others are given: addresses need no escapes. -/
def defaultOptions : Options := { features := .allExceptAnyString }

/-- The sampler of a pattern.  Its automaton is minimized in any case. -/
def ofPattern (pattern : Word) (options : Options) : Except CompileError Sampler := do
  let e ← (Expr.parse (stripAnchors pattern) options.features).mapError .malformed
  let a ← (e.toAutomaton options []).1
  let m ← (a.minimize options.minimization).mapError .fault
  return ⟨pattern, m⟩

/-- Whether a word matches the pattern. -/
def accepts (s : Sampler) (w : Word) : Except Fault Bool := s.automaton.run w

end Sampler

end RegLang
