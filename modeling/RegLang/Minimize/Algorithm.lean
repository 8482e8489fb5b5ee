import RegLang.Automaton.Basic
import RegLang.Minimize.Marking
import RegLang.Minimize.Refinement
/-!
# Minimal automata and their hash code

Three ways to the minimal deterministic automaton: refinement of a partition, two reversals, and
marking of pairs.  Its numbers of states and transitions give a hash code of the language.
-/

namespace RegLang

/-- A way to minimize. -/
inductive Minimization where
  /-- Partition refinement. -/
  | hopcroft
  /-- Reversal and subset construction, twice. -/
  | brzozowski
  /-- Marking of distinguishable pairs. -/
  | huffman
deriving DecidableEq, Repr

/-- The name of a way to minimize. -/
def Minimization.name : Minimization → String
  | .hopcroft => "hopcroft"
  | .brzozowski => "brzozowski"
  | .huffman => "huffman"

/-- The minimal graph of the same language. -/
def Graph.minimize (m : Minimization) (g : Graph) : Except Fault Graph :=
  match m with
  | .hopcroft => Refinement.minimize g
  | .brzozowski => .ok g.reverseDeterminize.reverseDeterminize
  | .huffman => .ok (Marking.minimize g)

namespace Automaton

/-- The minimal automaton of the same language; a single word is minimal as it is. -/
def minimize (m : Minimization) : Automaton → Except Fault Automaton
  | .singleton w => .ok (.singleton w)
  | .graph g => g.ensureIntact.bind fun _ => (g.minimize m).map .graph

/-- One number for two, a different one for different pairs. -/
def pair (m n : Nat) : Nat := if m < n then n * n + m else m * m + m + n

/-- The hash code of the language and the automaton that remembers it.  A graph that does not
remember its hash code is minimized first. -/
def withHashCode (a : Automaton) : Except Fault (Nat × Automaton) := do
  if let .graph g := a then
    if let some code := g.hashCode then return (code, a)
  let m ← a.minimize .hopcroft
  let code := pair (← m.stateCount) (← m.transitionCount)
  match m with
  | .singleton _ => return (code, m)
  | .graph g => return (code, .graph { g with hashCode := some code })

end Automaton

end RegLang
