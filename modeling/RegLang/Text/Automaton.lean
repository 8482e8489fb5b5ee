import RegLang.Automaton.Basic
import RegLang.Text.Letter
/-!
# Automata in print

A single word is written on one line.  A graph is written as its initial state and its reachable
states in breadth-first order, each with its transitions in stored order.
-/

namespace RegLang

namespace Text

def line (w : Word) : Word := w ++ ['\n']

/-- A state with its transitions, a line each. -/
def state (q : Nat) (s : State) : Word :=
  line ("state ".toList ++ stateId q ++ (if s.accept then " [accept]:" else " [reject]:").toList) ++
    s.transitions.flatMap fun t => line ("  ".toList ++ transition t)

/-- The initial state, then the reachable states. -/
def graph (g : Graph) : Word :=
  line ("initial state: ".toList ++ stateId g.initial) ++
    g.reachable.flatMap fun q => state q (g.state q)

end Text

/-- The text of an automaton. -/
def Automaton.text : Automaton → Except Fault Word
  | .singleton w => .ok (Text.line ("singleton: ".toList ++ w.flatMap Text.letter))
  | .graph g => g.ensureIntact.map fun _ => Text.graph g

end RegLang
