import RegLang.Text.Automaton
/-!
# Automata in the DOT language

The drawing of an automaton: its states with a shape that tells the accepting ones apart, an arrow
to the initial state, and one edge for each transition.
-/

namespace RegLang

/-- How a drawing looks. -/
structure DotStyle where
  rankdir : Word := "LR".toList
  stateShape : Word := "circle".toList
  acceptShape : Word := "doublecircle".toList
  edgeStyle : Word := "solid".toList
  /-- Whether states are labelled with their numbers. -/
  showStateIds : Bool := true
deriving DecidableEq

namespace Dot

/-- Doubles every backslash, as a quoted string of the language needs it. -/
def quoted (w : Word) : Word := w.flatMap fun c => if c = '\\' then ['\\', '\\'] else [c]

/-- The label of an edge. -/
def label (t : Transition) : Word := quoted (Text.interval t)

/-- The node of a state. -/
def node (style : DotStyle) (q : Nat) (s : State) : Word :=
  Text.line (Text.stateId q ++ " [shape=".toList ++
    (if s.accept then style.acceptShape else style.stateShape) ++ ", label=\"".toList ++
    (if style.showStateIds then Text.stateId q else []) ++ "\"];".toList)

/-- The edge of a transition. -/
def edge (style : DotStyle) (q : Nat) (t : Transition) : Word :=
  Text.line (Text.stateId q ++ " -> ".toList ++ Text.stateId t.target ++ " [label=\"".toList ++
    label t ++ "\", style=".toList ++ style.edgeStyle ++ "];".toList)

/-- The drawing of a graph: nodes in breadth-first order, then edges ordered by target. -/
def graph (style : DotStyle) (g : Graph) : Word :=
  Text.line "digraph \x7b".toList ++
  Text.line ("rankdir=".toList ++ style.rankdir ++ [';']) ++
  Text.line "initial [shape=point];".toList ++
  (g.reachable.flatMap fun q => node style q (g.state q)) ++
  Text.line ("initial -> ".toList ++ Text.stateId g.initial ++ [';']) ++
  (g.reachable.flatMap fun q =>
    (Transition.sortByTarget (g.state q).transitions).flatMap (edge style q)) ++
  Text.line "\x7d".toList

end Dot

/-- The drawing of an automaton; a word is drawn as its chain of states. -/
def Automaton.dot (style : DotStyle) (a : Automaton) : Except Fault Word :=
  let g := a.toGraph
  g.ensureIntact.map fun _ => Dot.graph style g

end RegLang
