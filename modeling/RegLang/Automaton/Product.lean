import RegLang.Automaton.Run
import RegLang.Graph.Subsets
import RegLang.Overlap
/-!
# Intersection, complement and difference

The intersection of two graphs walks pairs of states; the complement makes a graph deterministic
and total and turns its accept flags round.
-/

namespace RegLang

namespace Graph

/-- The sorted transitions of every place. -/
def sortedTable (g : Graph) : Array (List Transition) :=
  g.states.map fun s => Transition.sortByLower s.transitions

/-- The common intervals of a pair of places in two tables. -/
def meetsAt (left right : Array (List Transition)) (p : StatePair) :
    List (Char × Char × Nat × Nat) :=
  Transition.meets (left.getD p.1 []) (right.getD p.2 [])

/-- The pairs of states that some word leads to in both graphs, in order of discovery. -/
def productPairs (g h : Graph) : List StatePair :=
  discover (meetsAt g.sortedTable h.sortedTable) ((g.edgeCount + 1) * (h.edgeCount + 1))
    (g.initial, h.initial)

/-- The graph on the given pairs of states, without dead ends. -/
def productOn (g h : Graph) (pairs : List StatePair) : Graph :=
  ((ofItems (fun p => (g.state p.1).accept && (h.state p.2).accept)
    (meetsAt g.sortedTable h.sortedTable) pairs).setDeterministic
      (g.deterministic && h.deterministic)).trim

/-- The graph with the accept flags of the reachable states turned round. -/
def flipAccept (g : Graph) : Graph :=
  g.modifyAll g.reachable fun s => { s with accept := !s.accept }

end Graph

namespace Automaton

/-- The same language without overlapping transitions; an automaton that claims to have none is
left alone. -/
def determinize : Automaton → Except Fault Automaton
  | .singleton w => .ok (.singleton w)
  | .graph g => if g.deterministic then .ok (.graph g) else mapGraph Graph.determinize (.graph g)

/-- The word, if the automaton accepts it, else nothing. -/
def keepWord (w : Word) (a : Automaton) : Except Fault Automaton :=
  (a.run w).map fun accepted => if accepted then .singleton w else empty

/-- The words of both automata. -/
def intersection : Automaton → Automaton → Except Fault Automaton
  | .singleton w, b => keepWord w b
  | a, .singleton w => keepWord w a
  | .graph g, .graph h =>
    let pairs := g.productPairs h
    if pairs.all fun p => p.1 < g.size && p.2 < h.size then .ok (.graph (g.productOn h pairs))
    else .error .outOfRange

/-- All other words. -/
def complement (a : Automaton) : Except Fault Automaton := do
  let d ← a.determinize
  let total ← d.totalize
  return .graph total.toGraph.flipAccept.trim

/-- The words of the first automaton that are not words of the second. -/
def minus (a b : Automaton) : Except Fault Automaton := do
  if ← a.isEmpty then return empty
  if ← b.isEmpty then return a
  match a with
  | .singleton w => return if ← b.run w then empty else a
  | .graph _ => intersection a (← complement b)

end Automaton

end RegLang
