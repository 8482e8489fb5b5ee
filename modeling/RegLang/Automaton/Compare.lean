import RegLang.Automaton.Product
/-!
# Comparing languages

Inclusion is decided on pairs of states: the first automaton may be of any kind, the second is made
deterministic.  A pair is in order if the second state accepts where the first does and has a step
on every letter on which the first has one to a live state.
-/

namespace RegLang

namespace Graph

/-- The sorted transitions of every place that lead to live states. -/
def sortedLiveTable (g : Graph) : Array (List Transition) :=
  let live := g.live
  g.sortedTable.map fun ts => ts.filter fun t => live.contains t.target

/-- The pair of states is in order. -/
def simulatesAt (g h : Graph) (left right : Array (List Transition)) (p : StatePair) :
    Except Fault Bool := do
  let s ← g.fetch p.1
  let t ← h.fetch p.2
  if s.accept && !t.accept then return false
  return Transition.coveredBy (left.getD p.1 []) (right.getD p.2 [])

/-- Every pair of states that a word leads to is in order, in order of discovery. -/
def includedIn (g h : Graph) : Except Fault Bool :=
  let left := g.sortedLiveTable
  let right := h.sortedTable
  let pairs := explore
    (fun p => Transition.pairTargets (left.getD p.1 []) (right.getD p.2 []))
    ((g.edgeCount + 1) * (h.edgeCount + 1)) [(g.initial, h.initial)]
  pairs.allM (g.simulatesAt h left right)

end Graph

namespace Automaton

/-- Every word of the first automaton is a word of the second. -/
def subsetOf : Automaton → Automaton → Except Fault Bool
  | .singleton w, b => b.run w
  | .graph g, b => do
    let d ← b.determinize
    g.ensureIntact
    g.includedIn d.toGraph

/-- Both automata have the same words. -/
def sameLanguage : Automaton → Automaton → Except Fault Bool
  | .singleton v, .singleton w => .ok (v = w)
  | a, b => do
    if ← a.subsetOf b then b.subsetOf a else return false

end Automaton

end RegLang
