import RegLang.Automaton.Compare
import RegLang.Checked.Operations
import RegLang.Checked.Runs
/-!
# Comparing languages with checks

What inclusion does by way of its loop: pairs of states are taken from a worklist and compared by
the transitions that tables have for them.  The first pair that is out of order ends the loop, and
no pair that waits behind it is looked at.
-/

namespace RegLang

/-- Takes at most `fuel` items from the queue and offers the successors of each, up to the first
item that fails a test; whether none does. -/
def Worklist.drainWhile {α : Type} [DecidableEq α] (test : α → Except Fault Bool)
    (succ : α → Except Fault (List α)) : Nat → Worklist α → Except Fault Bool
  | 0, _ => .ok true
  | fuel + 1, w =>
    match w.pop? with
    | none => .ok true
    | some (x, w') => do
      if ← test x then drainWhile test succ fuel (w'.offerAll (← succ x)) else return false

namespace Checked

open Table

/-- The sorted transitions of every place that lead to live states. -/
def sortedLiveTable (g : Graph) : Except Fault (Array (List Transition)) := do
  let live ← live g
  let table ← sortedTable g
  return table.map fun ts => ts.filter fun t => live.contains t.target

/-- Whether the pair of states is in order. -/
def simulatesAt (g h : Graph) (left right : Array (List Transition)) (p : StatePair) :
    Except Fault Bool := do
  let s ← g.fetch p.1
  let t ← h.fetch p.2
  if s.accept && !t.accept then return false
  return Transition.coveredBy (← read left p.1) (← read right p.2)

/-- The pairs of states that a pair leads to. -/
def pairSuccessors (left right : Array (List Transition)) (p : StatePair) :
    Except Fault (List StatePair) := do
  return Transition.pairTargets (← read left p.1) (← read right p.2)

/-- Every pair of states that a word leads to is in order. -/
def includedIn (g h : Graph) : Except Fault Bool := do
  let left ← sortedLiveTable g
  let right ← sortedTable h
  (({} : Worklist StatePair).offer (g.initial, h.initial)).drainWhile
    (simulatesAt g h left right) (pairSuccessors left right)
    ((g.edgeCount + 1) * (h.edgeCount + 1))

/-- Every word of the first automaton is a word of the second. -/
def subsetOf : Automaton → Automaton → Except Fault Bool
  | .singleton w, .singleton v => .ok (v = w)
  | .singleton w, .graph h => run h w
  | .graph g, b => do includedIn g (← determinize (← toGraph b))

/-- Both automata have the same words. -/
def sameLanguage : Automaton → Automaton → Except Fault Bool
  | .singleton v, .singleton w => .ok (v = w)
  | a, b => do
    if ← subsetOf a b then subsetOf b a else return false

end Checked

end RegLang
