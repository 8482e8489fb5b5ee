import RegLang.Automaton.Run
import RegLang.Checked.Graphs
/-!
# Runs on two sets

What a run does by way of storage: a graph that does not claim to be deterministic is run with two
sets of states that are made once.  The states that a letter leads to are collected in one of them,
which is cleared first, and then the two change places.
-/

namespace RegLang.Checked

/-- The states that a letter leads to from some state of a set, collected in another set. -/
def collect (g : Graph) (current next : StateSet) (c : Char) : Except Fault StateSet :=
  current.toList.foldlM
    (fun next q => do next.insertAll (← look g (·.stepAll c) q)) next.clear

/-- Whether a word leads from some state of the first set to acceptance; the second set is free to
be used. -/
def alternate (g : Graph) : StateSet → StateSet → Word → Except Fault Bool
  | current, _, [] => current.toList.anyM (look g State.accept)
  | current, next, c :: w => do
    let next ← collect g current next c
    if next.isEmpty then return false else alternate g next current w

/-- Whether the graph accepts a word. -/
def run (g : Graph) (w : Word) : Except Fault Bool := do
  if g.deterministic then g.follow g.initial w
  else
    let (_, current) ← (StateSet.ofCapacity g.size).insert g.initial
    alternate g current (.ofCapacity g.size) w

end RegLang.Checked
