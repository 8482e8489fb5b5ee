import RegLang.Automaton.Iterate
import RegLang.Automaton.Product
import RegLang.Checked.Marking
import RegLang.Checked.Quotient
import RegLang.Checked.Refinement
import RegLang.Minimize.Algorithm
import RegLang.Primitive.Basic
/-!
# Operations with checks

The operations on automata that a compilation is made of, and the difference, put together from
functions with checks on graphs.
-/

namespace RegLang.Checked

open Table

open RegLang.Automaton (Prefix)

/-! ## Forms -/

/-- Adds a state that the last one steps to on a letter. -/
def link (g : Graph) (c : Char) : Except Fault Graph :=
  update g.addState (g.size - 1) (·.push (.single c g.size))

/-- The chain of states that reads exactly one word. -/
def chain (w : Word) : Except Fault Graph := do
  let g ← w.foldlM link {}
  update g (g.size - 1) fun s => { s with accept := true }

/-- The graph of an automaton; that of a word is its chain. -/
def toGraph : Automaton → Except Fault Graph
  | .singleton w => chain w
  | .graph g => .ok g

/-- No word is accepted. -/
def acceptsNothing : Automaton → Except Fault Bool
  | .singleton _ => .ok false
  | .graph g => isEmpty g

/-- The letters between two bounds given in either order. -/
def ofRange (c d : Char) : Except Fault Automaton := do
  if c = d then return .ofLetter c
  let g ← update ({} : Graph).addState 1 fun s => { s with accept := true }
  return .graph (← update g 0 (·.push (.between c d 1)))

/-- All words. -/
def anyWord : Except Fault Automaton := do
  let g ← update {} 0 fun s => { s with accept := true }
  return .graph (← update g 0 (·.push (.onAny 0)))

/-! ## Minimal automata -/

def minimizeGraph (m : Minimization) (g : Graph) : Except Fault Graph :=
  match m with
  | .hopcroft => do
    let d ← determinize g
    if ← loopsOnAny d then return d
    let total ← prepareTotal d
    quotient total (← refinedClasses total)
  | .brzozowski => do reverseDeterminize (← reverseDeterminize g)
  | .huffman => do
    let total ← prepareTotal g
    quotient total (← markedClasses total)

/-- The minimal automaton of the same language; a single word is minimal as it is. -/
def minimize (m : Minimization) : Automaton → Except Fault Automaton
  | .singleton w => .ok (.singleton w)
  | .graph g => (minimizeGraph m g).map .graph

/-! ## Union -/

/-- Absorbs the initial state of one more graph, brought into the arena, into the initial one. -/
def branch (g h : Graph) : Except Fault Graph :=
  absorb (g.append h) g.initial (g.shift h h.initial)

/-- The words of any of the given automata. -/
def union (as : List Automaton) : Except Fault Automaton := do
  let live ← as.filterM fun a => return !(← acceptsNothing a)
  match live with
  | [] => return .graph (← compact (({} : Graph).setDeterministic false))
  | a :: rest =>
    if rest.isEmpty || (a.isSingleton && rest.all (· = a)) then return a
    let g ← (← live.mapM toGraph).foldlM branch {}
    return .graph (← compact (g.setDeterministic false))

/-! ## Concatenation -/

/-- Lets the states that accepted so far continue in `init`. -/
def continueIn (init : Nat) : List Nat → Prefix → Except Fault Prefix
  | [], p => .ok p
  | q :: qs, p => do
    let closed ← update p.graph q fun s => { s with accept := false }
    let g ← absorb closed q init
    let accepting := if ← look g State.accept q then p.accepting ++ [q] else p.accepting
    continueIn init qs ⟨g, accepting⟩

/-- Continues with one more graph. -/
def followBy (p : Prefix) (h : Graph) : Except Fault Prefix := do
  if ← acceptsOnlyEmptyWord h then return p
  let shift := p.graph.shift h
  continueIn (shift h.initial) p.accepting ⟨p.graph.append h, (← acceptStates h).map shift⟩

/-- The words made of one word of each automaton, in order. -/
def concatenate (as : List Automaton) : Except Fault Automaton := do
  if as.all Automaton.isSingleton then
    return .singleton (as.flatMap fun a => a.word?.getD [])
  if ← as.anyM acceptsNothing then return .empty
  match ← as.mapM toGraph with
  | [] => return .emptyWord
  | g :: gs =>
    let p ← gs.foldlM followBy ⟨g, ← acceptStates g⟩
    return .graph (← compact (p.graph.setDeterministic false))

/-! ## Iteration -/

/-- A new state that accepts and absorbs the initial state. -/
def acceptFirst (g : Graph) : Except Fault Graph := do
  update (← absorb g.addState g.size g.initial) g.size fun s => { s with accept := true }

/-- The words of the automaton and the empty word. -/
def optional (a : Automaton) : Except Fault Automaton := do
  let g ← toGraph a
  return .graph (((← acceptFirst g).setInitial g.size).setDeterministic false)

/-- All concatenations of words of the automaton. -/
def star (a : Automaton) : Except Fault Automaton := do
  let g ← toGraph a
  let opened ← acceptFirst g
  let looped ← absorbInto opened (← acceptStates opened) g.size
  return .graph (← compact ((looped.setInitial g.size).setDeterministic false))

/-- All concatenations of at least `n` words of the automaton. -/
def atLeast (a : Automaton) (n : Nat) : Except Fault Automaton := do
  if n = 0 then star a
  else
    let rest ← star a
    concatenate (List.replicate n a ++ [rest])

/-- The accepting states of `g` absorb the start of `h` and go on accepting. -/
def mayContinue (g h : Graph) : Except Fault Graph := do
  absorbInto (g.append h) (← acceptStates g) (g.shift h h.initial)

/-- `n + 1` copies of a graph in a row, each of which may be the last. -/
def upTo (g : Graph) : Nat → Except Fault Graph
  | 0 => .ok g
  | n + 1 => do mayContinue g (← upTo g n)

/-- The concatenations that a repetition requires. -/
def required (a : Automaton) : Nat → Except Fault Automaton
  | 0 => .ok .emptyWord
  | 1 => .ok a
  | lo => concatenate (List.replicate lo a)

/-- All concatenations of at least `lo` and at most `hi` words of the automaton; there are none if
`hi < lo`. -/
def repeated (a : Automaton) (lo hi : Nat) : Except Fault Automaton := do
  if hi < lo then return .empty
  let required ← required a lo
  if hi = lo then return required
  let rest ← upTo (← toGraph a) (hi - lo - 1)
  let whole ← mayContinue (← toGraph required) rest
  return .graph (← compact (whole.setDeterministic false))

/-! ## Intersection and complement -/

/-- Whether both states of a pair accept. -/
def acceptsBoth (g h : Graph) (p : StatePair) : Except Fault Bool := do
  return (← look g State.accept p.1) && (← look h State.accept p.2)

/-- The common intervals of a pair of places in two tables. -/
def meetsAt (left right : Array (List Transition)) (p : StatePair) :
    Except Fault (List (Char × Char × Nat × Nat)) := do
  return Transition.meets (← read left p.1) (← read right p.2)

/-- The graph on the pairs of states that some word leads to in both graphs, without dead ends. -/
def product (g h : Graph) : Except Fault Graph := do
  let left ← sortedTable g
  let right ← sortedTable h
  let whole ← unfold (acceptsBoth g h) (meetsAt left right) ((g.edgeCount + 1) * (h.edgeCount + 1))
    (g.initial, h.initial)
  trim (whole.setDeterministic (g.deterministic && h.deterministic))

/-- The words of both automata. -/
def intersection : Automaton → Automaton → Except Fault Automaton
  | .singleton w, b => b.keepWord w
  | a, .singleton w => a.keepWord w
  | .graph g, .graph h => (product g h).map .graph

/-- The graph with the accept flags of the reachable states turned round. -/
def flipAccept (g : Graph) : Except Fault Graph := do
  updateAll g (← reachable g) fun s => { s with accept := !s.accept }

/-- All other words.  The chain of a word is deterministic. -/
def complement (a : Automaton) : Except Fault Automaton := do
  let total ← totalize (← determinize (← toGraph a))
  return .graph (← trim (← flipAccept total))

/-- The words of the first automaton that are not words of the second. -/
def minus (a b : Automaton) : Except Fault Automaton := do
  if ← acceptsNothing a then return .empty
  if ← acceptsNothing b then return a
  match a with
  | .singleton w => return if ← b.run w then .empty else a
  | .graph _ => intersection a (← complement b)

end RegLang.Checked
