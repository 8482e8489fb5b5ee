import RegLang.Checked.Tours
import RegLang.Graph.Link
import RegLang.Graph.Normal
/-!
# Graphs with checks

What the functions of `Graph` do by way of the arena: each state is looked up and changed at its
place, which must be in the arena, and what is kept of the states stands in tables with an entry
for each place.
-/

namespace RegLang.Checked

open Table

/-! ## Places -/

/-- A property of the state at a place. -/
def look {α : Type} (g : Graph) (f : State → α) (q : Nat) : Except Fault α := (g.fetch q).map f

/-- The graph with the state at a place changed. -/
def update (g : Graph) (q : Nat) (f : State → State) : Except Fault Graph :=
  if q < g.size then .ok (g.modify q f) else .error .outOfRange

/-- The graph with the states at some places changed, one after the other. -/
def updateAll (g : Graph) (places : List Nat) (f : State → State) : Except Fault Graph :=
  places.foldlM (fun g q => update g q f) g

/-- Absorbs `q` into `p`. -/
def absorb (g : Graph) (p q : Nat) : Except Fault Graph := do
  let s ← g.fetch q
  update g p (·.absorb s)

/-- Absorbs `q` into every one of a list of states, in order. -/
def absorbInto (g : Graph) (ps : List Nat) (q : Nat) : Except Fault Graph :=
  ps.foldlM (fun g p => absorb g p q) g

/-- Absorbs along a list of edges, in order. -/
def absorbEdges (g : Graph) (pairs : List StatePair) : Except Fault Graph :=
  pairs.foldlM (fun g p => absorb g p.1 p.2) g

/-- The sorted transitions of every place. -/
def sortedTable (g : Graph) : Except Fault (Array (List Transition)) := do
  let rows ← (List.range g.size).mapM (look g fun s => Transition.sortByLower s.transitions)
  return rows.toArray

/-! ## Reachable and live states -/

/-- The reachable states in breadth-first order. -/
def reachable (g : Graph) : Except Fault (List Nat) :=
  Tour.visit StateSet.insert (.ofCapacity g.size) (look g State.targets) (g.edgeCount + 1)
    [g.initial]

/-- The reachable accepting states. -/
def acceptStates (g : Graph) : Except Fault (List Nat) := do
  (← reachable g).filterM (look g State.accept)

/-- For each place the reachable states that lead there. -/
def origins (g : Graph) (places : List Nat) : Except Fault (Array (List Nat)) := do
  let edges ← places.mapM fun p => look g (·.targets.map (·, p)) p
  edges.flatten.foldlM file (.replicate g.size [])

/-- The reachable states that lead to acceptance. -/
def live (g : Graph) : Except Fault (List Nat) := do
  let origins ← origins g (← reachable g)
  Tour.visit StateSet.insert (.ofCapacity g.size) (read origins) (g.edgeCount + 1)
    (← acceptStates g)

/-- The letters at which some reachable transition begins, or ends just before, and the first
letter, ascending. -/
def startPoints (g : Graph) : Except Fault (List Char) := do
  let points ← (← reachable g).mapM (look g (·.transitions.flatMap Graph.boundaries))
  return SortedList.ofList (Alphabet.first :: points.flatten)

def isEmpty (g : Graph) : Except Fault Bool := do return !(← live g).contains g.initial

def acceptsOnlyEmptyWord (g : Graph) : Except Fault Bool := do
  let live ← live g
  look g (fun s => s.accept && s.transitions.all fun t => !live.contains t.target) g.initial

/-- The only transition of the initial state loops on every letter. -/
def loopsOnAny (g : Graph) : Except Fault Bool := do
  let s ← g.fetch g.initial
  match s.transitions with
  | [t] => return t.target = g.initial && t.lo = Alphabet.first && t.hi = Alphabet.last
  | _ => return false

/-! ## Normal forms -/

def reduce (g : Graph) : Except Fault Graph := do updateAll g (← reachable g) State.reduce

/-- The state with its targets renumbered. -/
def retarget (number : Nat → Except Fault Nat) (s : State) : Except Fault State := do
  let transitions ← s.transitions.mapM fun t => (number t.target).map t.retarget
  return { s with transitions := transitions }

/-- The numbers of listed places by their order, and `0` for all others. -/
def numbering (size : Nat) (order : List Nat) : Except Fault (Array Nat) :=
  order.zipIdx.foldlM (fun numbers e => write numbers e.1 e.2) (.replicate size 0)

/-- Keeps the reachable states only, in breadth-first order. -/
def compact (g : Graph) : Except Fault Graph := do
  let order ← reachable g
  if order = List.range g.size then return g
  let numbers ← numbering g.size order
  let states ← order.mapM fun q => do retarget (read numbers) (← g.fetch q)
  return { states := states.toArray, initial := 0, deterministic := g.deterministic }

/-- Makes every reachable state total. -/
def totalize (g : Graph) : Except Fault Graph := do
  let places ← reachable g
  let sink := g.size
  let opened ← update g.addState sink (·.push (.onAny sink))
  updateAll opened places (Graph.fill sink)

/-- Drops the transitions of reachable states that lead to states that are not live, then compacts
and reduces. -/
def trim (g : Graph) : Except Fault Graph := do
  let live ← live g
  let pruned ← updateAll g (← reachable g) (Graph.restrict live)
  reduce (← compact pruned)

end RegLang.Checked
