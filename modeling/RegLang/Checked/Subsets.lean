import RegLang.Automaton.Run
import RegLang.Checked.Graphs
import RegLang.Graph.Subsets
/-!
# Subset constructions with checks

Discovered items are looked up by number, sets of states only take states for which they have room,
and reversal files each transition under the place where it ends.
-/

namespace RegLang.Checked

open Table

/-! ## Discovered items -/

variable {α : Type} [DecidableEq α]

/-- The place of an item, which must be listed. -/
def placeIn (items : List α) (x : α) : Except Fault Nat :=
  match items.idxOf? x with
  | some i => .ok i
  | none => .error .outOfRange

/-- The state of an item. -/
def stateOf (accept : α → Except Fault Bool) (row : α → Except Fault (List (Char × Char × α)))
    (items : List α) (x : α) : Except Fault State := do
  let accept ← accept x
  let transitions ← (← row x).mapM fun (c, d, y) => (placeIn items y).map (.between c d)
  return ⟨accept, transitions⟩

/-- The items that the rows lead to from a start item, in order of discovery. -/
def discover (row : α → Except Fault (List (Char × Char × α))) (fuel : Nat) (start : α) :
    Except Fault (List α) :=
  Tour.visit Tour.listed [] (fun x => (row x).map (·.map (·.2.2))) fuel [start]

/-- The graph with one state for each of a list of items; the first is initial. -/
def ofItems (accept : α → Except Fault Bool) (row : α → Except Fault (List (Char × Char × α)))
    (items : List α) : Except Fault Graph := do
  let states ← items.mapM (stateOf accept row items)
  return { states := states.toArray }

/-- The graph of the items discovered from a start item. -/
def unfold (accept : α → Except Fault Bool) (row : α → Except Fault (List (Char × Char × α)))
    (fuel : Nat) (start : α) : Except Fault Graph := do
  ofItems accept row (← discover row fuel start)

/-! ## Sets of states -/

/-- Whether a set of states accepts. -/
def acceptsAny (g : Graph) (s : StateSet) : Except Fault Bool := s.toList.anyM (look g State.accept)

/-- The nonempty sets that the classes of letters lead to from a set. -/
def subsetRow (g : Graph) (classes : List (Char × Char)) (s : StateSet) :
    Except Fault (List (Char × Char × StateSet)) := do
  let sets ← classes.mapM fun k => (g.advance s k.1).map fun t => (k.1, k.2, t)
  return sets.filter fun r => !r.2.2.isEmpty

/-- The deterministic graph on the sets met from `start`, without dead ends. -/
def subsetConstruction (g : Graph) (start : StateSet) : Except Fault Graph := do
  let classes := Graph.classes (← startPoints g)
  trim (← unfold (acceptsAny g) (subsetRow g classes) (1 <<< start.capacity) start)

/-- The graph itself if it claims to be deterministic, else its subset construction. -/
def determinize (g : Graph) : Except Fault Graph := do
  if g.deterministic then return g
  let (_, start) ← (StateSet.ofCapacity g.size).insert g.initial
  subsetConstruction g start

/-! ## Reversal -/

/-- For each place the reachable transitions that end there, each leading back to where it came
from. -/
def returns (g : Graph) (places : List Nat) : Except Fault (Array (List Transition)) := do
  let edges ← places.mapM fun p => look g (·.transitions.map fun t => (t.target, t.retarget p)) p
  edges.flatten.foldlM file (.replicate g.size [])

/-- Gives a place the transitions of a table; it rejects. -/
def turnAt (returns : Array (List Transition)) (g : Graph) (q : Nat) : Except Fault Graph := do
  let transitions ← read returns q
  update g q fun _ => ⟨false, transitions⟩

/-- Turns all reachable transitions round, and adds an initial state that absorbs the states that
used to accept. -/
def reverse (g : Graph) : Except Fault Graph := do
  let places ← reachable g
  let accepting ← acceptStates g
  let returns ← returns g places
  let turned ← update (← places.foldlM (turnAt returns) g) g.initial fun s =>
    { s with accept := true }
  let linked ← absorbEdges turned.addState (accepting.map (g.size, ·))
  return (linked.setInitial g.size).setDeterministic false

/-- The subset construction of the reversed graph. -/
def reverseDeterminize (g : Graph) : Except Fault Graph := do
  let accepting ← acceptStates g
  let r ← reverse g
  subsetConstruction r (← (StateSet.ofCapacity r.size).insertAll accepting)

end RegLang.Checked
