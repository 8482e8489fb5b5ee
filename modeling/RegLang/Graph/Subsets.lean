import RegLang.Graph.Link
import RegLang.Graph.Unfold
import RegLang.StateSet
/-!
# Sets of states as states

The subset construction makes a deterministic graph: its states are the sets of states that the
letters lead to from a start set, numbered in the order in which they are met, class of letters by
class of letters.  Reversal turns every transition round; a reversed graph is read by the subset
construction from the set of states that used to accept.
-/

namespace RegLang.Graph

/-! ## Subset construction -/

/-- The states that a letter leads to from some of the given ones. -/
def move (g : Graph) (members : List Nat) (c : Char) : StateSet :=
  (members.flatMap fun q => (g.state q).stepAll c).foldl StateSet.add (.ofCapacity g.size)

/-- The nonempty sets that the classes of letters lead to from a set.  All letters of a class lead
to the same set, so its first letter speaks for it. -/
def subsetRow (g : Graph) (classes : List (Char × Char)) (s : StateSet) :
    List (Char × Char × StateSet) :=
  let members := s.toList
  classes.filterMap fun (c, d) =>
    let t := g.move members c
    if t.isEmpty then none else some (c, d, t)

/-- The deterministic graph on the sets met from `start`, without dead ends.  There are at most as
many sets as subsets of the arena. -/
def subsetConstruction (g : Graph) (start : StateSet) : Graph :=
  let classes := classes g.startPoints
  (unfold (fun s => s.toList.any fun q => (g.state q).accept) (g.subsetRow classes)
    (1 <<< start.capacity) start).trim

/-- The graph itself if it claims to be deterministic, else its subset construction. -/
def determinize (g : Graph) : Graph :=
  if g.deterministic then g
  else g.subsetConstruction ((StateSet.ofCapacity g.size).add g.initial)

/-! ## Reversal -/

/-- The transitions of the given states into `q`, each leading back to where it came from. -/
def incoming (g : Graph) (places : List Nat) (q : Nat) : List Transition :=
  places.flatMap fun p =>
    ((g.state p).transitions.filter (·.target = q)).map (·.retarget p)

/-- Turns all reachable transitions round.  The old initial state accepts, and a new initial state
absorbs the states that used to accept, so that all stays reachable. -/
def reverse (g : Graph) : Graph :=
  let places := g.reachable
  let turned : Graph :=
    { g with
      states := g.states.mapIdx fun q s =>
        if places.contains q then ⟨q = g.initial, g.incoming places q⟩ else s
      hashCode := none }
  let linked := g.acceptStates.foldl (fun h q => h.absorb g.size q) turned.addState
  (linked.setInitial g.size).setDeterministic false

/-- The subset construction of the reversed graph: a deterministic graph of the reversed words. -/
def reverseDeterminize (g : Graph) : Graph :=
  let r := g.reverse
  r.subsetConstruction (g.acceptStates.foldl StateSet.add (.ofCapacity r.size))

/-! ## Lemmas -/

theorem determinize_of_deterministic {g : Graph} (h : g.deterministic = true) :
    g.determinize = g := if_pos h

@[simp] theorem deterministic_subsetConstruction (g : Graph) (start : StateSet) :
    (g.subsetConstruction start).deterministic = true := deterministic_trim _

@[simp] theorem deterministic_determinize (g : Graph) : g.determinize.deterministic = true := by
  unfold determinize
  split
  · assumption
  · exact deterministic_subsetConstruction _ _

end RegLang.Graph
