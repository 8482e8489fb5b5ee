import RegLang.Graph.Basic
import RegLang.SortedList
import RegLang.Worklist
/-!
# Reachable and live states

`reachable` lists the states that the initial state leads to in breadth-first order, which is the
order of every printed form and of renumbering.  A state is live if it is reachable and leads to
acceptance.  `startPoints` cuts the alphabet into classes that no reachable transition divides.
-/

namespace RegLang.Graph

/-! ## Reachable states -/

/-- The reachable states in breadth-first order, the initial one first.  There are at most as many
as transitions, and one. -/
def reachable (g : Graph) : List Nat :=
  explore (fun q => (g.state q).targets) (g.edgeCount + 1) [g.initial]

/-- All reachable states are in the arena. -/
def intact (g : Graph) : Bool := g.reachable.all (· < g.size)

/-- Refuses a graph with a reachable state outside the arena. -/
def ensureIntact (g : Graph) : Except Fault Unit :=
  if g.intact then .ok () else .error .outOfRange

/-- The reachable accepting states in breadth-first order. -/
def acceptStates (g : Graph) : List Nat := g.reachable.filter fun q => (g.state q).accept

/-- Number of reachable states. -/
def stateCount (g : Graph) : Nat := g.reachable.length

/-- Number of transitions of reachable states. -/
def transitionCount (g : Graph) : Nat :=
  (g.reachable.flatMap fun q => (g.state q).transitions).length

/-! ## Live states -/

/-- The states of a list with a transition to `q`. -/
def predecessors (g : Graph) (places : List Nat) (q : Nat) : List Nat :=
  places.filter fun p => (g.state p).targets.contains q

/-- The reachable states that lead to acceptance. -/
def live (g : Graph) : List Nat :=
  explore (g.predecessors g.reachable) (g.edgeCount + 1) g.acceptStates

/-- Nothing is accepted. -/
def isEmpty (g : Graph) : Bool := !g.live.contains g.initial

/-! ## Shapes -/

/-- The empty word is accepted and no transition of the initial state leads to a live state. -/
def acceptsOnlyEmptyWord (g : Graph) : Bool :=
  let live := g.live
  (g.state g.initial).accept && (g.state g.initial).transitions.all fun t => !live.contains t.target

/-- The only transition of the initial state loops on every letter. -/
def loopsOnAny (g : Graph) : Bool :=
  match (g.state g.initial).transitions with
  | [t] => t.target = g.initial && t.lo = Alphabet.first && t.hi = Alphabet.last
  | _ => false

/-! ## Classes of letters -/

/-- The first letter of the transition and the first letter after it. -/
def boundaries (t : Transition) : List Char := t.lo :: (Alphabet.next? t.hi).toList

/-- The letters at which some reachable transition begins, or ends just before, and the first
letter, ascending. -/
def startPoints (g : Graph) : List Char :=
  SortedList.ofList
    (Alphabet.first :: g.reachable.flatMap fun q => (g.state q).transitions.flatMap boundaries)

/-- The classes that begin at ascending points, each as its first and last letter. -/
def classes : List Char → List (Char × Char)
  | [] => []
  | [c] => [(c, Alphabet.last)]
  | c :: d :: cs => (c, (Alphabet.prev? d).getD Alphabet.last) :: classes (d :: cs)

/-! ## Survey -/

/-- What a graph shows of its shape. -/
structure Survey where
  reachable : List Nat
  accepting : List Nat
  /-- The live states, ascending. -/
  live : List Nat
  startPoints : List Char

/-- The survey of a graph whose reachable states are in the arena. -/
def survey (g : Graph) : Except Fault Survey := do
  g.ensureIntact
  return ⟨g.reachable, g.acceptStates, SortedList.ofList g.live, g.startPoints⟩

/-! ## Lemmas -/

theorem ensureIntact_of_intact {g : Graph} (h : g.intact = true) : g.ensureIntact = .ok () :=
  if_pos h

theorem nodup_reachable (g : Graph) : g.reachable.Nodup := nodup_explore _ _ _

theorem nodup_live (g : Graph) : g.live.Nodup := nodup_explore _ _ _

theorem first_mem_startPoints (g : Graph) : Alphabet.first ∈ g.startPoints := by
  simp [startPoints]

end RegLang.Graph
