import RegLang.Fault
import RegLang.State
/-!
# Graphs

A graph is an arena of states, an initial state and a flag.  The flag says that the transitions
of every reachable state are disjoint; runs trust it.  A graph may remember the hash code of its
language; every change of the arena or of the initial state forgets it.

The functions here and in the modules below are total: a state outside the arena counts as one
that rejects and leads nowhere.  The functions of `Automaton` refuse such states with a fault.
-/

namespace RegLang

/-- An arena of states with an initial state. -/
structure Graph where
  states : Array State := #[{}]
  initial : Nat := 0
  deterministic : Bool := true
  /-- The hash code of the language, once computed. -/
  hashCode : Option Nat := none
deriving DecidableEq

namespace Graph

/-- Number of places in the arena. -/
def size (g : Graph) : Nat := g.states.size

/-- The state at a place. -/
def state (g : Graph) (q : Nat) : State := g.states.getD q {}

/-- The state at a place that must be in the arena. -/
def fetch (g : Graph) (q : Nat) : Except Fault State :=
  match g.states[q]? with
  | some s => .ok s
  | none => .error .outOfRange

/-- Number of transitions in the whole arena. -/
def edgeCount (g : Graph) : Nat := (g.states.toList.flatMap (·.transitions)).length

/-! ## Changes -/

/-- The graph with one more state, which rejects and leads nowhere; its place is the old size. -/
def addState (g : Graph) : Graph := { g with states := g.states.push {}, hashCode := none }

/-- The graph with the state at a place changed. -/
def modify (g : Graph) (q : Nat) (f : State → State) : Graph :=
  { g with states := g.states.modify q f, hashCode := none }

def setAccept (g : Graph) (q : Nat) (accept : Bool) : Graph :=
  g.modify q fun s => { s with accept := accept }

def addTransition (g : Graph) (q : Nat) (t : Transition) : Graph :=
  g.modify q (·.push t)

def setInitial (g : Graph) (q : Nat) : Graph :=
  { g with initial := q, hashCode := none }

/-- The flag alone does not touch the remembered hash code. -/
def setDeterministic (g : Graph) (deterministic : Bool) : Graph :=
  { g with deterministic := deterministic }

/-- The graph with every state changed that stands at one of the given places. -/
def modifyAll (g : Graph) (places : List Nat) (f : State → State) : Graph :=
  { g with
    states := g.states.mapIdx fun i s => if places.contains i then f s else s
    hashCode := none }

/-! ## Lemmas -/

theorem fetch_of_lt {g : Graph} {q : Nat} (h : q < g.size) : g.fetch q = .ok (g.state q) := by
  have h' : q < g.states.size := h
  simp [fetch, state, Array.getD, h']

theorem fetch_of_not_lt {g : Graph} {q : Nat} (h : ¬ q < g.size) :
    g.fetch q = .error .outOfRange := by
  have h' : ¬ q < g.states.size := h
  simp [fetch, h']

theorem state_of_not_lt {g : Graph} {q : Nat} (h : ¬ q < g.size) : g.state q = {} := by
  have h' : ¬ q < g.states.size := h
  simp [state, Array.getD, h']

@[simp] theorem size_modify (g : Graph) (q : Nat) (f : State → State) :
    (g.modify q f).size = g.size := by
  simp [modify, size]

@[simp] theorem size_addState (g : Graph) : g.addState.size = g.size + 1 := by
  simp [addState, size]

@[simp] theorem size_modifyAll (g : Graph) (places : List Nat) (f : State → State) :
    (g.modifyAll places f).size = g.size := by
  simp [modifyAll, size]

end Graph

end RegLang
