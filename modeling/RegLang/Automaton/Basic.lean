import RegLang.Graph.Edit
/-!
# Automata

An automaton stands for a language.  It is either a single word, kept as such, or a graph.  A
word is turned into its chain of states where states are needed, never back.

The functions on automata answer with a fault where they meet a reachable state that is not in
the arena.
-/

namespace RegLang

/-- A language: one word, or what a graph accepts. -/
inductive Automaton where
  | singleton (w : Word)
  | graph (g : Graph)
deriving DecidableEq

/-- The chain of states that reads exactly `w`. -/
def Graph.ofWord (w : Word) : Graph where
  states :=
    let links : List State := w.mapIdx fun i c => { transitions := [.single c (i + 1)] }
    (links.concat { accept := true }).toArray

namespace Automaton

/-! ## Forms -/

/-- The empty language. -/
def empty : Automaton := .graph {}

/-- The language of the empty word alone. -/
def emptyWord : Automaton := .singleton []

/-- The graph of an automaton; that of a word is its chain. -/
def toGraph : Automaton → Graph
  | .singleton w => .ofWord w
  | .graph g => g

/-- The automaton in graph form. -/
def expand (a : Automaton) : Automaton := .graph a.toGraph

def isSingleton : Automaton → Bool
  | .singleton _ => true
  | .graph _ => false

/-- The word of a singleton. -/
def word? : Automaton → Option Word
  | .singleton w => some w
  | .graph _ => none

def isDeterministic (a : Automaton) : Bool := a.toGraph.deterministic

/-- Refuses an automaton with a reachable state outside the arena. -/
def ensureIntact : Automaton → Except Fault Unit
  | .singleton _ => .ok ()
  | .graph g => g.ensureIntact

/-- Changes the graph of an automaton that has one. -/
def mapGraph (f : Graph → Graph) : Automaton → Except Fault Automaton
  | .singleton w => .ok (.singleton w)
  | .graph g => g.ensureIntact.map fun _ => .graph (f g)

/-! ## Normal forms -/

def reduce : Automaton → Except Fault Automaton := mapGraph Graph.reduce

def compact : Automaton → Except Fault Automaton := mapGraph Graph.compact

def trim : Automaton → Except Fault Automaton := mapGraph Graph.trim

/-- A total automaton for the same language, in graph form. -/
def totalize (a : Automaton) : Except Fault Automaton := mapGraph Graph.totalize a.expand

/-! ## Counts and simple questions -/

/-- Number of reachable states. -/
def stateCount : Automaton → Except Fault Nat
  | .singleton w => .ok (w.length + 1)
  | .graph g => g.ensureIntact.map fun _ => g.stateCount

/-- Number of transitions of reachable states. -/
def transitionCount : Automaton → Except Fault Nat
  | .singleton w => .ok w.length
  | .graph g => g.ensureIntact.map fun _ => g.transitionCount

/-- No word is accepted. -/
def isEmpty : Automaton → Except Fault Bool
  | .singleton _ => .ok false
  | .graph g => g.ensureIntact.map fun _ => g.isEmpty

/-- The empty word is the only one accepted. -/
def isEmptyWord : Automaton → Except Fault Bool
  | .singleton w => .ok w.isEmpty
  | .graph g => g.ensureIntact.map fun _ => g.acceptsOnlyEmptyWord

/-- Every word is accepted, as far as the shape of a minimal automaton shows it. -/
def isTotal : Automaton → Except Fault Bool
  | .singleton _ => .ok false
  | .graph g => (g.fetch g.initial).map fun s => s.accept && g.loopsOnAny

end Automaton

end RegLang
