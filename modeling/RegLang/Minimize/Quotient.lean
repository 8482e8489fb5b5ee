import RegLang.Graph.Subsets
/-!
# Quotients

Refinement and marking both end with a class for every state of a total deterministic graph.  The
quotient has one state for each class, which takes the accept flag and the transitions of the
first member.
-/

namespace RegLang

/-- A deterministic total graph of the same language whose arena holds the reachable states,
numbered breadth first. -/
def Graph.prepareTotal (g : Graph) : Graph := g.determinize.totalize.compact

/-- A class for every state. -/
structure Classes where
  classOf : Array Nat
  count : Nat

namespace Classes

/-- The class of a state. -/
def get (k : Classes) (q : Nat) : Nat := k.classOf.getD q 0

/-- The first state of a class. -/
def representative? (k : Classes) (c : Nat) : Option Nat :=
  (List.range k.classOf.size).find? fun q => k.get q = c

end Classes

/-- One state for each class, without dead ends. -/
def Graph.quotient (g : Graph) (k : Classes) : Graph :=
  let toState (c : Nat) : State :=
    match k.representative? c with
    | some q => (g.state q).mapTargets k.get
    | none => {}
  let whole : Graph :=
    { states := ((List.range k.count).map toState).toArray
      initial := k.get g.initial }
  whole.trim

end RegLang
