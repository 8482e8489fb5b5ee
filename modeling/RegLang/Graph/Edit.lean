import RegLang.Graph.Link
import RegLang.Graph.Normal
/-!
# Edits

An edit is one change of a graph made by hand.  `apply` makes it, or answers with a fault if the
edit names a state outside the arena or needs the reachable states and one of them is outside.
A transition or the initial state may point outside the arena; only what follows it is a fault.
-/

namespace RegLang

/-- One change of a graph. -/
inductive Edit where
  | addState
  | setAccept (q : Nat) (accept : Bool)
  | addTransition (q : Nat) (t : Transition)
  | setInitial (q : Nat)
  /-- Absorbs the second state into the first; the flag stays as it is. -/
  | addEpsilon (p q : Nat)
  /-- Absorbs along the closure of the edges and clears the flag. -/
  | addEpsilons (pairs : List StatePair)
  | compact
  | reduce
  | totalize
  | trim

namespace Graph

/-- The graph, if the given states are in its arena. -/
def ensureInside (g : Graph) (places : List Nat) : Except Fault Graph :=
  if places.all (· < g.size) then .ok g else .error .outOfRange

/-- Makes one edit. -/
def apply (g : Graph) : Edit → Except Fault Graph
  | .addState => .ok g.addState
  | .setAccept q accept => (g.ensureInside [q]).map (·.setAccept q accept)
  | .addTransition q t => (g.ensureInside [q]).map (·.addTransition q t)
  | .setInitial q => .ok (g.setInitial q)
  | .addEpsilon p q => (g.ensureInside [p, q]).map (·.absorb p q)
  | .addEpsilons pairs =>
    (g.ensureInside (pairs.flatMap fun p => [p.1, p.2])).map (·.absorbAll pairs)
  | .compact => g.ensureIntact.map fun _ => g.compact
  | .reduce => g.ensureIntact.map fun _ => g.reduce
  | .totalize => g.ensureIntact.map fun _ => g.totalize
  | .trim => g.ensureIntact.map fun _ => g.trim

/-- Makes edits one after the other, up to the first fault. -/
def applyAll (g : Graph) (edits : List Edit) : Except Fault Graph := edits.foldlM apply g

end Graph

end RegLang
