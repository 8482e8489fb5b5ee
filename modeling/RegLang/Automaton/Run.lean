import RegLang.Automaton.Basic
import RegLang.StateSet
/-!
# Runs

A graph that claims to be deterministic is run along one path, any other by the set of states a
word leads to.  On graphs that claim it truthfully both agree.
-/

namespace RegLang

namespace Graph

/-- Whether the path of first transitions from `q` along a word ends in an accepting state. -/
def follow (g : Graph) : Nat → Word → Except Fault Bool
  | q, [] => (g.fetch q).map (·.accept)
  | q, c :: w =>
    (g.fetch q).bind fun s =>
      match s.step c with
      | some p => g.follow p w
      | none => .ok false

/-- The states that a letter leads to from some state of a set. -/
def advance (g : Graph) (current : StateSet) (c : Char) : Except Fault StateSet :=
  current.toList.foldlM
    (fun next q => (g.fetch q).bind fun s => next.insertAll (s.stepAll c))
    (StateSet.ofCapacity g.size)

/-- Whether a word leads from some state of a set to acceptance; once no state is left, it does
not. -/
def simulate (g : Graph) : StateSet → Word → Except Fault Bool
  | current, [] => current.toList.anyM fun q => (g.fetch q).map (·.accept)
  | current, c :: w =>
    (g.advance current c).bind fun next =>
      if next.isEmpty then .ok false else g.simulate next w

/-- Whether the graph accepts a word. -/
def run (g : Graph) (w : Word) : Except Fault Bool :=
  if g.deterministic then g.follow g.initial w
  else ((StateSet.ofCapacity g.size).insert g.initial).bind fun start => g.simulate start.2 w

end Graph

/-- Whether the automaton accepts a word. -/
def Automaton.run : Automaton → Word → Except Fault Bool
  | .singleton v, w => .ok (v = w)
  | .graph g, w => g.run w

end RegLang
