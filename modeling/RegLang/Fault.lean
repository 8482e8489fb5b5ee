/-!
# Faults

A fault is a broken promise of the caller: bounds of a numeric interval in the wrong order, or a
state that is not in the arena.  Operations on automata that can meet one answer in
`Except Fault`; on arguments that keep the promises they never do.
-/

namespace RegLang

/-- What can be wrong with the arguments of an operation on automata. -/
inductive Fault where
  /-- An interval of numbers whose lower bound exceeds its upper bound. -/
  | intervalOrder (lo hi : Nat)
  /-- A number with more digits than the width of its interval. -/
  | intervalWidth (value digits : Nat)
  /-- A random walk in a state that neither accepts nor leads to acceptance. -/
  | deadEnd (state : Nat)
  /-- A state of a total automaton without a step on some letter. -/
  | noStep (state : Nat)
  /-- A state that is to leave a list of active states and is in none, with a letter by number. -/
  | inactive (state letter : Nat)
  /-- A state outside the arena, or an index outside the capacity of a set. -/
  | outOfRange
deriving DecidableEq, Repr

namespace Fault

/-- The text of a fault; a state out of range has none. -/
def message? : Fault → Option String
  | intervalOrder lo hi => some s!"interval bounds out of order: {lo} > {hi}"
  | intervalWidth value digits => some s!"{value} does not fit in {digits} digits"
  | deadEnd state => some s!"dead end at rejecting state {state}"
  | noStep state => some s!"no step from state {state} of a total automaton"
  | inactive state letter => some s!"state {state} is not active on symbol {letter}"
  | outOfRange => none

end Fault

end RegLang
