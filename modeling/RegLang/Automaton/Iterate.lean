import RegLang.Automaton.Combine
/-!
# Powers and iteration

The empty word as an option, the star, and powers of a language with a lower bound or with both
bounds.
-/

namespace RegLang.Automaton

/-- A new state that accepts and absorbs the initial state.  It is numbered `g.size`. -/
def acceptFirst (g : Graph) : Graph :=
  (g.addState.absorb g.size g.initial).setAccept g.size true

/-- The words of the automaton and the empty word. -/
def optional (a : Automaton) : Except Fault Automaton := do
  let g := a.toGraph
  let _ ← g.addState.ensureInside [g.initial]
  return .graph (((acceptFirst g).setInitial g.size).setDeterministic false)

/-- All concatenations of words of the automaton: a new state accepts, starts like the initial
state, and is absorbed by every accepting state. -/
def star (a : Automaton) : Except Fault Automaton := do
  let g := a.toGraph
  let _ ← g.addState.ensureInside [g.initial]
  let opened := acceptFirst g
  opened.ensureIntact
  let looped := ((opened.absorbInto opened.acceptStates g.size).setInitial g.size)
  looped.ensureIntact
  return .graph (looped.setDeterministic false).compact

/-- All concatenations of at least `n` words of the automaton. -/
def atLeast (a : Automaton) (n : Nat) : Except Fault Automaton := do
  if n = 0 then a.star
  else
    let rest ← a.star
    concatenate (List.replicate n a ++ [rest])

/-- The accepting states of `g` absorb the start of `h` and go on accepting.  Only what is absorbed
must be in the arena. -/
def mayContinue (g h : Graph) : Except Fault Graph := do
  g.ensureIntact
  let init := g.shift h h.initial
  let joined ← (g.append h).ensureInside (g.acceptStates.map fun _ => init)
  return joined.absorbInto g.acceptStates init

/-- `n + 1` copies of a graph in a row, each of which may be the last. -/
def upTo (g : Graph) : Nat → Except Fault Graph
  | 0 => .ok g
  | n + 1 => (upTo g n).bind (mayContinue g)

/-- All concatenations of at least `lo` and at most `hi` words of the automaton; there are none if
`hi < lo`. -/
def repeated (a : Automaton) (lo hi : Nat) : Except Fault Automaton := do
  if hi < lo then return empty
  let required ←
    match lo with
    | 0 => pure emptyWord
    | 1 => pure a
    | _ => concatenate (List.replicate lo a)
  if hi = lo then return required
  let rest ← upTo a.toGraph (hi - lo - 1)
  let whole ← mayContinue required.toGraph rest
  whole.ensureIntact
  return .graph (whole.setDeterministic false).compact

end RegLang.Automaton
