import RegLang.Automaton.Basic
/-!
# Union and concatenation

Operands are brought into one arena and linked by absorption.  Shortcuts keep single words as
such, drop operands that add nothing and return a lone operand as it is.
-/

namespace RegLang.Automaton

/-! ## Union -/

/-- Absorbs the initial state of one more graph, brought into the arena, into the initial one. -/
def branch (g h : Graph) : Graph := (g.append h).absorb g.initial (g.shift h h.initial)

/-- The words of any of the given automata. -/
def union (as : List Automaton) : Except Fault Automaton := do
  let live ← as.filterM fun a => return !(← a.isEmpty)
  match live with
  | [] => return .graph (({} : Graph).setDeterministic false).compact
  | a :: rest =>
    if rest.isEmpty || (a.isSingleton && rest.all (· = a)) then return a
    return .graph (((live.map toGraph).foldl branch {}).setDeterministic false).compact

/-! ## Concatenation -/

/-- A graph under construction with the states that accept so far. -/
structure Prefix where
  graph : Graph
  accepting : List Nat

/-- Lets the states that accepted so far continue in `init`.  They go on accepting only if `init`
accepts; then they are added to `accepting`. -/
def continueIn (init : Nat) : List Nat → Prefix → Prefix
  | [], p => p
  | q :: qs, p =>
    let g := (p.graph.setAccept q false).absorb q init
    let accepting := if (g.state q).accept then p.accepting ++ [q] else p.accepting
    continueIn init qs ⟨g, accepting⟩

/-- Continues with one more graph. -/
def followBy (p : Prefix) (h : Graph) : Prefix :=
  if h.acceptsOnlyEmptyWord then p
  else
    let shift := p.graph.shift h
    continueIn (shift h.initial) p.accepting ⟨p.graph.append h, h.acceptStates.map shift⟩

/-- The words made of one word of each automaton, in order. -/
def concatenate (as : List Automaton) : Except Fault Automaton := do
  if as.all isSingleton then return .singleton (as.flatMap fun a => a.word?.getD [])
  if ← as.anyM isEmpty then return empty
  match as.map toGraph with
  | [] => return emptyWord
  | g :: gs =>
    let p := gs.foldl followBy ⟨g, g.acceptStates⟩
    return .graph (p.graph.setDeterministic false).compact

end RegLang.Automaton
