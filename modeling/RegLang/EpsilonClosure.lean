import RegLang.SortedList
import RegLang.Transition
/-!
# Closure of empty edges

Empty edges between states are pairs of states.  `epsilonClosure` lists the transitive closure of
a list of such pairs: first the distinct pairs themselves in the order given, then the pairs that
follow by chaining, in the order in which a queue of pairs finds them.
-/

namespace RegLang

/-- An empty edge from the first state to the second, or a pair of states of two graphs. -/
abbrev StatePair := Nat × Nat

namespace EpsilonClosure

/-- The edges known so far in order of discovery, and those whose continuations are still to be
examined. -/
structure Progress where
  known : List StatePair
  waiting : List StatePair

/-- The states that known edges lead to from `q`, ascending. -/
def successors (known : List StatePair) (q : Nat) : List Nat :=
  SortedList.ofList ((known.filter (·.1 = q)).map (·.2))

/-- The states from which known edges lead to `q`, ascending. -/
def predecessors (known : List StatePair) (q : Nat) : List Nat :=
  SortedList.ofList ((known.filter (·.2 = q)).map (·.1))

/-- The pair waits at the end of the queue, unless it waits already. -/
def enqueue (waiting : List StatePair) (p : StatePair) : List StatePair :=
  if waiting.contains p then waiting else waiting ++ [p]

/-- The edge from `a` to `c` is known afterwards.  If it is new, it waits, and so do the edges
into `a`, which it may prolong. -/
def learn (a : Nat) (into : List Nat) (s : Progress) (c : Nat) : Progress :=
  if s.known.contains (a, c) then s
  else ⟨s.known ++ [(a, c)], (into.map (·, a)).foldl enqueue (enqueue s.waiting (a, c))⟩

/-- Prolongs the edge from `a` to `b` by every edge from `b`. -/
def chain (s : Progress) (a b : Nat) : Progress :=
  (successors s.known b).foldl (learn a (predecessors s.known a)) s

/-- Examines at most `fuel` waiting edges. -/
def close : Nat → Progress → List StatePair
  | 0, s => s.known
  | fuel + 1, s =>
    match s.waiting with
    | [] => s.known
    | (a, b) :: rest => close fuel (chain { s with waiting := rest } a b)

/-- Enough examinations for `n` edges: between their at most `2 * n` states there are at most
`4 * n * n` edges, and each new one lets itself and its predecessors wait. -/
def bound (n : Nat) : Nat := n + 4 * n * n * (2 * n + 1)

end EpsilonClosure

/-- The transitive closure of a list of empty edges. -/
def epsilonClosure (pairs : List StatePair) : List StatePair :=
  let distinct := pairs.foldl (fun known p => if known.contains p then known else known ++ [p]) []
  EpsilonClosure.close (EpsilonClosure.bound distinct.length) ⟨distinct, distinct⟩

end RegLang
