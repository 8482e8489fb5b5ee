import RegLang.Automaton.Basic
/-!
# Finite languages

A language is finite if no live state is on a cycle of live states.  `isFinite` looks for such a
cycle depth first; `finiteWords` walks all paths letter by letter.
-/

namespace RegLang

namespace Cycles

/-- A state on the current path with those of its targets that are not yet followed. -/
structure Frame where
  state : Nat
  targets : List Nat

/-- Looks for a cycle depth first, in at most `fuel` steps.  The states of the stack form the
current path; from the states in `done` no cycle can be reached. -/
def acyclic (g : Graph) (live : List Nat) : Nat → List Frame → List Nat → Bool
  | 0, _, _ => true
  | _, [], _ => true
  | fuel + 1, ⟨q, []⟩ :: stack, done => acyclic g live fuel stack (q :: done)
  | fuel + 1, ⟨q, p :: ps⟩ :: stack, done =>
    let path := ⟨q, ps⟩ :: stack
    if !live.contains p || done.contains p then acyclic g live fuel path done
    else if path.any fun f => f.state = p then false
    else acyclic g live fuel (⟨p, (g.state p).targets⟩ :: path) done

end Cycles

/-- No live state is on a cycle of live states.  Every state is entered once, and every transition
is followed once. -/
def Graph.isFinite (g : Graph) : Bool :=
  let live := g.live
  !live.contains g.initial ||
    Cycles.acyclic g live (g.size + g.edgeCount + 1) [⟨g.initial, (g.state g.initial).targets⟩] []

namespace FiniteWords

/-- Continues with so many letters from position `n` of the alphabet on, up to a failure. -/
def eachLetter (visit : Char → List Word → Option (List Word)) :
    Nat → Nat → List Word → Option (List Word)
  | 0, _, found => some found
  | count + 1, n, found =>
    (visit (Alphabet.ofRank n) found).bind fun found => eachLetter visit count (n + 1) found

/-- Adds a word to the words found, unless there are more than `limit` then. -/
def add (limit : Option Nat) (w : Word) (found : List Word) : Option (List Word) :=
  let found := SortedList.insert w found
  match limit with
  | some l => if l < found.length then none else some found
  | none => some found

/-- Adds the words that continue `read` from a state on.  There is no result if the walk meets a
state of its path again or finds too many words.  The depth bounds the length of the path; `read`
is the word so far, backwards. -/
def visit (g : Graph) (live : List Nat) (limit : Option Nat) :
    Nat → List Nat → Word → Nat → List Word → Option (List Word)
  | 0, _, _, _, _ => none
  | depth + 1, path, read, q, found =>
    let s := g.state q
    let start := if s.accept then add limit read.reverse found else some found
    let path := q :: path
    start.bind fun found =>
      (s.transitions.filter fun t => live.contains t.target).foldlM
        (fun found t =>
          if path.contains t.target then none
          else
            eachLetter
              (fun c found => visit g live limit depth path (c :: read) t.target found)
              (Alphabet.count t.lo t.hi) (Alphabet.rank t.lo) found)
        found

end FiniteWords

/-- All words of a graph in ascending order, if they are finitely many and at most `limit`. -/
def Graph.finiteWords (g : Graph) (limit : Option Nat) : Option (List Word) :=
  let live := g.live
  if live.contains g.initial then
    FiniteWords.visit g live limit (g.size + 1) [] [] g.initial []
  else some []

namespace Automaton

/-- Whether the language is finite. -/
def isFinite : Automaton → Except Fault Bool
  | .singleton _ => .ok true
  | .graph g => g.ensureIntact.map fun _ => g.isFinite

/-- All words in ascending order, if they are finitely many and at most `limit`. -/
def finiteWords (limit : Option Nat) : Automaton → Except Fault (Option (List Word))
  | .singleton w => .ok (if limit = some 0 then none else some [w])
  | .graph g => g.ensureIntact.map fun _ => g.finiteWords limit

end Automaton

end RegLang
