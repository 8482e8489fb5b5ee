import RegLang.Transition
/-!
# Overlapping transitions of two states

Two lists of transitions, both sorted by lower bound, are compared interval by interval: each
transition of the first list meets a window of the second.
-/

namespace RegLang.Transition

/-- Every transition of the first list with its window: what is left of the second list once
transitions that end too early are dropped, up to the first one that begins too late. -/
def sweep : List Transition → List Transition → List (Transition × List Transition)
  | [], _ => []
  | t :: ts, us =>
    let rest := us.dropWhile fun u => u.hi < t.lo
    (t, rest.takeWhile fun u => u.lo ≤ t.hi) :: sweep ts rest

/-- The common intervals of two sorted lists, each with both targets. -/
def meets (ts us : List Transition) : List (Char × Char × Nat × Nat) :=
  (sweep ts us).flatMap fun (t, window) =>
    (window.filter fun u => t.lo ≤ u.hi).map fun u =>
      (Alphabet.upper t.lo u.lo, Alphabet.lower t.hi u.hi, t.target, u.target)

/-- The pairs of targets of each transition and its window. -/
def pairTargets (ts us : List Transition) : List (Nat × Nat) :=
  (sweep ts us).flatMap fun (t, window) => window.map fun u => (t.target, u.target)

/-- The sorted transitions leave no letter uncovered from `next` to `hi`; `none` is past the last
letter. -/
def covers (hi : Char) : Option Char → List Transition → Bool
  | none, [] => true
  | some c, [] => hi < c
  | none, u :: us => covers hi (Alphabet.next? u.hi) us
  | some c, u :: us => !(c < u.lo) && covers hi (Alphabet.next? u.hi) us

/-- Every letter of a transition of the first list is a letter of one of the second. -/
def coveredBy (ts us : List Transition) : Bool :=
  (sweep ts us).all fun (t, window) => covers t.hi (some t.lo) window

end RegLang.Transition
