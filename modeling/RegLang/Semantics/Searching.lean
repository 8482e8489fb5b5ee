import RegLang.Query.Finite
import RegLang.Semantics.Words
/-!
# Searches that nothing bounds

The search for a cycle and the walk along all paths are bounded, the one in its steps, the other in
its depth.  Here both go on for as long as there is something to do.  Each of the two relations says
that the search ends, and with which answer; a search that went on forever would have none.
-/

namespace RegLang

/-! ## Cycles -/

namespace Cycles

/-- The frame of a state none of whose targets has been followed. -/
def Frame.enter (g : Graph) (q : Nat) : Frame := ⟨q, (g.state q).targets⟩

/-- From this path and these states without cycles behind them, the search for a cycle ends with
this answer. -/
inductive Ends (g : Graph) (live : List Nat) : List Frame → List Nat → Bool → Prop
  | finished {done : List Nat} : Ends g live [] done true
  | leave {q : Nat} {stack : List Frame} {done : List Nat} {b : Bool}
      (rest : Ends g live stack (q :: done) b) : Ends g live (⟨q, []⟩ :: stack) done b
  | skip {q p : Nat} {ps : List Nat} {stack : List Frame} {done : List Nat} {b : Bool}
      (known : p ∉ live ∨ p ∈ done) (rest : Ends g live (⟨q, ps⟩ :: stack) done b) :
      Ends g live (⟨q, p :: ps⟩ :: stack) done b
  | met {q p : Nat} {ps : List Nat} {stack : List Frame} {done : List Nat} (mem : p ∈ live)
      (new : p ∉ done) (onPath : p ∈ q :: stack.map (·.state)) :
      Ends g live (⟨q, p :: ps⟩ :: stack) done false
  | enter {q p : Nat} {ps : List Nat} {stack : List Frame} {done : List Nat} {b : Bool}
      (mem : p ∈ live) (new : p ∉ done) (offPath : p ∉ q :: stack.map (·.state))
      (rest : Ends g live (.enter g p :: ⟨q, ps⟩ :: stack) done b) :
      Ends g live (⟨q, p :: ps⟩ :: stack) done b

end Cycles

/-! ## Walks along all paths -/

namespace FiniteWords

/-- A state to be visited, with the states and the letters on the path that leads there, both
backwards. -/
structure Visit where
  path : List Nat
  read : Word
  state : Nat

/-- The visit of the initial state. -/
def Visit.start (g : Graph) : Visit := ⟨[], [], g.initial⟩

/-- The visits that a transition leads to, letter by letter. -/
def Visit.along (v : Visit) (t : Transition) : List Visit :=
  (Alphabet.between t.lo t.hi).map fun c => ⟨v.state :: v.path, c :: v.read, t.target⟩

/-- The visits that the transitions to live states lead to. -/
def Visit.next (g : Graph) (live : List Nat) (v : Visit) : List Visit :=
  ((g.state v.state).transitions.filter fun t => live.contains t.target).flatMap v.along

/-- The words found, with the word that was read if the state accepts. -/
def Visit.collect (g : Graph) (limit : Option Nat) (v : Visit) (found : List Word) :
    Option (List Word) :=
  if (g.state v.state).accept then add limit v.read.reverse found else some found

/-- With these words found and these visits to be made, the walk ends with this answer. -/
inductive Ends (g : Graph) (live : List Nat) (limit : Option Nat) :
    List Visit → List Word → Option (List Word) → Prop
  | finished {found : List Word} : Ends g live limit [] found (some found)
  | met {v : Visit} {vs : List Visit} {found : List Word} (onPath : v.state ∈ v.path) :
      Ends g live limit (v :: vs) found none
  | full {v : Visit} {vs : List Visit} {found : List Word} (offPath : v.state ∉ v.path)
      (tooMany : v.collect g limit found = none) : Ends g live limit (v :: vs) found none
  | visit {v : Visit} {vs : List Visit} {found more : List Word} {r : Option (List Word)}
      (offPath : v.state ∉ v.path) (collected : v.collect g limit found = some more)
      (rest : Ends g live limit (v.next g live ++ vs) more r) : Ends g live limit (v :: vs) found r

end FiniteWords

end RegLang
