import RegLang.EpsilonClosure
import RegLang.Graph.Reachable
/-!
# Linking states and graphs

Empty edges are never stored.  An empty edge from `p` to `q` is absorbed on the spot: `p` accepts
if `q` does and gets copies of the transitions of `q`.  Two graphs are brought into one arena by
`append`, where the second keeps its shape under shifted places.
-/

namespace RegLang.Graph

/-- Absorbs `q` into `p`, as if an empty edge led from `p` to `q`. -/
def absorb (g : Graph) (p q : Nat) : Graph :=
  g.modify p (·.absorb (g.state q))

/-- Absorbs `q` into every one of a list of states, in order. -/
def absorbInto (g : Graph) (ps : List Nat) (q : Nat) : Graph :=
  ps.foldl (fun g p => g.absorb p q) g

/-- Adds empty edges, closed under chaining; the result does not claim to be deterministic. -/
def absorbAll (g : Graph) (pairs : List StatePair) : Graph :=
  ((epsilonClosure pairs).foldl (fun g p => g.absorb p.1 p.2) g).setDeterministic false

/-- The place of state `q` of `h` once the arena of `h` follows that of `g`.  A place outside the
arena of `h` is shifted as a 32-bit number, so it may come round to the states of `g`. -/
def shift (g h : Graph) (q : Nat) : Nat :=
  if q < h.size then g.size + q else placeOf (g.size + q)

/-- The arena of `h` after that of `g`, with all places of `h` shifted.  Nothing leads to the new
states yet. -/
def append (g h : Graph) : Graph :=
  { g with
    states := g.states ++ h.states.map (·.mapTargets (g.shift h))
    hashCode := none }

/-! ## Lemmas -/

@[simp] theorem size_absorb (g : Graph) (p q : Nat) : (g.absorb p q).size = g.size :=
  size_modify _ _ _

/-- Within the arena of `h` shifting adds the size of `g`. -/
theorem shift_of_lt {g h : Graph} {q : Nat} (hq : q < h.size) : g.shift h q = g.size + q :=
  if_pos hq

@[simp] theorem size_append (g h : Graph) : (g.append h).size = g.size + h.size := by
  simp [append, size]

end RegLang.Graph
