import RegLang.Graph.Reachable
/-!
# Normal forms of a graph

* `reduce` sorts the transitions of the reachable states and merges their intervals.
* `compact` keeps the reachable states alone and numbers them breadth first.
* `totalize` leads every letter without a transition to a new state that rejects for ever.
* `trim` drops what cannot lead to acceptance, then compacts and reduces.

None of them changes the language.
-/

namespace RegLang.Graph

/-- Brings the transitions of every reachable state into normal form. -/
def reduce (g : Graph) : Graph := g.modifyAll g.reachable State.reduce

/-- Keeps the reachable states only, in breadth-first order; a graph that is so already is left
alone. -/
def compact (g : Graph) : Graph :=
  let order := g.reachable
  if order = List.range g.size then g
  else
    { states := (order.map fun q => (g.state q).mapTargets order.idxOf).toArray
      initial := 0
      deterministic := g.deterministic }

/-! ## Totality -/

/-- The intervals of letters from `next` on that no transition of a list covers; the list is
sorted by lower bounds. -/
def gaps : Option Char → List Transition → List (Char × Char)
  | none, _ => []
  | some n, [] => [(n, Alphabet.last)]
  | some n, t :: ts =>
    let before :=
      if n < t.lo then (Alphabet.prev? t.lo).toList.map (n, ·) else []
    before ++ gaps (if n ≤ t.hi then Alphabet.next? t.hi else some n) ts

/-- The state with a transition to `sink` on every letter that had none. -/
def fill (sink : Nat) (s : State) : State :=
  { s with
    transitions := s.transitions ++
      (gaps (some Alphabet.first) (Transition.sortByLower s.transitions)).map fun (c, d) =>
        Transition.between c d sink }

/-- Makes every reachable state total by way of one more state, which loops on every letter. -/
def totalize (g : Graph) : Graph :=
  let sink := g.size
  let filled := g.modifyAll g.reachable (fill sink)
  { filled with states := filled.states.push { transitions := [Transition.onAny sink] } }

/-! ## Dead ends -/

/-- The state without its transitions to states outside a list. -/
def restrict (places : List Nat) (s : State) : State :=
  { s with transitions := s.transitions.filter fun t => places.contains t.target }

/-- Drops every transition to a state that is not live, then compacts and reduces. -/
def trim (g : Graph) : Graph :=
  let live := g.live
  let pruned : Graph := { g with states := g.states.map (restrict live), hashCode := none }
  pruned.compact.reduce

/-! ## Lemmas -/

theorem compact_eq_self {g : Graph} (h : g.reachable = List.range g.size) : g.compact = g :=
  if_pos h

@[simp] theorem size_reduce (g : Graph) : g.reduce.size = g.size := size_modifyAll _ _ _

@[simp] theorem size_totalize (g : Graph) : g.totalize.size = g.size + 1 := by
  simp [totalize, size, modifyAll]

@[simp] theorem deterministic_compact (g : Graph) : g.compact.deterministic = g.deterministic := by
  unfold compact
  dsimp only
  split <;> rfl

@[simp] theorem deterministic_totalize (g : Graph) :
    g.totalize.deterministic = g.deterministic := rfl

@[simp] theorem deterministic_trim (g : Graph) : g.trim.deterministic = g.deterministic :=
  deterministic_compact _

end RegLang.Graph
