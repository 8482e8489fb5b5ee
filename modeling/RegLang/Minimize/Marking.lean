import RegLang.Minimize.Quotient
/-!
# Minimization by marking pairs

Pairs of states of a total deterministic graph are marked as distinguishable.  A pair is examined
once: if a common letter leads it to a marked pair it is marked, else it is noted at the pairs it
leads to.  Marking a pair marks what was noted there.
-/

namespace RegLang.Marking

/-- The pair with the smaller state first. -/
def ordered (p : StatePair) : StatePair := if p.2 < p.1 then (p.2, p.1) else p

/-- The targets of every two overlapping transitions of two sorted lists of disjoint ones. -/
def overlapTargets : List Transition → List Transition → List StatePair
  | [], _ => []
  | _, [] => []
  | t :: ts, u :: us =>
    if t.hi < u.lo then overlapTargets ts (u :: us)
    else if u.hi < t.lo then overlapTargets (t :: ts) us
    else
      (t.target, u.target) ::
        if t.hi < u.hi then overlapTargets ts (u :: us) else overlapTargets (t :: ts) us
termination_by ts us => ts.length + us.length

/-- The marked pairs, and for each pair those to be marked with it; pair `(p, q)` with `p < q`
stands at place `p * size + q`. -/
structure Marks where
  size : Nat
  marked : Array Bool
  noted : Array (List StatePair)

namespace Marks

def place (m : Marks) (p : StatePair) : Nat := p.1 * m.size + p.2

def isMarked (m : Marks) (p : StatePair) : Bool := m.marked.getD (m.place p) false

def notedAt (m : Marks) (p : StatePair) : List StatePair := m.noted.getD (m.place p) []

def set (m : Marks) (p : StatePair) : Marks :=
  { m with marked := m.marked.setIfInBounds (m.place p) true }

/-- Notes that `p` is to be marked with `q`. -/
def note (p : StatePair) (m : Marks) (q : StatePair) : Marks :=
  { m with noted := m.noted.modify (m.place q) (p :: ·) }

/-- Marks the pairs of a stack and what is noted at them, in at most `fuel` steps. -/
def spread : Nat → List StatePair → Marks → Marks
  | 0, _, m => m
  | _, [], m => m
  | fuel + 1, p :: rest, m =>
    if m.isMarked p then spread fuel rest m
    else
      let next := m.notedAt p
      let m' := m.set p
      spread fuel (next.filter (fun q => !m'.isMarked q) ++ rest) m'

end Marks

/-- All pairs of states, the smaller one first, in lexicographic order. -/
def pairsBelow (n : Nat) : List StatePair :=
  (List.range n).flatMap fun p => (List.range n).filterMap fun q =>
    if p < q then some (p, q) else none

/-- The marks at the start: of the pairs of which one state accepts. -/
def start (g : Graph) : Marks :=
  let n := g.size
  (pairsBelow n).foldl
    (fun m p => if (g.state p.1).accept != (g.state p.2).accept then m.set p else m)
    ⟨n, Array.replicate (n * n) false, Array.replicate (n * n) []⟩

/-- Examines one pair. -/
def examine (table : Array (List Transition)) (fuel : Nat) (m : Marks) (p : StatePair) : Marks :=
  if m.isMarked p then m
  else
    let next := (overlapTargets (table.getD p.1 []) (table.getD p.2 [])).map ordered
    if next.all fun q => !m.isMarked q then
      (next.filter fun q => q.1 != q.2).foldl (Marks.note p) m
    else m.spread fuel [p]

/-- All marks.  Every note is followed at most once, and a pair leaves no more notes than two
states have transitions. -/
def marks (g : Graph) : Marks :=
  let table := g.states.map fun s => Transition.sortByLower s.transitions
  let fuel := g.size * g.size * (2 * g.edgeCount) + 1
  (pairsBelow g.size).foldl (examine table fuel) (start g)

/-- Gives a state without a class the next one, together with all later states that it is not
distinguished from. -/
def assign (m : Marks) (s : Array (Option Nat) × Nat) (p : Nat) : Array (Option Nat) × Nat :=
  if (s.1.getD p none).isSome then s
  else
    (s.1.mapIdx fun q c =>
      if q = p || (p < q && !m.isMarked (p, q)) then some s.2 else c, s.2 + 1)

/-- Classes of states that are not distinguished, numbered in the order of their first states. -/
def classes (g : Graph) (m : Marks) : Classes :=
  let (found, count) := (List.range g.size).foldl (assign m) (Array.replicate g.size none, 0)
  ⟨found.map (·.getD 0), count⟩

/-- The minimal graph by marking. -/
def minimize (g : Graph) : Graph :=
  let total := g.prepareTotal
  total.quotient (classes total (marks total))

end RegLang.Marking
