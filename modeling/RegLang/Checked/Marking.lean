import RegLang.Checked.Graphs
import RegLang.Minimize.Marking
/-!
# Marking with checks

The marks and notes of pairs of states, and the classes that are handed out in the end, stand in
tables.  A state that was never given a class is a fault.
-/

namespace RegLang.Checked

open Table

open RegLang.Marking (Marks ordered overlapTargets pairsBelow)

/-! ## Marks and notes -/

def isMarked (m : Marks) (p : StatePair) : Except Fault Bool := read m.marked (m.place p)

def mark (m : Marks) (p : StatePair) : Except Fault Marks := do
  return { m with marked := ← write m.marked (m.place p) true }

/-- Notes that `p` is to be marked with `q`. -/
def note (p : StatePair) (m : Marks) (q : StatePair) : Except Fault Marks := do
  return { m with noted := ← change m.noted (m.place q) (p :: ·) }

/-- Marks the pairs of a stack and what is noted at them, in at most `fuel` steps. -/
def spread : Nat → List StatePair → Marks → Except Fault Marks
  | 0, _, m => .ok m
  | _, [], m => .ok m
  | fuel + 1, p :: rest, m => do
    if ← isMarked m p then spread fuel rest m
    else
      let next ← read m.noted (m.place p)
      let m ← mark m p
      let fresh ← next.filterM fun q => (isMarked m q).map (!·)
      spread fuel (fresh ++ rest) m

/-! ## Pairs -/

/-- Marks a pair of which one state accepts. -/
def markApart (g : Graph) (m : Marks) (p : StatePair) : Except Fault Marks := do
  if (← look g State.accept p.1) != (← look g State.accept p.2) then mark m p else return m

/-- Examines one pair. -/
def examine (table : Array (List Transition)) (fuel : Nat) (m : Marks) (p : StatePair) :
    Except Fault Marks := do
  if ← isMarked m p then return m
  else
    let next := (overlapTargets (← read table p.1) (← read table p.2)).map ordered
    if ← next.anyM (isMarked m) then spread fuel [p] m
    else (next.filter fun q => q.1 != q.2).foldlM (note p) m

/-- All marks. -/
def marks (g : Graph) : Except Fault Marks := do
  let n := g.size
  let table ← sortedTable g
  let start ← (pairsBelow n).foldlM (markApart g)
    ⟨n, .replicate (n * n) false, .replicate (n * n) []⟩
  (pairsBelow n).foldlM (examine table (n * n * (2 * g.edgeCount) + 1)) start

/-! ## Classes -/

/-- Gives a state a class if it is not distinguished from `p`. -/
def join (m : Marks) (p c : Nat) (found : Array (Option Nat)) (q : Nat) :
    Except Fault (Array (Option Nat)) := do
  if ← isMarked m (p, q) then return found else write found q (some c)

/-- Gives a state without a class the next one, together with all later states that it is not
distinguished from. -/
def assign (n : Nat) (m : Marks) (s : Array (Option Nat) × Nat) (p : Nat) :
    Except Fault (Array (Option Nat) × Nat) := do
  match ← read s.1 p with
  | some _ => return s
  | none =>
    let later := (List.range n).filter (p < ·)
    return (← later.foldlM (join m p s.2) (← write s.1 p (some s.2)), s.2 + 1)

/-- The class found for a state, which must have one. -/
def classFound : Option Nat → Except Fault Nat
  | some c => .ok c
  | none => .error .outOfRange

/-- The classes that marking finds. -/
def markedClasses (g : Graph) : Except Fault Classes := do
  let m ← marks g
  let (found, count) ← (List.range g.size).foldlM (assign g.size m) (.replicate g.size none, 0)
  return ⟨(← found.toList.mapM classFound).toArray, count⟩

end RegLang.Checked
