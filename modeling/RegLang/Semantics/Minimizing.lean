import RegLang.Minimize.Algorithm
/-!
# Minimization that nothing bounds

The loops behind the three ways to minimize are bounded: the worklist of sets of states, the
splitters that wait, the stack of pairs to be marked.  Here each of them goes on for as long as
there is something to do.  `Loop.Ends` says that such a loop ends, and with what;
`Graph.MinimizesTo` puts the loops together to whole minimizations.  If one of the loops went on
forever, there would be no graph that the minimization ends with.
-/

namespace RegLang

/-- Taking steps for as long as there is one comes to an end, and to this one. -/
inductive Loop.Ends {σ : Type} (step : σ → Option σ) : σ → σ → Prop
  | done {s : σ} (h : step s = none) : Ends step s s
  | next {s t u : σ} (h : step s = some t) (rest : Ends step t u) : Ends step s u

/-- Takes the next item off a worklist and offers what follows it. -/
def Worklist.turn {α : Type} [DecidableEq α] (succ : α → List α) (w : Worklist α) :
    Option (Worklist α) :=
  w.pop?.map fun (x, rest) => rest.offerAll (succ x)

/-! ## Refinement -/

namespace Refinement

/-- Takes the next splitter that waits and divides all blocks by it. -/
def turn (columns : Array Column) (p : Partition) : Option Partition :=
  match p.pending with
  | [] => none
  | (b, x) :: rest => some (splitBy columns { p with pending := rest } b x)

end Refinement

/-! ## Marking -/

namespace Marking

/-- Takes a pair off the stack; if it is not marked yet, marks it and puts on the stack what is
noted there. -/
def Marks.turn : List StatePair × Marks → Option (List StatePair × Marks)
  | ([], _) => none
  | (p :: rest, m) =>
    if m.isMarked p then some (rest, m)
    else some ((m.notedAt p).filter (fun q => !(m.set p).isMarked q) ++ rest, m.set p)

/-- The transitions of all states, sorted. -/
def sorted (t : Graph) : Array (List Transition) :=
  t.states.map fun s => Transition.sortByLower s.transitions

/-- The pairs that common letters lead to from a pair. -/
def nextPairs (table : Array (List Transition)) (p : StatePair) : List StatePair :=
  (overlapTargets (table.getD p.1 []) (table.getD p.2 [])).map ordered

/-- Examining a pair ends with these marks. -/
inductive Examines (table : Array (List Transition)) (m : Marks) (p : StatePair) : Marks → Prop
  | known (h : m.isMarked p = true) : Examines table m p m
  | noted (h : m.isMarked p = false) (apart : ∀ q ∈ nextPairs table p, m.isMarked q = false) :
      Examines table m p
        (((nextPairs table p).filter fun q => q.1 != q.2).foldl (Marks.note p) m)
  | told {q : StatePair} {m' : Marks} (h : m.isMarked p = false) (mem : q ∈ nextPairs table p)
      (marked : m.isMarked q = true) (spread : Loop.Ends Marks.turn ([p], m) ([], m')) :
      Examines table m p m'

/-- Examining one pair after the other ends with these marks. -/
inductive ExaminesAll (table : Array (List Transition)) : List StatePair → Marks → Marks → Prop
  | nil {m : Marks} : ExaminesAll table [] m m
  | cons {p : StatePair} {ps : List StatePair} {m m' k : Marks} (first : Examines table m p m')
      (rest : ExaminesAll table ps m' k) : ExaminesAll table (p :: ps) m k

end Marking

namespace Graph

/-! ## Subset construction -/

/-- The sets that the classes of letters lead to from a set. -/
def nextSets (g : Graph) (s : StateSet) : List StateSet :=
  (g.subsetRow (classes g.startPoints) s).map (·.2.2)

/-- The subset construction from a set ends with this graph. -/
def ConstructsTo (g : Graph) (start : StateSet) (h : Graph) : Prop :=
  ∃ w, Loop.Ends (Worklist.turn g.nextSets) (({} : Worklist StateSet).offerAll [start]) w ∧
    h = (ofItems (fun s => s.toList.any fun q => (g.state q).accept)
      (g.subsetRow (classes g.startPoints)) w.seen.reverse).trim

/-- Determinizing ends with this graph. -/
def DeterminizesTo (g h : Graph) : Prop :=
  if g.deterministic then h = g
  else g.ConstructsTo ((StateSet.ofCapacity g.size).add g.initial) h

/-- Reversing ends with this deterministic graph of the reversed words. -/
def ReversesTo (g h : Graph) : Prop :=
  g.reverse.ConstructsTo (g.acceptStates.foldl StateSet.add (.ofCapacity g.reverse.size)) h

/-! ## Minimization -/

/-- This way to minimize ends with this graph. -/
inductive MinimizesTo (g : Graph) : Minimization → Graph → Prop
  | alone {d : Graph} (determinized : g.DeterminizesTo d) (loops : d.loopsOnAny = true) :
      MinimizesTo g .hopcroft d
  | refined {d t : Graph} {columns : List Refinement.Column} {p : Refinement.Partition}
      (determinized : g.DeterminizesTo d) (loops : d.loopsOnAny = false)
      (total : t = d.totalize.compact)
      (stepping : t.startPoints.mapM (Refinement.column t) = .ok columns)
      (refined : Loop.Ends (Refinement.turn columns.toArray)
        (Refinement.start t columns.toArray) p) :
      MinimizesTo g .hopcroft (t.quotient (Refinement.classes t p))
  | reversed {r h : Graph} (once : g.ReversesTo r) (twice : r.ReversesTo h) :
      MinimizesTo g .brzozowski h
  | marked {d t : Graph} {m : Marking.Marks} (determinized : g.DeterminizesTo d)
      (total : t = d.totalize.compact)
      (examined : Marking.ExaminesAll (Marking.sorted t) (Marking.pairsBelow t.size)
        (Marking.start t) m) :
      MinimizesTo g .huffman (t.quotient (Marking.classes t m))

end Graph

end RegLang
