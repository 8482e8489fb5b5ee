import RegLang.Minimize.Quotient
/-!
# Minimization by partition refinement

The states of a total deterministic graph are kept in blocks, at first the accepting and the
rejecting ones.  A splitter is a block with a letter; it divides every block into the states that
step into the splitter on that letter and those that do not.  When a block is divided, each letter
needs only one of the two parts as a splitter later, and the one with fewer states that are
stepped into at all is taken, unless the old block is still waiting.
-/

namespace RegLang.Refinement

/-- The steps of all states on one letter. -/
structure Column where
  step : Array Nat
  /-- The states that some state steps into. -/
  image : StateSet

/-- The step of a state on a letter, which must exist. -/
def stepTo (g : Graph) (c : Char) (q : Nat) : Except Fault Nat :=
  match (g.state q).step c with
  | some p => .ok p
  | none => .error (.noStep q)

/-- The steps on a letter; every state must have one. -/
def column (g : Graph) (c : Char) : Except Fault Column :=
  ((List.range g.size).mapM (stepTo g c)).map fun steps =>
    ⟨steps.toArray, steps.foldl StateSet.add (.ofCapacity g.size)⟩

/-- Blocks of states by number, and the splitters that wait: a block and a letter by number. -/
structure Partition where
  blocks : Array (List Nat)
  pending : List (Nat × Nat)

namespace Partition

def block (p : Partition) (j : Nat) : List Nat := p.blocks.getD j []

end Partition

/-- How many of the given states are stepped into. -/
def Column.active (k : Column) (qs : List Nat) : Nat := (qs.filter k.image.contains).length

/-- The splitter to wait for a letter after block `j` was divided into `stay`, which keeps the
number, and `leave`, which is block `k`. -/
def choose (pending : List (Nat × Nat)) (j k : Nat) (stay leave : List Nat) (x : Nat)
    (col : Column) : Nat × Nat :=
  let a := col.active stay
  if 0 < a && a ≤ col.active leave && !pending.contains (j, x) then (j, x) else (k, x)

/-- Divides block `j` by a test, if the test divides it. -/
def divide (columns : Array Column) (test : Nat → Bool) (p : Partition) (j : Nat) :
    Partition :=
  let (leave, stay) := (p.block j).partition test
  if leave.isEmpty || stay.isEmpty then p
  else
    { blocks := (p.blocks.setIfInBounds j stay).push leave
      pending := p.pending ++
        (columns.mapIdx fun x col => choose p.pending j p.blocks.size stay leave x col).toList }

/-- Divides every block by the splitter made of block `b` and letter `x`. -/
def splitBy (columns : Array Column) (p : Partition) (b x : Nat) : Partition :=
  match columns[x]? with
  | none => p
  | some col =>
    let splitter := (p.block b).foldl StateSet.add (.ofCapacity col.step.size)
    let test (q : Nat) : Bool := splitter.contains (col.step.getD q 0)
    (List.range p.blocks.size).foldl (divide columns test) p

/-- Works off at most `fuel` splitters. -/
def refine (columns : Array Column) : Nat → Partition → Partition
  | 0, p => p
  | fuel + 1, p =>
    match p.pending with
    | [] => p
    | (b, x) :: rest => refine columns fuel (splitBy columns { p with pending := rest } b x)

/-- The accepting and the rejecting states; for each letter the one with fewer states that are
stepped into waits. -/
def start (g : Graph) (columns : Array Column) : Partition :=
  let (accepting, rejecting) := (List.range g.size).partition fun q => (g.state q).accept
  { blocks := #[accepting, rejecting]
    pending := (columns.mapIdx fun x col =>
      (if col.active accepting ≤ col.active rejecting then 0 else 1, x)).toList }

/-- Classes numbered in the order in which the states meet them, that of the initial state
first. -/
def classes (g : Graph) (p : Partition) : Classes :=
  let blockOf := (List.range g.size).map fun q =>
    (p.blocks.findIdx? fun b => b.contains q).getD 0
  let order := ((blockOf.getD g.initial 0) :: blockOf).eraseDups
  ⟨(blockOf.map order.idxOf).toArray, order.length⟩

/-- The coarsest partition that separates accepting from rejecting states and that every letter
respects.  Each letter waits once at the start and once for each of at most `g.size` divisions. -/
def partition (g : Graph) : Except Fault Partition :=
  (g.startPoints.mapM (column g)).map fun columns =>
    refine columns.toArray (columns.length * (g.size + 1)) (start g columns.toArray)

/-- The minimal graph by refinement.  A graph whose initial state only loops on every letter is
minimal as it is. -/
def minimize (g : Graph) : Except Fault Graph :=
  let d := g.determinize
  if d.loopsOnAny then .ok d
  else
    let total := d.prepareTotal
    (partition total).map fun p => total.quotient (classes total p)

end RegLang.Refinement
