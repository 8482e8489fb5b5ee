import RegLang.Checked.ActiveLists
import RegLang.Checked.Graphs
import RegLang.Minimize.Quotient
/-!
# Partition refinement on tables

Refinement with everything that it looks up in tables: the block of every state, the sizes of the
blocks, the lists of active states, the states that step into a state on a letter, and flags for
what waits and for what was met.  A splitter is worked off in two passes.  The first one collects,
block by block, the states that step into it; the second one moves the collected states of each
block that is not collected as a whole to a new block.

With `n` states there are at most `n + 1` blocks, one of which may be empty.
-/

namespace RegLang.Checked

open Table

/-! ## Tables -/

/-- The block of every state, the sizes of the blocks, and the lists of their active states. -/
structure Blocks where
  blockOf : Array Nat
  size : Array Nat
  active : ActiveLists

/-- The splitters that wait, a block and a letter each, and a flag for every one that could. -/
structure Queue where
  pending : List (Nat × Nat)
  waiting : Array Bool

/-- The states that step into a splitter: a flag for every one of them, and a list for every block.
The blocks that have some are listed and flagged. -/
structure Collection where
  marked : Array Bool
  touched : List Nat
  isTouched : Array Bool
  leaving : Array (List Nat)

/-- All tables, with the number of blocks. -/
structure Tables where
  blocks : Blocks
  queue : Queue
  collection : Collection
  count : Nat

/-! ## The start -/

/-- The blocks and the states that step into each state on each letter, while these are found. -/
structure Survey where
  blockOf : Array Nat
  size : Array Nat
  incoming : Array (List Nat)

/-- Notes a state at the state that it steps to on a letter. -/
def noteStep (g : Graph) (letters q : Nat) (incoming : Array (List Nat)) (c : Char × Nat) :
    Except Fault (Array (List Nat)) := do
  let s ← g.fetch q
  match s.step c.1 with
  | some p => change incoming (p * letters + c.2) (· ++ [q])
  | none => .error (.noStep q)

/-- Puts a state into the first or the second block and notes its steps. -/
def Survey.enter (g : Graph) (sigma : List Char) (s : Survey) (q : Nat) : Except Fault Survey := do
  let j := if (← g.fetch q).accept then 0 else 1
  let blockOf ← write s.blockOf q j
  let size ← change s.size j (· + 1)
  let incoming ← sigma.zipIdx.foldlM (noteStep g sigma.length q) s.incoming
  return ⟨blockOf, size, incoming⟩

/-- The accepting and the rejecting states, with the steps of all states. -/
def survey (g : Graph) (sigma : List Char) : Except Fault Survey :=
  (List.range g.size).foldlM (Survey.enter g sigma)
    ⟨.replicate g.size 0, .replicate (g.size + 1) 0, .replicate (g.size * sigma.length) []⟩

/-- Puts a state into the lists of its block for the letters on which it is active. -/
def activate (s : Survey) (letters : Nat) (l : ActiveLists) (q : Nat) : Except Fault ActiveLists :=
  (List.range letters).foldlM (fun l x => do
    if (← read s.incoming (q * letters + x)).isEmpty then return l
    else l.add (← read s.blockOf q) q x) l

/-- Lets one of the first two blocks wait for a letter. -/
def Queue.open (states : Nat) (l : ActiveLists) (q : Queue) (x : Nat) : Except Fault Queue := do
  let j := if (← l.lengthAt 0 x) ≤ (← l.lengthAt 1 x) then 0 else 1
  let waiting ← write q.waiting (x * (states + 1) + j) true
  return ⟨q.pending ++ [(j, x)], waiting⟩

/-- No state was met yet. -/
def Collection.empty (states : Nat) : Collection :=
  ⟨.replicate states false, [], .replicate (states + 1) false, .replicate (states + 1) []⟩

def Tables.start (states letters : Nat) (s : Survey) : Except Fault Tables := do
  let active ← (List.range states).foldlM (activate s letters) (.new (states + 1) states letters)
  let queue ← (List.range letters).foldlM (Queue.open states active)
    ⟨[], .replicate (letters * (states + 1)) false⟩
  return ⟨⟨s.blockOf, s.size, active⟩, queue, .empty states, 2⟩

/-! ## Collecting -/

/-- Collects one state. -/
def Collection.mark (blockOf : Array Nat) (c : Collection) (q : Nat) : Except Fault Collection := do
  if ← read c.marked q then return c
  else
    let marked ← write c.marked q true
    let j ← read blockOf q
    let leaving ← change c.leaving j (· ++ [q])
    if ← read c.isTouched j then return ⟨marked, c.touched, c.isTouched, leaving⟩
    else return ⟨marked, c.touched ++ [j], ← write c.isTouched j true, leaving⟩

/-- Collects the states that step into some of the given ones on a letter. -/
def Collection.gather (incoming : Array (List Nat)) (letters : Nat) (blockOf : Array Nat) (x : Nat)
    (c : Collection) (qs : List Nat) : Except Fault Collection :=
  qs.foldlM (fun c q => do (← read incoming (q * letters + x)).foldlM (mark blockOf) c) c

/-- Forgets the collected states of a block. -/
def Collection.clear (c : Collection) (j : Nat) (leaving : List Nat) :
    Except Fault Collection := do
  let marked ← leaving.foldlM (fun m q => write m q false) c.marked
  let isTouched ← write c.isTouched j false
  return ⟨marked, c.touched, isTouched, ← write c.leaving j []⟩

/-! ## Dividing -/

/-- Moves a state from the list of one block to that of another, if the first one owns it. -/
def passOn (j k q : Nat) (l : ActiveLists) (x : Nat) : Except Fault ActiveLists := do
  if (← l.ownerAt q x) = some j then (← l.remove q x).add k q x else return l

/-- Moves a state from block `j` to block `k`. -/
def Blocks.move (letters j k : Nat) (b : Blocks) (q : Nat) : Except Fault Blocks := do
  let size ← change (← lower b.size j) k (· + 1)
  let blockOf ← write b.blockOf q k
  let active ← (List.range letters).foldlM (passOn j k q) b.active
  return ⟨blockOf, size, active⟩

/-- Lets one part of a divided block wait for a letter. -/
def Queue.choose (states : Nat) (l : ActiveLists) (j k : Nat) (q : Queue) (x : Nat) :
    Except Fault Queue := do
  let stay ← l.lengthAt j x
  let leave ← l.lengthAt k x
  let waits ← read q.waiting (x * (states + 1) + j)
  let chosen := if 0 < stay && stay ≤ leave && !waits then j else k
  return ⟨q.pending ++ [(chosen, x)], ← write q.waiting (x * (states + 1) + chosen) true⟩

/-- Makes a new block of the states that leave a block, unless they all do. -/
def Tables.divide (states letters j : Nat) (leaving : List Nat) (t : Tables) :
    Except Fault Tables := do
  if leaving.length < (← read t.blocks.size j) then
    let blocks ← leaving.foldlM (Blocks.move letters j t.count) t.blocks
    let queue ← (List.range letters).foldlM (Queue.choose states blocks.active j t.count) t.queue
    return ⟨blocks, queue, t.collection, t.count + 1⟩
  else return t

/-- Divides a block by the states collected in it, and forgets them. -/
def Tables.part (states letters : Nat) (t : Tables) (j : Nat) : Except Fault Tables := do
  let leaving ← read t.collection.leaving j
  let t ← t.divide states letters j leaving
  return ⟨t.blocks, t.queue, ← t.collection.clear j leaving, t.count⟩

/-- Works off a splitter that was taken off the queue. -/
def Tables.splitBy (incoming : Array (List Nat)) (states letters : Nat) (t : Tables) (b x : Nat) :
    Except Fault Tables := do
  let waiting ← write t.queue.waiting (x * (states + 1) + b) false
  let members ← t.blocks.active.members b x
  let collection ← t.collection.gather incoming letters t.blocks.blockOf x members
  let t ← collection.touched.foldlM (part states letters)
    ⟨t.blocks, ⟨t.queue.pending, waiting⟩, collection, t.count⟩
  return ⟨t.blocks, t.queue, ⟨t.collection.marked, [], t.collection.isTouched,
    t.collection.leaving⟩, t.count⟩

/-- Works off at most `fuel` splitters. -/
def Tables.refine (incoming : Array (List Nat)) (states letters : Nat) :
    Nat → Tables → Except Fault Tables
  | 0, t => .ok t
  | fuel + 1, t =>
    match t.queue.pending with
    | [] => .ok t
    | (b, x) :: rest => do
      let t ← Tables.splitBy incoming states letters
        ⟨t.blocks, ⟨rest, t.queue.waiting⟩, t.collection, t.count⟩ b x
      refine incoming states letters fuel t

/-! ## Classes -/

/-- Gives a block without a number the next one. -/
def number (s : Array (Option Nat) × Nat) (b : Nat) : Except Fault (Array (Option Nat) × Nat) := do
  match ← read s.1 b with
  | some _ => return s
  | none => return (← write s.1 b (some s.2), s.2 + 1)

/-- The number of a block, which must have one. -/
def numberOf (numbers : Array (Option Nat)) (b : Nat) : Except Fault Nat := do
  match ← read numbers b with
  | some c => return c
  | none => .error .outOfRange

/-- Classes of the blocks that have states, the block of the initial state first. -/
def renumber (blockOf : Array Nat) (initial count : Nat) : Except Fault Classes := do
  let numbers ← write (.replicate count none) (← read blockOf initial) (some 0)
  let (numbers, classes) ← blockOf.toList.foldlM number (numbers, 1)
  let classOf ← blockOf.toList.mapM (numberOf numbers)
  return ⟨classOf.toArray, classes⟩

/-- The classes that refinement finds. -/
def refinedClasses (g : Graph) : Except Fault Classes := do
  let sigma ← startPoints g
  let s ← survey g sigma
  let t ← Tables.start g.size sigma.length s
  let t ← t.refine s.incoming g.size sigma.length (sigma.length * (g.size + 1))
  renumber t.blocks.blockOf g.initial t.count

end RegLang.Checked
