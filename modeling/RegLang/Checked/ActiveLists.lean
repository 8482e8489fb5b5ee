import RegLang.Checked.Table
/-!
# Lists of active states

A state is active on a letter if some state steps into it.  The active states of every block are
kept in doubly linked lists, one for each letter: a node for each state and letter knows its
neighbours and the block that it belongs to, so a state changes its block in a few steps.
-/

namespace RegLang

open Table

/-- For each block and letter the first node of a list and its length, and for each state and letter
a node with its neighbours and the block that owns it. -/
structure ActiveLists where
  letters : Nat
  first : Array (Option Nat)
  length : Array Nat
  prev : Array (Option Nat)
  next : Array (Option Nat)
  owner : Array (Option Nat)

namespace ActiveLists

/-- Empty lists for so many blocks, states and letters. -/
def new (blocks states letters : Nat) : ActiveLists where
  letters := letters
  first := .replicate (blocks * letters) none
  length := .replicate (blocks * letters) 0
  prev := .replicate (states * letters) none
  next := .replicate (states * letters) none
  owner := .replicate (states * letters) none

/-- The place of a block, or of a state, with a letter. -/
def place (l : ActiveLists) (b x : Nat) : Nat := b * l.letters + x

/-- How many states of a block are active on a letter. -/
def lengthAt (l : ActiveLists) (b x : Nat) : Except Fault Nat := read l.length (l.place b x)

/-- The block whose list has the state, if one has. -/
def ownerAt (l : ActiveLists) (q x : Nat) : Except Fault (Option Nat) :=
  read l.owner (l.place q x)

/-- Puts a state in front of the list of a block and a letter. -/
def add (l : ActiveLists) (b q x : Nat) : Except Fault ActiveLists := do
  let list := l.place b x
  let node := l.place q x
  let head ← read l.first list
  let prev ← write l.prev node none
  let next ← write l.next node head
  let prev ← writeSome prev head (some node)
  let first ← write l.first list (some node)
  let length ← change l.length list (· + 1)
  let owner ← write l.owner node (some b)
  return ⟨l.letters, first, length, prev, next, owner⟩

/-- Takes a state out of the list that has it. -/
def remove (l : ActiveLists) (q x : Nat) : Except Fault ActiveLists := do
  let node := l.place q x
  match ← read l.owner node with
  | none => .error (.inactive q x)
  | some b =>
    let list := l.place b x
    let before ← read l.prev node
    let after ← read l.next node
    let next ← writeSome l.next before after
    let first ← if before.isSome then pure l.first else write l.first list after
    let prev ← writeSome l.prev after before
    let length ← lower l.length list
    let owner ← write l.owner node none
    let prev ← write prev node none
    let next ← write next node none
    return ⟨l.letters, first, length, prev, next, owner⟩

/-- The states along a list from a node on.  More nodes than there are are a fault. -/
def walk (l : ActiveLists) : Nat → Option Nat → Except Fault (List Nat)
  | _, none => .ok []
  | 0, some _ => .error .outOfRange
  | fuel + 1, some node => do
    let rest ← l.walk fuel (← read l.next node)
    return node / l.letters :: rest

/-- The states of a block that are active on a letter. -/
def members (l : ActiveLists) (b x : Nat) : Except Fault (List Nat) := do
  l.walk l.next.size (← read l.first (l.place b x))

end ActiveLists

end RegLang
