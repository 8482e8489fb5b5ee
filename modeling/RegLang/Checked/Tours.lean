import RegLang.Checked.Table
import RegLang.StateSet
/-!
# Tours

A tour is an exploration whose parts can fail: the store that knows which items were met, and the
successors of an item.  States are stored in a set of fixed capacity, and items that need not be
numbers in a list.
-/

namespace RegLang

/-- How an item is put into a store: whether it is new, and the store afterwards. -/
abbrev Insertion (σ α : Type) := σ → α → Except Fault (Bool × σ)

/-- The items that wait, the store of the items that were met, and these in order of discovery, the
latest first. -/
structure Tour (σ α : Type) where
  queue : List α
  store : σ
  seen : List α

namespace Tour

variable {σ α : Type}

/-- Lets an item wait that was not met before. -/
def offer (insert : Insertion σ α) (t : Tour σ α) (x : α) : Except Fault (Tour σ α) := do
  let (new, store) ← insert t.store x
  return if new then ⟨t.queue ++ [x], store, x :: t.seen⟩ else ⟨t.queue, store, t.seen⟩

/-- Takes at most `fuel` items from the queue and offers the successors of each. -/
def drain (insert : Insertion σ α) (succ : α → Except Fault (List α)) :
    Nat → Tour σ α → Except Fault (Tour σ α)
  | 0, t => .ok t
  | fuel + 1, t =>
    match t.queue with
    | [] => .ok t
    | x :: rest => do
      let t ← (← succ x).foldlM (offer insert) ⟨rest, t.store, t.seen⟩
      drain insert succ fuel t

/-- The items met from some start items, in order of discovery. -/
def visit (insert : Insertion σ α) (empty : σ) (succ : α → Except Fault (List α)) (fuel : Nat)
    (starts : List α) : Except Fault (List α) := do
  let t ← starts.foldlM (offer insert) ⟨[], empty, []⟩
  return (← t.drain insert succ fuel).seen.reverse

/-- Puts an item into a list of items. -/
def listed [DecidableEq α] : Insertion (List α) α := fun seen x =>
  .ok (!seen.contains x, if seen.contains x then seen else x :: seen)

end Tour

end RegLang
