/-!
# Worklists and breadth-first exploration

A worklist is a queue that accepts every item once.  `explore` follows a successor function from
some start items and lists what it meets in the order of discovery; graphs built by exploration
number their states in that order.

* `nodup_explore`: no item is listed twice.
* `mem_offer`: an offered item has been seen afterwards, and nothing else is new.
-/

namespace RegLang

/-- A first-in-first-out queue that accepts every item at most once over its whole life. -/
structure Worklist (α : Type) where
  /-- The items still waiting, the next one first. -/
  queue : List α := []
  /-- Every item ever accepted, the latest first. -/
  seen : List α := []

namespace Worklist

variable {α : Type} [DecidableEq α]

/-! ## Operations -/

/-- Whether `x` was ever accepted. -/
def wasSeen (w : Worklist α) (x : α) : Bool := w.seen.contains x

/-- The worklist with `x` waiting at the end, unless it was accepted before. -/
def offer (w : Worklist α) (x : α) : Worklist α :=
  if w.wasSeen x then w else ⟨w.queue ++ [x], x :: w.seen⟩

/-- The worklist with all of a list offered in order. -/
def offerAll (w : Worklist α) (xs : List α) : Worklist α := xs.foldl offer w

/-- Whether `x` is accepted, and the worklist afterwards. -/
def push (w : Worklist α) (x : α) : Bool × Worklist α := (!w.wasSeen x, w.offer x)

/-- The next item and the worklist without it. -/
def pop? (w : Worklist α) : Option (α × Worklist α) :=
  match w.queue with
  | [] => none
  | x :: xs => some (x, { w with queue := xs })

/-- Takes at most `fuel` items from the queue and offers the successors of each. -/
def drain (succ : α → List α) : Nat → Worklist α → Worklist α
  | 0, w => w
  | fuel + 1, w =>
    match w.pop? with
    | none => w
    | some (x, w') => drain succ fuel (w'.offerAll (succ x))

end Worklist

/-- All items that at most `fuel` expansions discover from `starts`, in order of discovery.  A
fuel that bounds the number of items there are makes the list closed under `succ`. -/
def explore {α : Type} [DecidableEq α] (succ : α → List α) (fuel : Nat) (starts : List α) :
    List α :=
  ((({} : Worklist α).offerAll starts).drain succ fuel).seen.reverse

/-! ## Lemmas -/

namespace Worklist

variable {α : Type} [DecidableEq α]

@[simp] theorem wasSeen_iff {w : Worklist α} {x : α} : w.wasSeen x = true ↔ x ∈ w.seen := by
  simp [wasSeen]

theorem mem_offer {w : Worklist α} {x y : α} : y ∈ (w.offer x).seen ↔ y = x ∨ y ∈ w.seen := by
  unfold offer
  split
  · next h =>
    rw [wasSeen_iff] at h
    constructor
    · exact Or.inr
    · rintro (rfl | hy)
      · exact h
      · exact hy
  · exact List.mem_cons

theorem nodup_offer {w : Worklist α} (x : α) (h : w.seen.Nodup) : (w.offer x).seen.Nodup := by
  unfold offer
  split
  · exact h
  · next hx => exact List.nodup_cons.2 ⟨fun hm => hx (wasSeen_iff.2 hm), h⟩

theorem nodup_offerAll (xs : List α) {w : Worklist α} (h : w.seen.Nodup) :
    (w.offerAll xs).seen.Nodup := by
  induction xs generalizing w with
  | nil => exact h
  | cons x xs ih => exact ih (nodup_offer x h)

theorem nodup_drain (succ : α → List α) (fuel : Nat) {w : Worklist α} (h : w.seen.Nodup) :
    (w.drain succ fuel).seen.Nodup := by
  induction fuel generalizing w with
  | zero => exact h
  | succ fuel ih =>
    unfold drain pop?
    split
    · exact h
    · next hp =>
      split at hp
      · cases hp
      · cases hp
        exact ih (nodup_offerAll _ h)

end Worklist

theorem nodup_explore {α : Type} [DecidableEq α] (succ : α → List α) (fuel : Nat)
    (starts : List α) : (explore succ fuel starts).Nodup := by
  have h := Worklist.nodup_drain succ fuel
    (Worklist.nodup_offerAll starts (w := ⟨[], []⟩) List.nodup_nil)
  exact List.pairwise_reverse.2 (List.Pairwise.imp Ne.symm h)

end RegLang
