import RegLang.Alphabet
/-!
# Transitions

A transition leads to a state on every letter of an inclusive interval.  Its bounds are in order
by construction.  Two orders on transitions are used: by target first, which is the normal form of
a state, and by lower bound first, which is how two states are compared interval by interval.

* `mem_sortByTarget`, `mem_sortByLower`: sorting neither adds nor loses a transition.
-/

namespace RegLang

/-- A state is known by its place in the arena of its graph.  A number from outside stands for a
place as a 32-bit number; arenas themselves grow without bound, and no place in them comes round. -/
def placeOf (n : Nat) : Nat := n % UInt32.size

/-- An edge to `target` on every letter from `lo` to `hi`. -/
structure Transition where
  lo : Char
  hi : Char
  target : Nat
  lo_le_hi : lo ≤ hi
deriving DecidableEq

namespace Transition

/-- The transition on a single letter. -/
def single (c : Char) (target : Nat) : Transition :=
  ⟨c, c, target, Char.le_refl c⟩

/-- The transition on all letters between two bounds, given in either order. -/
def between (c d : Char) (target : Nat) : Transition :=
  if h : c ≤ d then ⟨c, d, target, h⟩
  else ⟨d, c, target, (Char.le_total c d).resolve_left h⟩

/-- The transition on every letter. -/
def onAny (target : Nat) : Transition :=
  between Alphabet.first Alphabet.last target

/-- The transition applies to the letter `c`. -/
def contains (t : Transition) (c : Char) : Bool := t.lo ≤ c && c ≤ t.hi

/-- The same interval with another target. -/
def retarget (t : Transition) (target : Nat) : Transition := { t with target := target }

/-! ## Orders -/

/-- Ascending targets; then ascending lower bounds; then descending upper bounds. -/
def targetFirst (t u : Transition) : Bool :=
  t.target < u.target ||
    (t.target = u.target && (t.lo < u.lo || (t.lo = u.lo && u.hi ≤ t.hi)))

/-- Ascending lower bounds; then descending upper bounds; then ascending targets. -/
def lowerFirst (t u : Transition) : Bool :=
  t.lo < u.lo || (t.lo = u.lo && (u.hi < t.hi || (t.hi = u.hi && t.target ≤ u.target)))

/-- The transitions ordered by target. -/
def sortByTarget (ts : List Transition) : List Transition := ts.mergeSort targetFirst

/-- The transitions ordered by lower bound. -/
def sortByLower (ts : List Transition) : List Transition := ts.mergeSort lowerFirst

/-! ## Merging -/

/-- Two transitions to one state whose intervals overlap or touch. -/
def mergeable (t u : Transition) : Bool :=
  t.target = u.target && Alphabet.touches t.hi u.lo

/-- The interval reaches as far as the further of the two. -/
def extend (t u : Transition) : Transition :=
  between t.lo (Alphabet.upper t.hi u.hi) t.target

/-- The transitions after `t`, each merged into the one before it where that is possible. -/
def mergeFrom (t : Transition) : List Transition → List Transition
  | [] => [t]
  | u :: us => if mergeable t u then mergeFrom (extend t u) us else t :: mergeFrom u us

/-- One pass from left to right that merges neighbours. -/
def merge : List Transition → List Transition
  | [] => []
  | t :: ts => mergeFrom t ts

/-! ## Lemmas -/

@[simp] theorem retarget_target (t : Transition) (q : Nat) : (t.retarget q).target = q := rfl

theorem contains_iff {t : Transition} {c : Char} :
    t.contains c = true ↔ t.lo ≤ c ∧ c ≤ t.hi := by
  simp [contains]

theorem between_of_le {c d : Char} (h : c ≤ d) (q : Nat) : between c d q = ⟨c, d, q, h⟩ :=
  dif_pos h

@[simp] theorem between_target (c d : Char) (q : Nat) : (between c d q).target = q := by
  unfold between
  split <;> rfl

/-- Every letter is in the interval of `onAny`. -/
theorem onAny_contains (q : Nat) (c : Char) : (onAny q).contains c = true := by
  rw [onAny, between_of_le (Alphabet.first_le _), contains_iff]
  exact ⟨Alphabet.first_le c, Alphabet.le_last c⟩

@[simp] theorem mem_sortByTarget {t : Transition} {ts : List Transition} :
    t ∈ sortByTarget ts ↔ t ∈ ts := List.mem_mergeSort

@[simp] theorem mem_sortByLower {t : Transition} {ts : List Transition} :
    t ∈ sortByLower ts ↔ t ∈ ts := List.mem_mergeSort

end Transition

end RegLang
