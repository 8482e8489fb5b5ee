/-!
# Ordered lists without repetition

Small sets are kept as strictly ascending lists.  `insert` puts one element in its place.

* `mem_insert`: that element is added and no other.
-/

namespace RegLang.SortedList

variable {α : Type} [DecidableEq α] [LT α] [DecidableRel (α := α) (· < ·)]

/-- The list with `x` in its place; it stays as it is if `x` is there already. -/
def insert (x : α) : List α → List α
  | [] => [x]
  | y :: ys => if x = y then y :: ys else if x < y then x :: y :: ys else y :: insert x ys

/-- The elements of a list, ascending and once each. -/
def ofList (xs : List α) : List α := xs.foldl (fun ys x => insert x ys) []

/-! ## Lemmas -/

@[simp] theorem mem_insert {x y : α} {ys : List α} : y ∈ insert x ys ↔ y = x ∨ y ∈ ys := by
  induction ys with
  | nil => simp [insert]
  | cons z zs ih =>
    unfold insert
    split
    · next h =>
      subst h
      simp
    · split
      · simp
      · rw [List.mem_cons, ih, List.mem_cons]
        exact or_left_comm

@[simp] theorem mem_ofList {y : α} {xs : List α} : y ∈ ofList xs ↔ y ∈ xs := by
  have aux : ∀ (xs ys : List α),
      y ∈ xs.foldl (fun ys x => insert x ys) ys ↔ y ∈ xs ∨ y ∈ ys := by
    intro xs
    induction xs with
    | nil => simp
    | cons x xs ih =>
      intro ys
      rw [List.foldl_cons, ih, mem_insert, List.mem_cons]
      constructor
      · rintro (h | h | h)
        · exact Or.inl (Or.inr h)
        · exact Or.inl (Or.inl h)
        · exact Or.inr h
      · rintro ((h | h) | h)
        · exact Or.inr (Or.inl h)
        · exact Or.inl h
        · exact Or.inr (Or.inr h)
  rw [ofList, aux]
  simp

end RegLang.SortedList
