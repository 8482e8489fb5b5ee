import RegLang.SortedList
import RegLang.Alphabet
/-!
# Expressions

The tree of a pattern.  Concatenations built with `followedBy` keep neighbouring letters and
strings together as one literal.
-/

namespace RegLang

/-- A regular expression with intersection, complement, named automata and numeric intervals. -/
inductive Expr where
  | union (a b : Expr)
  | concat (a b : Expr)
  | inter (a b : Expr)
  | optional (a : Expr)
  | star (a : Expr)
  /-- At least `n` times. -/
  | atLeast (a : Expr) (n : Nat)
  /-- At least `lo` and at most `hi` times. -/
  | repeated (a : Expr) (lo hi : Nat)
  | compl (a : Expr)
  | letter (c : Char)
  | range (c d : Char)
  | anyLetter
  | empty
  | literal (w : Word)
  | anyWord
  /-- The automaton of that name. -/
  | named (name : String)
  /-- The numbers from `lo` to `hi`, written with exactly `digits` digits, or with any number of
  leading zeros if `digits` is `0`. -/
  | interval (lo hi digits : Nat)
deriving DecidableEq

namespace Expr

/-- The word that a letter or a literal stands for. -/
def literal? : Expr → Option Word
  | letter c => some [c]
  | literal w => some w
  | _ => none

/-- The concatenation of two expressions.  Two literals that meet become one, also where one of
them is the near end of a concatenation. -/
def followedBy (a b : Expr) : Expr :=
  match a.literal?, b.literal? with
  | some v, some w => literal (v ++ w)
  | some v, none =>
    match b with
    | concat b₁ b₂ =>
      match b₁.literal? with
      | some w => concat (literal (v ++ w)) b₂
      | none => concat a b
    | _ => concat a b
  | none, some w =>
    match a with
    | concat a₁ a₂ =>
      match a₂.literal? with
      | some v => concat a₁ (literal (v ++ w))
      | none => concat a b
    | _ => concat a b
  | none, none => concat a b

/-- The names in an expression from left to right, with repetitions. -/
def names : Expr → List String
  | union a b | concat a b | inter a b => a.names ++ b.names
  | optional a | star a | atLeast a _ | repeated a _ _ | compl a => a.names
  | named name => [name]
  | _ => []

/-- The names in an expression, ascending and once each. -/
def identifiers (e : Expr) : List String := SortedList.ofList e.names

/-! ## Lemmas -/

/-- What is collected from an expression, and nothing of it from letters and literals, is the same
whether literals that meet are joined or not. -/
theorem collect_followedBy {α : Type} {collect : Expr → List α}
    (hliteral : ∀ a w, a.literal? = some w → collect a = [])
    (hconcat : ∀ a b, collect (concat a b) = collect a ++ collect b) (a b : Expr) :
    collect (a.followedBy b) = collect a ++ collect b := by
  have hjoined : ∀ w, collect (literal w) = [] := fun w => hliteral _ w rfl
  unfold followedBy
  split
  · next hv hw => rw [hjoined, hliteral _ _ hv, hliteral _ _ hw, List.append_nil]
  · next hv _ =>
    split
    · split
      · next hw =>
        rw [hconcat, hconcat, hjoined, hliteral _ _ hv, hliteral _ _ hw, List.nil_append,
          List.nil_append]
      · exact hconcat _ _
    · exact hconcat _ _
  · next hw =>
    split
    · split
      · next hv =>
        rw [hconcat, hconcat, hjoined, hliteral _ _ hv, hliteral _ _ hw, List.append_nil,
          List.append_nil]
      · exact hconcat _ _
    · exact hconcat _ _
  · exact hconcat _ _

theorem names_followedBy (a b : Expr) : (a.followedBy b).names = a.names ++ b.names := by
  refine collect_followedBy (fun a w h => ?_) (fun _ _ => rfl) a b
  cases a with
  | letter c => rfl
  | literal w => rfl
  | _ => cases h

end Expr

end RegLang
