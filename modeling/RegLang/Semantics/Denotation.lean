import Mathlib.Computability.Language
import RegLang.Expr.Basic
import RegLang.Numeral
/-!
# What expressions denote

The language of an expression, given a language for every name.  It is defined by the operations
on languages alone, without automata.

* `denote_followedBy`: joining literals does not change what a concatenation denotes.
-/

namespace RegLang

open Computability

/-- The words of one letter from `c` to `d`. -/
def lettersBetween (c d : Char) : Language Char := {w | ∃ x, c ≤ x ∧ x ≤ d ∧ w = [x]}

/-- The words of decimal digits whose value is from `lo` to `hi`; they have exactly `digits`
digits unless that is `0`. -/
def numbersBetween (lo hi digits : Nat) : Language Char :=
  {w | w ≠ [] ∧ w.all Char.isDigit = true ∧ lo ≤ Numeral.value w ∧ Numeral.value w ≤ hi ∧
    (digits = 0 ∨ w.length = digits)}

/-- The concatenations of `n` words of a language, for any `n` from `lo` to `hi`. -/
def powersBetween (l : Language Char) (lo hi : Nat) : Language Char :=
  {w | ∃ n, lo ≤ n ∧ n ≤ hi ∧ w ∈ l ^ n}

/-- The language of an expression. -/
def Expr.denote (env : String → Language Char) : Expr → Language Char
  | union a b => a.denote env + b.denote env
  | concat a b => a.denote env * b.denote env
  | inter a b => {w | w ∈ a.denote env ∧ w ∈ b.denote env}
  | optional a => a.denote env + 1
  | star a => (a.denote env)∗
  | atLeast a n => (a.denote env) ^ n * (a.denote env)∗
  | repeated a lo hi => powersBetween (a.denote env) lo hi
  | compl a => {w | w ∉ a.denote env}
  | letter c => {[c]}
  | range c d => lettersBetween (Alphabet.lower c d) (Alphabet.upper c d)
  | anyLetter => lettersBetween Alphabet.first Alphabet.last
  | empty => 0
  | literal w => {w}
  | anyWord => {_w | True}
  | named name => env name
  | interval lo hi digits => numbersBetween lo hi digits

namespace Expr

variable {env : String → Language Char} {a b : Expr} {w : Word}

@[simp] theorem mem_denote_union :
    w ∈ (union a b).denote env ↔ w ∈ a.denote env ∨ w ∈ b.denote env := Iff.rfl

@[simp] theorem mem_denote_optional :
    w ∈ (optional a).denote env ↔ w ∈ a.denote env ∨ w = [] := Iff.rfl

@[simp] theorem mem_denote_letter {c : Char} : w ∈ (letter c).denote env ↔ w = [c] := Iff.rfl

/-- A letter or a literal denotes its word alone. -/
theorem denote_of_literal? {v : Word} (h : a.literal? = some v) : a.denote env = {v} := by
  cases a <;> simp only [literal?, Option.some.injEq, reduceCtorEq] at h <;> subst h <;> rfl

theorem singleton_append (v w : Word) : ({v ++ w} : Language Char) = {v} * {w} :=
  (Set.image2_singleton).symm

/-- Joining literals does not change what a concatenation denotes. -/
theorem denote_followedBy : (a.followedBy b).denote env = a.denote env * b.denote env := by
  unfold followedBy
  split
  · next v w hv hw => rw [denote_of_literal? hv, denote_of_literal? hw, ← singleton_append]; rfl
  · next v hv _ =>
    split
    · next b₁ b₂ _ =>
      split
      · next w hw =>
        show ({v ++ w} : Language Char) * b₂.denote env = _ * (b₁.denote env * b₂.denote env)
        rw [denote_of_literal? hv, denote_of_literal? hw, singleton_append, mul_assoc]
      · rfl
    · rfl
  · next w _ hw =>
    split
    · next a₁ a₂ _ =>
      split
      · next v hv =>
        show a₁.denote env * ({v ++ w} : Language Char) = a₁.denote env * a₂.denote env * _
        rw [denote_of_literal? hv, denote_of_literal? hw, singleton_append, mul_assoc]
      · rfl
    · rfl
  · rfl

end Expr

end RegLang
