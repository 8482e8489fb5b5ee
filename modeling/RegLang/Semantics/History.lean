import RegLang.Automaton.Iterate
import RegLang.Automaton.Product
import RegLang.Minimize.Algorithm
import RegLang.Primitive.Basic
import RegLang.Primitive.Interval
import RegLang.Primitive.Substring
/-!
# Histories

How automata come about: some are primitive, others are the results of operations on automata
that are there already.  A history is the list of all automata made so far, the latest first; each
was made in one step from those before it.

* `History.forall`: a property that every step passes on holds throughout every history.
-/

namespace RegLang

/-! ## Calls -/

/-- An automaton that is not made of others, by what it is made of. -/
inductive Primitive where
  | empty
  | word (w : Word)
  | letter (c : Char)
  | range (c d : Char)
  | letters (cs : Word)
  | anyLetter
  | anyWord
  | interval (lo hi digits : Nat)
  | containing (w : Word)

/-- Makes a primitive automaton; only the bounds of an interval can be at fault. -/
def Primitive.make : Primitive → Except Fault Automaton
  | empty => .ok .empty
  | word w => .ok (.ofWord w)
  | letter c => .ok (.ofLetter c)
  | range c d => .ok (.ofRange c d)
  | letters cs => .ok (.ofLetters cs)
  | anyLetter => .ok .anyLetter
  | anyWord => .ok .anyWord
  | interval lo hi digits => Automaton.ofInterval lo hi digits
  | containing w => .ok (.containing w)

/-- An operation that makes an automaton of automata. -/
inductive Operation where
  | union (as : List Automaton)
  | concatenate (as : List Automaton)
  | intersection (a b : Automaton)
  | minus (a b : Automaton)
  | complement (a : Automaton)
  | optional (a : Automaton)
  | star (a : Automaton)
  | atLeast (a : Automaton) (n : Nat)
  | repeated (a : Automaton) (lo hi : Nat)
  | determinize (a : Automaton)
  | minimize (m : Minimization) (a : Automaton)
  | reduce (a : Automaton)
  | totalize (a : Automaton)
  | trim (a : Automaton)
  | compact (a : Automaton)
  | expand (a : Automaton)

namespace Operation

/-- What an operation is applied to. -/
def operands : Operation → List Automaton
  | union as | concatenate as => as
  | intersection a b | minus a b => [a, b]
  | complement a | optional a | star a | atLeast a _ | repeated a _ _ | determinize a
  | minimize _ a | reduce a | totalize a | trim a | compact a | expand a => [a]

/-- The result of an operation. -/
def run : Operation → Except Fault Automaton
  | union as => Automaton.union as
  | concatenate as => Automaton.concatenate as
  | intersection a b => a.intersection b
  | minus a b => a.minus b
  | complement a => a.complement
  | optional a => a.optional
  | star a => a.star
  | atLeast a n => a.atLeast n
  | repeated a lo hi => a.repeated lo hi
  | determinize a => a.determinize
  | minimize m a => a.minimize m
  | reduce a => a.reduce
  | totalize a => a.totalize
  | trim a => a.trim
  | compact a => a.compact
  | expand a => .ok a.expand

end Operation

/-! ## Steps one after the other -/

/-- The automata made so far, where `Step as a` says that `a` can be made from `as`. -/
inductive History (Step : List Automaton → Automaton → Prop) : List Automaton → Prop
  | start : History Step []
  | next {as : List Automaton} {a : Automaton} (before : History Step as) (step : Step as a) :
      History Step (a :: as)

/-- What every step passes on, all automata of a history have. -/
theorem History.forall {Step : List Automaton → Automaton → Prop} {P : Automaton → Prop}
    (hstep : ∀ as a, (∀ b ∈ as, P b) → Step as a → P a) {as : List Automaton}
    (h : History Step as) : ∀ a ∈ as, P a := by
  induction h with
  | start => exact fun _ ha => absurd ha List.not_mem_nil
  | @next as a _ step ih =>
    intro b hb
    rcases List.mem_cons.1 hb with rfl | hb
    · exact hstep as b ih step
    · exact ih b hb

/-- What primitive automata have and operations pass on. -/
structure Inherited (P : Automaton → Prop) : Prop where
  primitive : ∀ (p : Primitive) a, p.make = .ok a → P a
  operation : ∀ (op : Operation) a, (∀ b ∈ op.operands, P b) → op.run = .ok a → P a

end RegLang
