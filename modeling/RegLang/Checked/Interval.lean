import RegLang.Checked.Operations
import RegLang.Primitive.Interval
/-!
# Numbers in an interval with checks

The digits of both bounds are looked up side by side, and the places behind leading zeros are those
of items of the tree.
-/

namespace RegLang.Checked

open RegLang.Interval (Item padding)

/-- The items after one more digit; an upper bound without one is a fault while the lower bound has
one. -/
def taskRow (item : Item) : Except Fault (List (Char × Char × Item)) :=
  match item.2 with
  | .between (_ :: _) [] => .error .outOfRange
  | _ => .ok (Interval.row item)

/-- The tree of tasks between two bounds, with its items. -/
def tree (x y : Word) : Except Fault (List Item × Graph) := do
  let items ← discover taskRow (1 <<< (2 * (x.length + 1))) ([], .between x y)
  return (items, ← ofItems (fun item => .ok item.2.isDone) taskRow items)

/-- Lets the start absorb the places behind leading zeros and loop on zero. -/
def skipZeros (places : List Nat) (g : Graph) : Except Fault Graph := do
  let pairs := (places.filter (· != g.initial)).map (g.initial, ·)
  let linked ← absorbEdges g (epsilonClosure pairs)
  let looped ← update (linked.setDeterministic false) g.initial (·.push (.single '0' g.initial))
  return looped.setDeterministic false

/-- The graph for the numbers from `lo` to `hi`, before it is minimized. -/
def intervalGraph (lo hi digits : Nat) : Except Fault Graph := do
  let width := if 0 < digits then digits else (Numeral.decimal hi).length
  let x := Numeral.padded 10 width lo
  let y := Numeral.padded 10 width hi
  let (items, g) ← tree x y
  if 0 < digits then compact g
  else
    let places ← (padding (width + 1) ([], .between x y)).mapM (placeIn items)
    compact (← skipZeros places g)

/-- The decimal numbers from `lo` to `hi`: written with exactly `digits` digits, or with any number
of leading zeros if `digits` is `0`. -/
def ofInterval (lo hi digits : Nat) : Except Fault Automaton := do
  if hi < lo then .error (.intervalOrder lo hi)
  else if 0 < digits && digits < (Numeral.decimal hi).length then
    .error (.intervalWidth hi digits)
  else minimize .hopcroft (.graph (← intervalGraph lo hi digits))

end RegLang.Checked
