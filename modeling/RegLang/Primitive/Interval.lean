import RegLang.Graph.Link
import RegLang.Graph.Unfold
import RegLang.Minimize.Algorithm
import RegLang.Numeral
/-!
# Numbers in an interval

The digit strings of the numbers between two bounds.  Both bounds are written with the same number
of digits.  A state is a task: the digits still to be read, with what the bounds still demand of
them.  Without a fixed width the start also begins behind any number of leading zeros.
-/

namespace RegLang.Interval

/-- What the digits still to be read must satisfy. -/
inductive Task where
  /-- Any digits, so many. -/
  | any (n : Nat)
  /-- At least these digits. -/
  | atLeast (x : Word)
  /-- At most these digits. -/
  | atMost (y : Word)
  /-- Between these digits, which are equally many. -/
  | between (x y : Word)
deriving DecidableEq

namespace Task

/-- All digits are read. -/
def isDone : Task → Bool
  | any n => n = 0
  | atLeast x => x.isEmpty
  | atMost y => y.isEmpty
  | between x _ => x.isEmpty

/-- The digit after `c`. -/
def succ (c : Char) : Char := (Alphabet.next? c).getD c

/-- The digit before `c`. -/
def pred (c : Char) : Char := (Alphabet.prev? c).getD c

/-- The tasks after one more digit, each with the range of that digit. -/
def branches : Task → List (Char × Char × Task)
  | any 0 => []
  | any (n + 1) => [('0', '9', any n)]
  | atLeast [] => []
  | atLeast (c :: x) =>
    (c, c, atLeast x) :: if c < '9' then [(succ c, '9', any x.length)] else []
  | atMost [] => []
  | atMost (d :: y) =>
    (d, d, atMost y) :: if '0' < d then [('0', pred d, any y.length)] else []
  | between (c :: x) (d :: y) =>
    if c = d then [(c, c, between x y)]
    else
      [(c, c, atLeast x), (d, d, atMost y)] ++
        if succ c < d then [(succ c, pred d, any x.length)] else []
  | between _ _ => []

end Task

/-- A task with the way to it: which branch was taken at each digit.  Tasks on different ways are
different states. -/
abbrev Item := List Nat × Task

/-- The items after one more digit. -/
def row (item : Item) : List (Char × Char × Item) :=
  item.2.branches.mapIdx fun i (c, d, t) => (c, d, i :: item.1, t)

/-- The items that are reached by reading zeros only, while both bounds or the lower one still
demand them; the first is the start. -/
def padding : Nat → Item → List Item
  | 0, _ => []
  | fuel + 1, (way, task) =>
    match task with
    | .between (c :: x) (d :: y) =>
      (way, task) ::
        if c = '0' then
          padding fuel (0 :: way, if c = d then .between x y else .atLeast x)
        else []
    | .atLeast (c :: x) =>
      (way, task) :: if c = '0' then padding fuel (0 :: way, .atLeast x) else []
    | _ => []

/-- The tree of tasks.  No digit leads to more than three tasks, so it has less than
`4 ^ (width + 1)` states. -/
def tree (x y : Word) : List Item × Graph :=
  let items := Graph.discover row (1 <<< (2 * (x.length + 1))) ([], .between x y)
  (items, Graph.ofItems (·.2.isDone) row items)

/-- Lets the start absorb the places behind leading zeros and loop on zero. -/
def skipZeros (places : List Nat) (g : Graph) : Graph :=
  let pairs := (places.filter (· != g.initial)).map (g.initial, ·)
  ((g.absorbAll pairs).addTransition g.initial (.single '0' g.initial)).setDeterministic false

/-- The graph for the numbers from `lo` to `hi`, before it is minimized. -/
def graph (lo hi digits : Nat) : Graph :=
  let width := if 0 < digits then digits else (Numeral.decimal hi).length
  let x := Numeral.padded 10 width lo
  let y := Numeral.padded 10 width hi
  let (items, g) := tree x y
  let opened :=
    if 0 < digits then g
    else skipZeros ((padding (width + 1) ([], .between x y)).map items.idxOf) g
  opened.compact

end Interval

/-- The decimal numbers from `lo` to `hi`: written with exactly `digits` digits, or with any number
of leading zeros if `digits` is `0`. -/
def Automaton.ofInterval (lo hi digits : Nat) : Except Fault Automaton :=
  if hi < lo then .error (.intervalOrder lo hi)
  else if 0 < digits && digits < (Numeral.decimal hi).length then
    .error (.intervalWidth hi digits)
  else Automaton.minimize .hopcroft (.graph (Interval.graph lo hi digits))

end RegLang
