import RegLang.Checked.Subsets
import RegLang.Minimize.Quotient
/-!
# Quotients with checks

The first member of each class is found by way of a table with an entry for each class, and the
targets of its transitions are looked up in the table of classes.
-/

namespace RegLang.Checked

open Table

/-- A deterministic total graph of the same language whose arena holds the reachable states,
numbered breadth first. -/
def prepareTotal (g : Graph) : Except Fault Graph := do compact (← totalize (← determinize g))

/-- Lets a state stand for its class, unless an earlier one does. -/
def represent (firsts : Array (Option Nat)) (e : Nat × Nat) :
    Except Fault (Array (Option Nat)) := do
  match ← read firsts e.1 with
  | some _ => return firsts
  | none => write firsts e.1 (some e.2)

/-- The first member of each class. -/
def representatives (k : Classes) : Except Fault (Array (Option Nat)) :=
  k.classOf.toList.zipIdx.foldlM represent (.replicate k.count none)

/-- The class of a state, which must be one of the classes. -/
def classAt (k : Classes) (q : Nat) : Except Fault Nat := do
  read (.range k.count) (← read k.classOf q)

/-- The state of a class with a first member. -/
def classState (g : Graph) (k : Classes) : Option Nat → Except Fault State
  | some q => do retarget (classAt k) (← g.fetch q)
  | none => return {}

/-- One state for each class, without dead ends. -/
def quotient (g : Graph) (k : Classes) : Except Fault Graph := do
  let firsts ← representatives k
  let states ← firsts.toList.mapM (classState g k)
  let initial ← classAt k g.initial
  trim { states := states.toArray, initial := initial }

end RegLang.Checked
