import RegLang.Graph.Normal
/-!
# Graphs of discovered items

Several constructions describe a graph by its states before they have numbers: sets of states,
pairs of states, bounds still to be met.  Items are discovered breadth first from a start item and
numbered in that order.
-/

namespace RegLang.Graph

variable {α : Type} [DecidableEq α]

/-- The items that the rows lead to from a start item, in order of discovery. -/
def discover (row : α → List (Char × Char × α)) (fuel : Nat) (start : α) : List α :=
  explore (fun x => (row x).map fun (_, _, y) => y) fuel [start]

/-- The graph with one state for each of a list of items; the first is initial. -/
def ofItems (accept : α → Bool) (row : α → List (Char × Char × α)) (items : List α) : Graph where
  states := (items.map fun x =>
    { accept := accept x
      transitions := (row x).map fun (c, d, y) => Transition.between c d (items.idxOf y) : State
      }).toArray

/-- The graph of the items discovered from a start item. -/
def unfold (accept : α → Bool) (row : α → List (Char × Char × α)) (fuel : Nat) (start : α) :
    Graph :=
  ofItems accept row (discover row fuel start)

/-! ## Lemmas -/

@[simp] theorem size_ofItems (accept : α → Bool) (row : α → List (Char × Char × α))
    (items : List α) : (ofItems accept row items).size = items.length := by
  simp [ofItems, size]

theorem nodup_discover (row : α → List (Char × Char × α)) (fuel : Nat) (start : α) :
    (discover row fuel start).Nodup := nodup_explore _ _ _

end RegLang.Graph
