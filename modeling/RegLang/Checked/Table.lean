import RegLang.Fault
import RegLang.Result
/-!
# Tables

A table is an array that is read and written at computed indices.  An index outside the table is a
fault, and so is a count that would fall below zero.

The algorithms of `Checked` do on such tables what their namesakes elsewhere do on total data, so
they can fail; that they never do, and come to the same result, is proved of each.
-/

namespace RegLang.Table

variable {α : Type} {a : Array α} {i : Nat} {x : α}

/-- The entry at an index. -/
def read (a : Array α) (i : Nat) : Except Fault α :=
  match a[i]? with
  | some x => .ok x
  | none => .error .outOfRange

/-- The table with another entry at an index. -/
def write (a : Array α) (i : Nat) (x : α) : Except Fault (Array α) :=
  if i < a.size then .ok (a.setIfInBounds i x) else .error .outOfRange

/-- The table with another entry at an index, if there is one. -/
def writeSome (a : Array α) (i? : Option Nat) (x : α) : Except Fault (Array α) :=
  match i? with
  | some i => write a i x
  | none => .ok a

/-- The table with the entry at an index changed. -/
def change (a : Array α) (i : Nat) (f : α → α) : Except Fault (Array α) := do
  write a i (f (← read a i))

/-- The table with a count less by one. -/
def lower (a : Array Nat) (i : Nat) : Except Fault (Array Nat) := do
  match ← read a i with
  | 0 => .error .outOfRange
  | n + 1 => write a i n

/-- Files an item under an index. -/
def file {α : Type} (a : Array (List α)) (e : Nat × α) : Except Fault (Array (List α)) :=
  change a e.1 (· ++ [e.2])

/-! ## Lemmas -/

theorem read_eq_ok (h : a[i]? = some x) : read a i = .ok x := by
  rw [read, h]

theorem write_eq_ok (h : i < a.size) (x : α) : write a i x = .ok (a.setIfInBounds i x) := if_pos h

theorem lt_size_of_getElem? (h : a[i]? = some x) : i < a.size :=
  (Array.getElem?_eq_some_iff.1 h).1

theorem change_eq_ok (h : a[i]? = some x) (f : α → α) :
    change a i f = .ok (a.setIfInBounds i (f x)) := by
  rw [change, read_eq_ok h]
  exact write_eq_ok (lt_size_of_getElem? h) (f x)

theorem lower_eq_ok {a : Array Nat} {n : Nat} (h : a[i]? = some (n + 1)) :
    lower a i = .ok (a.setIfInBounds i n) := by
  rw [lower, read_eq_ok h]
  exact write_eq_ok (lt_size_of_getElem? h) n

theorem writeSome_eq_ok {i? : Option Nat} (h : ∀ i ∈ i?, i < a.size) (x : α) :
    writeSome a i? x = .ok (i?.elim a (a.setIfInBounds · x)) := by
  cases i? with
  | none => rfl
  | some i => exact write_eq_ok (h i rfl) x

theorem getElem?_write (h : i < a.size) (x : α) (j : Nat) :
    (a.setIfInBounds i x)[j]? = if j = i then some x else a[j]? := by
  by_cases hj : j = i
  · rw [if_pos hj, hj, Array.getElem?_setIfInBounds_self_of_lt h]
  · rw [if_neg hj, Array.getElem?_setIfInBounds_ne (Ne.symm hj)]

theorem getElem?_write_of_ne {j : Nat} (h : i ≠ j) (x : α) :
    (a.setIfInBounds i x)[j]? = a[j]? := Array.getElem?_setIfInBounds_ne h

theorem getElem?_writeSome {i? : Option Nat} (h : ∀ i ∈ i?, i < a.size) (x : α) (j : Nat) :
    (i?.elim a (a.setIfInBounds · x))[j]? = if i? = some j then some x else a[j]? := by
  cases i? with
  | none => simp
  | some i =>
    rw [Option.elim_some, getElem?_write (h i rfl)]
    simp [eq_comm]

@[simp] theorem size_writeSome {i? : Option Nat} (x : α) :
    (i?.elim a (a.setIfInBounds · x)).size = a.size := by
  cases i? <;> simp

/-- Items that all have a place in the table are filed there, in order. -/
theorem fileAll_spec {α : Type} {a : Array (List α)} {es : List (Nat × α)}
    (h : ∀ e ∈ es, e.1 < a.size) :
    Succeeds (es.foldlM file a) fun b => b.size = a.size ∧
      ∀ i : Nat, b[i]? = a[i]?.map (· ++ (es.filter (·.1 = i)).map (·.2)) := by
  refine succeeds_foldlM (I := fun (done : List (Nat × α)) (b : Array (List α)) =>
    b.size = a.size ∧ ∀ i : Nat, b[i]? = a[i]?.map (· ++ (done.filter (·.1 = i)).map (·.2)))
      ⟨rfl, by simp⟩ ?_
  rintro done ⟨j, x⟩ hmem - b ⟨hsize, hb⟩
  have hj : j < a.size := h (j, x) hmem
  have hread := hb j
  rw [Array.getElem?_eq_getElem hj, Option.map_some] at hread
  refine .of_eq (change_eq_ok hread _) ⟨by rw [Array.size_setIfInBounds, hsize], fun i => ?_⟩
  rw [getElem?_write (hsize ▸ hj)]
  by_cases hij : i = j
  · subst hij
    simp [hj]
  · rw [if_neg hij, hb i]
    simp [Ne.symm hij]

/-- Two places in a table of rows of one width. -/
theorem mul_add_eq_iff {w j k m : Nat} (hj : j < w) (hk : k < w) :
    i * w + j = m * w + k ↔ i = m ∧ j = k := by
  constructor
  · intro h
    have hdiv := congrArg (· / w) h
    have hmod := congrArg (· % w) h
    have hw : 0 < w := Nat.zero_lt_of_lt hj
    simp only [Nat.mul_comm _ w, Nat.mul_add_mod, Nat.mod_eq_of_lt hj, Nat.mod_eq_of_lt hk] at hmod
    simp only [Nat.mul_comm _ w, Nat.mul_add_div hw, Nat.div_eq_of_lt hj, Nat.div_eq_of_lt hk,
      Nat.add_zero] at hdiv
    exact ⟨hdiv, hmod⟩
  · rintro ⟨rfl, rfl⟩
    rfl

/-- A place in a table of rows is in the table. -/
theorem mul_add_lt {w j m : Nat} (hi : i < m) (hj : j < w) : i * w + j < m * w := by
  have hmul : (i + 1) * w ≤ m * w := Nat.mul_le_mul_right w hi
  rw [Nat.succ_mul] at hmul
  omega

end RegLang.Table
