import Mathlib.Algebra.BigOperators.Group.Finset.Basic
import RegLang.Semantics.Minimizing
/-!
# Marks and notes

The tables of marks and notes, read pair by pair, and what spreading marks does.  A note waits as
long as the pair where it stands is not marked; every step of spreading either takes a marked pair
off the stack or marks one, and then the notes there wait no longer.  Hence the fuel.

* `Sized.isMarked_set`, `Sized.mem_notedAt_note`: the tables as functions of pairs.
* `Sized.waiting_exchange`: how one place changes the number of waiting notes.
* `Spreading.run`: with fuel for the stack and all waiting notes, spreading comes to its end, with
  marks that are closed under notes.
-/

namespace RegLang.Marking

/-- Both states lie below `n`. -/
def Near (n : Nat) (p : StatePair) : Prop := p.1 < n ∧ p.2 < n

namespace Marks

/-- The tables have a place for every pair of states below `n`. -/
structure Sized (n : Nat) (m : Marks) : Prop where
  size_eq : m.size = n
  marked_size : m.marked.size = n * n
  noted_size : m.noted.size = n * n

/-- The number of notes at pairs that are not marked. -/
def waiting (m : Marks) : Nat :=
  ∑ i ∈ Finset.range (m.size * m.size),
    if m.marked.getD i false then 0 else (m.noted.getD i []).length

/-- The notes that wait at a place. -/
def waitingAt (m : Marks) (i : Nat) : Nat :=
  if m.marked.getD i false then 0 else (m.noted.getD i []).length

variable {n : Nat} {m m' : Marks} {p q r : StatePair}

/-! ## Places -/

theorem Sized.place_lt (hm : m.Sized n) (hp : Near n p) : m.place p < n * n := by
  have hle : (p.1 + 1) * n ≤ n * n := Nat.mul_le_mul_right n hp.1
  rw [Nat.succ_mul] at hle
  have hlt := hp.2
  unfold place
  rw [hm.size_eq]
  omega

theorem Sized.place_inj (hm : m.Sized n) (hp : Near n p) (hq : Near n q) :
    m.place p = m.place q ↔ p = q := by
  constructor
  · intro h
    unfold place at h
    rw [hm.size_eq] at h
    have hn : 0 < n := Nat.lt_of_le_of_lt (Nat.zero_le _) hp.2
    have h2 : p.2 = q.2 := by
      have hmod := congrArg (· % n) h
      simp only [Nat.mul_add_mod_self_right] at hmod
      rwa [Nat.mod_eq_of_lt hp.2, Nat.mod_eq_of_lt hq.2] at hmod
    have h1 : p.1 = q.1 := by
      rw [h2] at h
      exact Nat.eq_of_mul_eq_mul_right hn (Nat.add_right_cancel h)
    exact Prod.ext h1 h2
  · rintro rfl
    rfl

/-- A change at one place changes the number of waiting notes by those of that place. -/
theorem Sized.waiting_exchange (hm : m.Sized n) (hm' : m'.Sized n) (hp : Near n p)
    (hrest : ∀ i ≠ m.place p, m'.waitingAt i = m.waitingAt i) :
    m'.waiting + m.waitingAt (m.place p) = m.waiting + m'.waitingAt (m.place p) := by
  have hmem : m.place p ∈ Finset.range (n * n) := Finset.mem_range.2 (hm.place_lt hp)
  have hsum : ∑ i ∈ (Finset.range (n * n)).erase (m.place p), m'.waitingAt i =
      ∑ i ∈ (Finset.range (n * n)).erase (m.place p), m.waitingAt i :=
    Finset.sum_congr rfl fun i hi => hrest i (Finset.ne_of_mem_erase hi)
  have hbefore := Finset.add_sum_erase _ m.waitingAt hmem
  have hafter := Finset.add_sum_erase _ m'.waitingAt hmem
  have hw : m.waiting = ∑ i ∈ Finset.range (n * n), m.waitingAt i := hm.size_eq ▸ rfl
  have hw' : m'.waiting = ∑ i ∈ Finset.range (n * n), m'.waitingAt i := hm'.size_eq ▸ rfl
  omega

/-! ## Marks -/

theorem Sized.set (hm : m.Sized n) (p : StatePair) : (m.set p).Sized n where
  size_eq := hm.size_eq
  marked_size := by
    rw [← hm.marked_size]
    exact Array.size_setIfInBounds
  noted_size := hm.noted_size

theorem Sized.isMarked_set (hm : m.Sized n) (hp : Near n p) (hq : Near n q) :
    (m.set p).isMarked q = true ↔ q = p ∨ m.isMarked q = true := by
  have hlt : m.place p < m.marked.size := hm.marked_size ▸ hm.place_lt hp
  show (m.marked.setIfInBounds (m.place p) true).getD (m.place q) false = true ↔ _
  rw [Array.getD_eq_getD_getElem?, Array.getElem?_setIfInBounds]
  by_cases h : m.place p = m.place q
  · have he := (hm.place_inj hp hq).1 h
    subst he
    simp [hlt]
  · have hne : q ≠ p := fun he => h (by rw [he])
    rw [if_neg h, ← Array.getD_eq_getD_getElem?]
    exact (or_iff_right hne).symm

/-- Marking a pair ends the waiting of its notes. -/
theorem Sized.waiting_set (hm : m.Sized n) (hp : Near n p) (h : m.isMarked p = false) :
    (m.set p).waiting + (m.notedAt p).length = m.waiting := by
  have hlt : m.place p < m.marked.size := hm.marked_size ▸ hm.place_lt hp
  have hrest : ∀ i ≠ m.place p, (m.set p).waitingAt i = m.waitingAt i := by
    intro i hne
    show (if (m.marked.setIfInBounds (m.place p) true).getD i false then 0 else _) = _
    rw [Array.getD_eq_getD_getElem?, Array.getElem?_setIfInBounds_ne hne.symm,
      ← Array.getD_eq_getD_getElem?]
    rfl
  have hplace : m.marked.getD (m.place p) false = false := h
  have hbefore : m.waitingAt (m.place p) = (m.notedAt p).length :=
    if_neg (by rw [hplace]; exact Bool.false_ne_true)
  have hafter : (m.set p).waitingAt (m.place p) = 0 := by
    have hset : (m.marked.setIfInBounds (m.place p) true).getD (m.place p) false = true := by
      simp [Array.getD_eq_getD_getElem?, hlt]
    exact if_pos hset
  have hexchange := hm.waiting_exchange (hm.set p) hp hrest
  omega

/-! ## Notes -/

theorem Sized.note (hm : m.Sized n) (p q : StatePair) : (note p m q).Sized n where
  size_eq := hm.size_eq
  marked_size := hm.marked_size
  noted_size := by
    rw [← hm.noted_size]
    exact Array.size_modify

theorem Sized.mem_notedAt_note (hm : m.Sized n) (hq : Near n q) (hr : Near n r) {s : StatePair} :
    s ∈ (Marks.note p m q).notedAt r ↔ (r = q ∧ s = p) ∨ s ∈ m.notedAt r := by
  have hlt : m.place q < m.noted.size := hm.noted_size ▸ hm.place_lt hq
  show s ∈ (m.noted.modify (m.place q) (p :: ·)).getD (m.place r) [] ↔ _
  rw [Array.getD_eq_getD_getElem?, Array.getElem?_modify]
  by_cases h : m.place q = m.place r
  · have he := (hm.place_inj hq hr).1 h
    subst he
    simp [notedAt, Array.getD_eq_getD_getElem?, hlt]
  · have hne : r ≠ q := fun he => h (by rw [he])
    rw [if_neg h, ← Array.getD_eq_getD_getElem?]
    exact (or_iff_right fun he => hne he.1).symm

theorem Sized.waiting_note (hm : m.Sized n) (hq : Near n q) :
    (Marks.note p m q).waiting ≤ m.waiting + 1 := by
  have hlt : m.place q < m.noted.size := hm.noted_size ▸ hm.place_lt hq
  have hrest : ∀ i ≠ m.place q, (Marks.note p m q).waitingAt i = m.waitingAt i := by
    intro i hne
    have hnoted : (m.noted.modify (m.place q) (p :: ·)).getD i [] = m.noted.getD i [] := by
      rw [Array.getD_eq_getD_getElem?, Array.getElem?_modify, if_neg hne.symm,
        ← Array.getD_eq_getD_getElem?]
    show (if m.marked.getD i false then 0
      else ((m.noted.modify (m.place q) (p :: ·)).getD i []).length) = _
    rw [hnoted]
    rfl
  have hplace : ((m.noted.modify (m.place q) (p :: ·)).getD (m.place q) []).length =
      (m.noted.getD (m.place q) []).length + 1 := by
    simp [Array.getD_eq_getD_getElem?, Array.getElem_modify_self, hlt]
  have hone : (Marks.note p m q).waitingAt (m.place q) ≤ m.waitingAt (m.place q) + 1 := by
    show (if m.marked.getD (m.place q) false then 0
      else ((m.noted.modify (m.place q) (p :: ·)).getD (m.place q) []).length) ≤ _
    unfold waitingAt
    rw [hplace]
    split <;> omega
  have hexchange := hm.waiting_exchange (hm.note p q) hq hrest
  omega

/-! ## Spreading -/

/-- Marks on the way from `m₀`: only pairs with the property `D` are marked, and what is noted at a
marked pair, as well as every pair of `must`, is marked or on the stack. -/
structure Spreading (n : Nat) (D : StatePair → Prop) (m₀ : Marks) (must : List StatePair)
    (m : Marks) (stack : List StatePair) : Prop where
  sized : m.Sized n
  noted_eq : ∀ p, m.notedAt p = m₀.notedAt p
  mono : ∀ p, Near n p → m₀.isMarked p = true → m.isMarked p = true
  waiting_le : m.waiting ≤ m₀.waiting
  sound : ∀ p, Near n p → m.isMarked p = true → D p
  on_stack : ∀ p ∈ stack, Near n p ∧ D p
  closed : ∀ p, Near n p → m.isMarked p = true → ∀ r ∈ m₀.notedAt p,
    m.isMarked r = true ∨ r ∈ stack
  in_must : ∀ p ∈ must, Near n p ∧ (m.isMarked p = true ∨ p ∈ stack)

variable {D : StatePair → Prop} {m₀ : Marks} {must stack : List StatePair}

/-- A marked pair is taken off the stack. -/
theorem Spreading.pop (h : Spreading n D m₀ must m (p :: stack)) (hp : m.isMarked p = true) :
    Spreading n D m₀ must m stack := by
  have hoff : ∀ {r}, m.isMarked r = true ∨ r ∈ p :: stack → m.isMarked r = true ∨ r ∈ stack := by
    rintro r (hr | hr)
    · exact .inl hr
    · rcases List.mem_cons.1 hr with rfl | hr
      · exact .inl hp
      · exact .inr hr
  exact { h with
    on_stack := fun r hr => h.on_stack r (List.mem_cons_of_mem _ hr)
    closed := fun q hq hm r hr => hoff (h.closed q hq hm r hr)
    in_must := fun r hr => ⟨(h.in_must r hr).1, hoff (h.in_must r hr).2⟩ }

/-- A pair is marked and what is noted there put on the stack. -/
theorem Spreading.mark (hD : ∀ p, Near n p → D p → ∀ r ∈ m₀.notedAt p, Near n r ∧ D r)
    (h : Spreading n D m₀ must m (p :: stack)) (hp : m.isMarked p = false) :
    Spreading n D m₀ must (m.set p)
      ((m.notedAt p).filter (fun q => !(m.set p).isMarked q) ++ stack) := by
  obtain ⟨hnear, hdp⟩ := h.on_stack p List.mem_cons_self
  have hmark : ∀ {q}, Near n q → ((m.set p).isMarked q = true ↔ q = p ∨ m.isMarked q = true) :=
    fun hq => h.sized.isMarked_set hnear hq
  have hset : ∀ {r}, Near n r → m.isMarked r = true ∨ r ∈ p :: stack →
      (m.set p).isMarked r = true ∨
        r ∈ (m.notedAt p).filter (fun q => !(m.set p).isMarked q) ++ stack := by
    rintro r hr (hm | hm)
    · exact .inl ((hmark hr).2 (.inr hm))
    · rcases List.mem_cons.1 hm with rfl | hm
      · exact .inl ((hmark hr).2 (.inl rfl))
      · exact .inr (List.mem_append_right _ hm)
  refine ⟨h.sized.set p, h.noted_eq, ?_, ?_, ?_, ?_, ?_, ?_⟩
  · exact fun q hq hm => (hmark hq).2 (.inr (h.mono q hq hm))
  · have hle := h.waiting_le
    have hw := h.sized.waiting_set hnear hp
    omega
  · intro q hq hm
    rcases (hmark hq).1 hm with rfl | hm
    · exact hdp
    · exact h.sound q hq hm
  · intro r hr
    rcases List.mem_append.1 hr with hr | hr
    · have hnoted := (List.mem_filter.1 hr).1
      rw [h.noted_eq] at hnoted
      exact hD p hnear hdp r hnoted
    · exact h.on_stack r (List.mem_cons_of_mem _ hr)
  · intro q hq hm r hr
    rcases (hmark hq).1 hm with rfl | hm
    · cases hr' : (m.set q).isMarked r with
      | true => exact .inl rfl
      | false =>
        right
        apply List.mem_append_left
        rw [List.mem_filter, h.noted_eq]
        exact ⟨hr, by rw [hr']; rfl⟩
    · exact hset (hD q hq (h.sound q hq hm) r hr).1 (h.closed q hq hm r hr)
  · intro r hr
    exact ⟨(h.in_must r hr).1, hset (h.in_must r hr).1 (h.in_must r hr).2⟩

theorem turn_of_isMarked (hp : m.isMarked p = true) : turn (p :: stack, m) = some (stack, m) :=
  if_pos hp

theorem turn_of_not_isMarked (hp : m.isMarked p = false) : turn (p :: stack, m) =
    some ((m.notedAt p).filter (fun q => !(m.set p).isMarked q) ++ stack, m.set p) :=
  if_neg (by rw [hp]; exact Bool.false_ne_true)

/-- With fuel for the stack and all waiting notes, the stack is worked off. -/
theorem Spreading.run (hD : ∀ p, Near n p → D p → ∀ r ∈ m₀.notedAt p, Near n r ∧ D r)
    (fuel : Nat) (h : Spreading n D m₀ must m stack) (hf : stack.length + m.waiting ≤ fuel) :
    Spreading n D m₀ must (m.spread fuel stack) [] ∧
      Loop.Ends turn (stack, m) ([], m.spread fuel stack) := by
  induction fuel generalizing m stack with
  | zero =>
    cases stack with
    | nil => exact ⟨h, .done rfl⟩
    | cons p stack =>
      rw [List.length_cons] at hf
      omega
  | succ fuel ih =>
    cases stack with
    | nil => exact ⟨h, .done rfl⟩
    | cons p stack =>
      rw [List.length_cons] at hf
      unfold spread
      cases hp : m.isMarked p with
      | true =>
        rw [if_pos rfl]
        exact (ih (h.pop hp) (by omega)).imp_right (.next (turn_of_isMarked hp))
      | false =>
        rw [if_neg Bool.false_ne_true]
        refine (ih (h.mark hD hp) ?_).imp_right (.next (turn_of_not_isMarked hp))
        have hw := h.sized.waiting_set (h.on_stack p List.mem_cons_self).1 hp
        have hle := List.length_filter_le (fun q => !(m.set p).isMarked q) (m.notedAt p)
        rw [List.length_append]
        omega

end Marks

end RegLang.Marking
