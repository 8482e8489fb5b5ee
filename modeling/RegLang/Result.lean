/-!
# Results

What is known of a computation that has succeeded, and of its parts; and computations that succeed.

* `bind_eq_ok`, `map_eq_ok`, `mapError_eq_ok`: the parts of what has succeeded.
* `Succeeds.bind`, `succeeds_foldlM`: what succeeds if its parts do.
* `SucceedsUnless.bind`: what fails in one way only.
* `foldlM_eq_ok`, `mapM_eq_ok`: what comes to the same as without failures.
-/

namespace RegLang

variable {ε δ α β : Type}

theorem bind_eq_ok {r : Except ε α} {f : α → Except ε β} {y : β} :
    r >>= f = .ok y ↔ ∃ x, r = .ok x ∧ f x = .ok y := by
  cases r with
  | error e => simp [Bind.bind, Except.bind]
  | ok x => simp [Bind.bind, Except.bind]

theorem map_eq_ok {r : Except ε α} {f : α → β} {y : β} :
    r.map f = .ok y ↔ ∃ x, r = .ok x ∧ f x = y := by
  cases r with
  | error e => simp [Except.map]
  | ok x => simp [Except.map]

theorem mapError_eq_ok {r : Except ε α} {f : ε → δ} {x : α} :
    r.mapError f = .ok x ↔ r = .ok x := by
  cases r with
  | error e => exact ⟨nofun, nofun⟩
  | ok y =>
    constructor
    · intro h
      cases h
      rfl
    · intro h
      cases h
      rfl

/-! ## Computations that succeed -/

/-- The computation succeeds, with a result that satisfies `P`. -/
def Succeeds (r : Except ε α) (P : α → Prop) : Prop := ∃ x, r = .ok x ∧ P x

variable {r : Except ε α} {P : α → Prop} {Q : β → Prop} {f : α → Except ε β}

theorem Succeeds.of_eq {x : α} (h : r = .ok x) (hx : P x) : Succeeds r P := ⟨x, h, hx⟩

theorem Succeeds.pure {x : α} (h : P x) : Succeeds (.ok x : Except ε α) P := ⟨x, rfl, h⟩

theorem Succeeds.bind (h : Succeeds r P) (hf : ∀ x, P x → Succeeds (f x) Q) :
    Succeeds (r >>= f) Q := by
  obtain ⟨x, rfl, hx⟩ := h
  exact hf x hx

theorem Succeeds.mono {Q : α → Prop} (h : Succeeds r P) (hPQ : ∀ x, P x → Q x) : Succeeds r Q := by
  obtain ⟨x, hr, hx⟩ := h
  exact ⟨x, hr, hPQ x hx⟩

theorem Succeeds.eq_ok {x : α} (h : Succeeds r (· = x)) : r = .ok x := by
  obtain ⟨y, hr, rfl⟩ := h
  exact hr

theorem ok_bind {x : α} : (.ok x : Except ε α) >>= f = f x := rfl

/-- The computation fails with `e`, or it succeeds with a result that satisfies `P`. -/
def SucceedsUnless (e : ε) (r : Except ε α) (P : α → Prop) : Prop := r = .error e ∨ Succeeds r P

theorem SucceedsUnless.bind {e : ε} (h : SucceedsUnless e r P)
    (hf : ∀ x, P x → SucceedsUnless e (f x) Q) : SucceedsUnless e (r >>= f) Q := by
  rcases h with rfl | ⟨x, rfl, hx⟩
  · exact .inl rfl
  · exact hf x hx

/-- A fold succeeds if each step keeps an invariant of what has been folded so far.  Without
repetitions that does not have the next element. -/
theorem succeeds_foldlM {xs : List α} {f : β → α → Except ε β} {I : List α → β → Prop} {b : β}
    (init : I [] b)
    (step : ∀ done x, x ∈ xs → (xs.Nodup → x ∉ done) → ∀ b, I done b →
      Succeeds (f b x) (I (done ++ [x]))) :
    Succeeds (xs.foldlM f b) (I xs) := by
  have aux : ∀ (rest done : List α) (b : β), xs = done ++ rest → I done b →
      Succeeds (rest.foldlM f b) (I xs) := by
    intro rest
    induction rest with
    | nil =>
      intro done b hxs hb
      rw [List.append_nil] at hxs
      rw [hxs]
      exact .pure hb
    | cons x rest ih =>
      intro done b hxs hb
      have hmem : x ∈ xs := hxs ▸ List.mem_append_right _ List.mem_cons_self
      have hnew : xs.Nodup → x ∉ done := fun hnodup hm =>
        (List.nodup_append.1 (hxs ▸ hnodup)).2.2 x hm x List.mem_cons_self rfl
      rw [List.foldlM_cons]
      exact (step done x hmem hnew b hb).bind fun b' hb' => ih (done ++ [x]) b' (by simp [hxs]) hb'
  exact aux xs [] b rfl init

/-- A fold whose every step succeeds, as long as an invariant holds, is a fold without failures. -/
theorem foldlM_eq_ok {xs : List α} {f : β → α → Except ε β} {g : β → α → β} {I : β → Prop} {b : β}
    (hb : I b) (h : ∀ b, I b → ∀ x ∈ xs, f b x = .ok (g b x) ∧ I (g b x)) :
    xs.foldlM f b = .ok (xs.foldl g b) ∧ I (xs.foldl g b) := by
  induction xs generalizing b with
  | nil => exact ⟨rfl, hb⟩
  | cons x xs ih =>
    obtain ⟨hstep, hkeep⟩ := h b hb x List.mem_cons_self
    rw [List.foldlM_cons, hstep]
    exact ih hkeep fun b hb y hy => h b hb y (List.mem_cons_of_mem x hy)

/-- What is computed of every element of a list. -/
theorem mapM_eq_ok {xs : List α} {f : α → Except ε β} {g : α → β}
    (h : ∀ x ∈ xs, f x = .ok (g x)) : xs.mapM f = .ok (xs.map g) := by
  induction xs with
  | nil => rfl
  | cons x xs ih =>
    rw [List.mapM_cons, h x List.mem_cons_self, ih fun y hy => h y (List.mem_cons_of_mem _ hy)]
    rfl

/-- Which elements of a list pass a test. -/
theorem filterM_eq_ok {xs : List α} {f : α → Except ε Bool} {p : α → Bool}
    (h : ∀ x ∈ xs, f x = .ok (p x)) : xs.filterM f = .ok (xs.filter p) := by
  have aux : ∀ acc, xs.filterAuxM f acc = .ok ((xs.filter p).reverse ++ acc) := by
    induction xs with
    | nil => exact fun acc => rfl
    | cons x xs ih =>
      intro acc
      have ih' := ih fun y hy => h y (List.mem_cons_of_mem _ hy)
      unfold List.filterAuxM
      rw [h x List.mem_cons_self]
      show xs.filterAuxM f (cond (p x) (x :: acc) acc) = _
      rw [ih', List.filter_cons]
      cases p x with
      | true => simp
      | false => rfl
  unfold List.filterM
  rw [aux, List.append_nil]
  show Except.ok (xs.filter p).reverse.reverse = _
  rw [List.reverse_reverse]

/-- Whether an element of a list passes a test. -/
theorem anyM_eq_ok {xs : List α} {f : α → Except ε Bool} {p : α → Bool}
    (h : ∀ x ∈ xs, f x = .ok (p x)) : xs.anyM f = .ok (xs.any p) := by
  induction xs with
  | nil => rfl
  | cons x xs ih =>
    rw [List.anyM, h x List.mem_cons_self, List.any_cons]
    cases hx : p x with
    | true => rfl
    | false => exact ih fun y hy => h y (List.mem_cons_of_mem _ hy)

/-- Whether all elements of a list pass a test. -/
theorem allM_eq_ok {xs : List α} {f : α → Except ε Bool} {p : α → Bool}
    (h : ∀ x ∈ xs, f x = .ok (p x)) : xs.allM f = .ok (xs.all p) := by
  induction xs with
  | nil => rfl
  | cons x xs ih =>
    rw [List.allM, h x List.mem_cons_self, List.all_cons]
    cases hx : p x with
    | true => exact ih fun y hy => h y (List.mem_cons_of_mem _ hy)
    | false => rfl

end RegLang
