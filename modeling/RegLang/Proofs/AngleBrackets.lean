import RegLang.Proofs.Grouping
/-!
# Angle brackets

What stands in angle brackets is cut at its first dash.  The two pieces are read as 64-bit numbers;
a second dash is no digit, so it makes a piece unreadable.  A number may have a plus sign in front,
which counts as a place of its width.  The grammar has no such sign, neither here nor in the bounds
of a repetition; apart from it an interval is read exactly where the grammar has one.

    parse <body> = angleBody body, with errors at the closing bracket           (parse_angled)

* `bound_iff`, `angleBody_eq_ok_iff`: what is read as a number and as an interval.
* `Expr.parse_interval`: patterns of one pair of angle brackets with a dash in them.
* `Expr.parse_interval_signed`: a pattern that is read and is no interval of the grammar.
-/

namespace RegLang

open RegLang.Parser RegLang.Grammar RegLang.Numeral

/-! ## Definitions -/

/-- A pattern in angle brackets. -/
def angled (body : Word) : Word := '<' :: (body ++ ['>'])

/-- A number as it is read: digits that denote a 64-bit word, perhaps after a plus sign. -/
inductive Bound : Word → Nat → Prop
  | plain {ds : Word} {n : Nat} (h : Denotes ds n) : Bound ds n
  | signed {ds : Word} {n : Nat} (h : Denotes ds n) : Bound ('+' :: ds) n

/-- The body is two numbers, in either order, with a dash between them, and the expression is the
interval from the smaller one to the larger.  Its width is the length of the numbers as they are
written if that is the same, and else there is none. -/
inductive Dashed (Number : Word → Nat → Prop) : Word → Expr → Prop
  | mk {x y : Word} {m n : Nat} (hx : Number x m) (hy : Number y n) :
      Dashed Number (x ++ '-' :: y)
        (.interval (min m n) (max m n) (if x.length = y.length then x.length else 0))

variable {x y ds s r body : Word} {c : Char} {m n : Nat} {e : Expr} {f : Features}
  {cause : SyntaxError.Cause} {failure : Failure}

/-! ## Numbers -/

theorem denotes_iff : Denotes ds n ↔ decimal? ds = some n := by
  refine ⟨Denotes.decimal?_eq, fun h => ?_⟩
  obtain ⟨hne, hds, hvalue, hlt⟩ := decimal?_eq_some.1 h
  exact ⟨hne, hds, hvalue, hlt⟩

theorem Denotes.signedDecimal?_eq (h : Denotes ds n) : signedDecimal? ds = some n := by
  unfold signedDecimal?
  split
  · exact absurd List.mem_cons_self (h.not_mem (c := '+') (by decide))
  · exact h.decimal?_eq

theorem bound_iff : Bound x n ↔ signedDecimal? x = some n := by
  constructor
  · rintro (h | h)
    · exact h.signedDecimal?_eq
    · exact h.decimal?_eq
  · intro h
    unfold signedDecimal? at h
    split at h
    · exact .signed (denotes_iff.2 h)
    · exact .plain (denotes_iff.2 h)

/-- There is nothing but digits and the sign in a number. -/
theorem Bound.not_mem (h : Bound x n) (hdigit : c.isDigit = false) (hsign : c ≠ '+') : c ∉ x := by
  cases h with
  | plain h => exact h.not_mem hdigit
  | signed h => exact List.not_mem_cons_of_ne_of_not_mem hsign (h.not_mem hdigit)

theorem Bound.ne_nil (h : Bound x n) : x ≠ [] := by
  cases h with
  | plain h => exact h.ne_nil
  | signed _ => exact List.cons_ne_nil _ _

theorem Bound.denotes (h : Bound x n) (hsign : '+' ∉ x) : Denotes x n := by
  cases h with
  | plain h => exact h
  | signed _ => exact absurd List.mem_cons_self hsign

/-! ## Two numbers with a dash between them -/

theorem Dashed.mono {P Q : Word → Nat → Prop} (h : Dashed P body e)
    (hPQ : ∀ x n, x ⊆ body → P x n → Q x n) : Dashed Q body e := by
  obtain ⟨hx, hy⟩ := h
  refine .mk (hPQ _ _ (List.subset_append_left _ _) hx) (hPQ _ _ (fun c hc => ?_) hy)
  exact List.mem_append_right _ (List.mem_cons_of_mem _ hc)

theorem Dashed.bound (h : Dashed Denotes body e) : Dashed Bound body e :=
  h.mono fun _ _ _ hx => .plain hx

theorem Dashed.denotes (h : Dashed Bound body e) (hsign : '+' ∉ body) : Dashed Denotes body e :=
  h.mono fun _ _ hsub hx => hx.denotes fun hmem => hsign (hsub hmem)

/-- There is nothing but digits, the sign and the dash in two numbers. -/
theorem Dashed.not_mem (h : Dashed Bound body e) (hdigit : c.isDigit = false) (hsign : c ≠ '+')
    (hdash : c ≠ '-') : c ∉ body := by
  obtain ⟨hx, hy⟩ := h
  rw [List.mem_append, List.mem_cons, not_or, not_or]
  exact ⟨hx.not_mem hdigit hsign, hdash, hy.not_mem hdigit hsign⟩

theorem Dashed.dash_mem {P : Word → Nat → Prop} (h : Dashed P body e) : '-' ∈ body := by
  obtain ⟨_, _⟩ := h
  simp

/-- There is no sign in an interval of the grammar. -/
theorem Dashed.not_signed (h : Dashed Denotes body e) : '+' ∉ body := by
  obtain ⟨hx, hy⟩ := h
  simp [hx.not_mem (c := '+') (by decide), hy.not_mem (c := '+') (by decide)]

theorem span_dash (hx : '-' ∉ x) : (x ++ '-' :: y).span (· != '-') = (x, '-' :: y) := by
  have hne : ∀ c ∈ x, (c != '-') = true := by
    intro c hc
    simpa using fun h : c = '-' => hx (h ▸ hc)
  rw [List.span_eq_takeWhile_dropWhile, List.takeWhile_append_of_pos hne,
    List.dropWhile_append_of_pos hne, List.takeWhile_cons_of_neg (by decide),
    List.dropWhile_cons_of_neg (by decide), List.append_nil]

/-- The body is cut at its first dash. -/
theorem angleBody_dash (enabled : f.includes .interval = true) (hx : '-' ∉ x) :
    angleBody f (x ++ '-' :: y) =
      if x.isEmpty || y.isEmpty || y.contains '-' then .error .badInterval
      else match signedDecimal? x, signedDecimal? y with
        | some m, some n =>
          .ok (.interval (min m n) (max m n) (if x.length = y.length then x.length else 0))
        | _, _ => .error .badInterval := by
  rw [angleBody, span_dash hx]
  exact if_neg (by simp [enabled])

theorem angleBody_eq_ok_iff (enabled : f.includes .interval = true) (hdash : '-' ∈ body) :
    angleBody f body = .ok e ↔ Dashed Bound body e := by
  constructor
  · obtain ⟨x, y, rfl, hx⟩ := List.eq_append_cons_of_mem hdash
    intro h
    rw [angleBody_dash enabled hx] at h
    split at h
    · cases h
    · split at h
      · next hm hn =>
        cases h
        exact .mk (bound_iff.2 hm) (bound_iff.2 hn)
      · cases h
  · rintro ⟨hx, hy⟩
    have hnone := hy.not_mem (c := '-') (by decide) (by decide)
    rw [angleBody_dash enabled (hx.not_mem (by decide) (by decide)), if_neg, bound_iff.1 hx,
      bound_iff.1 hy]
    simp [hx.ne_nil, hy.ne_nil, hnone]

/-- What is not read as an interval is one malformed interval. -/
theorem angleBody_eq_error (enabled : f.includes .interval = true) (hdash : '-' ∈ body)
    (hnone : ∀ e, ¬ Dashed Bound body e) : angleBody f body = .error .badInterval := by
  cases h : angleBody f body with
  | ok e => exact absurd ((angleBody_eq_ok_iff enabled hdash).1 h) (hnone e)
  | error cause =>
    obtain ⟨x, y, rfl, hx⟩ := List.eq_append_cons_of_mem hdash
    rw [angleBody_dash enabled hx] at h
    split at h
    · exact h.symm
    · split at h
      · cases h
      · exact h.symm

/-! ## Patterns in angle brackets -/

/-- If the first construct cannot be read, neither can what it is part of. -/
theorem union_eq_error (first : Avoids ['~'] s) (h : simple f s = .error failure) :
    union f s = .error failure := by
  have hnegated : negated f s = .error failure := by
    rw [negated]
    · exact h
    · exact avoids_iff.1 first
  have hrepeats : repeats f s = .error failure := by
    rw [repeats, hnegated]
    rfl
  have hconcat : concat f s = .error failure := by
    rw [concat, hrepeats]
    rfl
  have hinter : inter f s = .error failure := by
    rw [inter, hconcat]
    rfl
  rw [union, hinter]
  rfl

theorem simple_angle_eq_error (enabled : (f.includes .automaton || f.includes .interval) = true)
    (hclose : '>' ∉ body) (h : angleBody f body = .error cause) :
    simple f (angled body) = .error ⟨1, cause⟩ := by
  obtain ⟨_, hbody⟩ := reads_upTo.2 ⟨hclose, rfl⟩
  have hangle : angle f (body ++ ['>']) = .error ⟨1, cause⟩ := by
    rw [angle, hbody, ok_bind]
    simp only [h]
    rfl
  rw [angled, simple, if_pos enabled, hangle]
  rfl

/-- A pattern in angle brackets is read as its body is; what is wrong is reported at the closing
bracket. -/
theorem parse_angled (enabled : (f.includes .automaton || f.includes .interval) = true)
    (hclose : '>' ∉ body) (hslash : '\\' ∉ body) :
    Expr.parse (angled body) f =
      (angleBody f body).mapError fun cause => ⟨body.length + 1, cause⟩ := by
  have hexpand : expandDigits (angled body) = angled body :=
    (transparent_of_not_mem (by simp [angled, hslash])).expanded
  have hfirst : Avoids ['~'] (angled body) := avoids_cons.2 (by decide)
  cases h : angleBody f body with
  | ok e =>
    refine parse_of_repeats ?_
    rw [hexpand]
    exact .repeats (.simple (fun _ => hfirst) (.atom (.angle enabled hclose h))) (.done avoids_nil)
  | error cause =>
    have hunion := union_eq_error hfirst (simple_angle_eq_error enabled hclose h)
    have hwhole : whole f (angled body) = .error ⟨1, cause⟩ := by
      rw [whole.eq_def, hunion]
      rfl
    rw [Expr.parse, hexpand, hwhole]
    simp [angled, Except.mapError]

/-- With a dash between angle brackets there is an interval if two numbers stand around the dash;
anything else is a malformed interval, reported at the closing bracket.  This is what the grammar
says unless a number has a plus sign, which only the reader knows. -/
theorem Expr.parse_interval (enabled : f.includes .interval = true) (hclose : '>' ∉ body)
    (hslash : '\\' ∉ body) (hdash : '-' ∈ body) :
    (∀ e, Expr.parse (angled body) f = .ok e ↔ Dashed Bound body e) ∧
    ((∀ e, ¬ Dashed Bound body e) →
      Expr.parse (angled body) f = .error ⟨body.length + 1, .badInterval⟩) ∧
    ((∀ e, Expr.parse (angled body) f = .ok e ↔ Dashed Denotes body e) ↔
      ('+' ∈ body → ∀ e, ¬ Dashed Bound body e)) := by
  have heq : Expr.parse (angled body) f =
      (angleBody f body).mapError fun cause => ⟨body.length + 1, cause⟩ :=
    parse_angled (by rw [enabled, Bool.or_true]) hclose hslash
  have hok : ∀ e, Expr.parse (angled body) f = .ok e ↔ Dashed Bound body e := fun e => by
    rw [heq, mapError_eq_ok, angleBody_eq_ok_iff enabled hdash]
  refine ⟨hok, fun hnone => ?_, fun h hsign e he => ?_, fun h e => ?_⟩
  · rw [heq, angleBody_eq_error enabled hdash hnone]
    rfl
  · exact ((h e).1 ((hok e).2 he)).not_signed hsign
  · rw [hok]
    exact ⟨fun he => he.denotes fun hsign => h hsign e he, Dashed.bound⟩

/-- The larger number stands first, with a zero in front. -/
theorem Expr.parse_interval_reversed : Features.all.includes .interval = true ∧
    '>' ∉ ['0', '4', '2', '-', '7'] ∧ '\\' ∉ ['0', '4', '2', '-', '7'] ∧
    '-' ∈ ['0', '4', '2', '-', '7'] ∧
    (∀ e, Expr.parse (angled ['0', '4', '2', '-', '7']) .all = .ok e ↔
      Dashed Bound ['0', '4', '2', '-', '7'] e) ∧
    ((∀ e, ¬ Dashed Bound ['0', '4', '2', '-', '7'] e) →
      Expr.parse (angled ['0', '4', '2', '-', '7']) .all = .error ⟨6, .badInterval⟩) ∧
    ((∀ e, Expr.parse (angled ['0', '4', '2', '-', '7']) .all = .ok e ↔
        Dashed Denotes ['0', '4', '2', '-', '7'] e) ↔
      ('+' ∈ ['0', '4', '2', '-', '7'] → ∀ e, ¬ Dashed Bound ['0', '4', '2', '-', '7'] e)) := by
  have hclose : '>' ∉ ['0', '4', '2', '-', '7'] := by decide
  have hslash : '\\' ∉ ['0', '4', '2', '-', '7'] := by decide
  have hdash : '-' ∈ ['0', '4', '2', '-', '7'] := by decide
  exact ⟨rfl, hclose, hslash, hdash, Expr.parse_interval rfl hclose hslash hdash⟩

/-- A plus sign is read as part of a number, and as a place of its width, where the grammar has
none. -/
theorem Expr.parse_interval_signed :
    Expr.parse (angled ['+', '1', '-', '0', '5']) .all = .ok (.interval 1 5 2) ∧
      ∀ e, ¬ Dashed Denotes ['+', '1', '-', '0', '5'] e := by
  have hbody : angleBody .all ['+', '1', '-', '0', '5'] = .ok (.interval 1 5 2) := by decide
  refine ⟨?_, fun e he => he.not_signed List.mem_cons_self⟩
  rw [parse_angled rfl (by decide) (by decide), hbody]
  rfl

end RegLang
