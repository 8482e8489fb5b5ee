import RegLang.Proofs.AngleBrackets
import RegLang.Proofs.Printing
import RegLang.Semantics.Denotation
/-!
# Printed intervals

The width of an interval is not written down: two bounds that are equally long in print have that
length for a width, and bounds of different lengths ask for none.  An interval that was read has its
bounds in order, and with a width both bounds fit into it.  So its text is read as the interval
itself, but for one case: bounds of one length, neither of them padded, that were read without a
width, since one of them was written with zeros in front.  There the text asks for a width that the
interval did not ask for, and denotes fewer words.

* `Grammar.Derives.spells`: the intervals that can be read.
* `parse_numbers`: what two numbers in angle brackets are read as.
* `Expr.parse_interval_text`: the text of an interval read again.
* `Expr.interval_text_unpadded`: an interval that its text does not give back.
-/

namespace RegLang

open RegLang.Parser RegLang.Grammar Numeral

/-! ## Definitions -/

/-- The numeric intervals in an expression, from left to right: bounds and width. -/
def Expr.intervals : Expr → List (Nat × Nat × Nat)
  | union a b | concat a b | inter a b => a.intervals ++ b.intervals
  | optional a | star a | atLeast a _ | repeated a _ _ | compl a => a.intervals
  | interval lo hi digits => [(lo, hi, digits)]
  | _ => []

/-- What is true of the bounds and the width of an interval that was read. -/
structure Spelled (lo hi digits : Nat) : Prop where
  ordered : lo ≤ hi
  lt : hi < wordLimit
  fits : digits = 0 ∨ (decimal hi).length ≤ digits

/-- The width that the text of an interval asks for. -/
def printedWidth (lo hi digits : Nat) : Nat :=
  if digits = 0 ∧ (decimal lo).length = (decimal hi).length then (decimal hi).length else digits

/-- The intervals of the expression are as they are read. -/
def Expr.Spells (e : Expr) : Prop := ∀ lo hi digits, (lo, hi, digits) ∈ e.intervals →
  Spelled lo hi digits

variable {s t r x y w ds : Word} {c d : Char} {m n lo hi digits width : Nat} {e a b : Expr}
  {f : Features} {rule : Rule}

/-! ## Intervals that are read -/

theorem Expr.spells_of_intervals_eq (h : a.intervals = e.intervals) (he : e.Spells) : a.Spells := by
  unfold Spells
  rwa [h]

theorem Expr.spells_of_intervals_nil (h : e.intervals = []) : e.Spells := by
  intro lo hi digits hmem
  rw [h] at hmem
  cases hmem

theorem Expr.spells_append (ha : a.Spells) (hb : b.Spells)
    (h : e.intervals = a.intervals ++ b.intervals) : e.Spells := by
  intro lo hi digits hmem
  rw [h] at hmem
  exact (List.mem_append.1 hmem).elim (ha lo hi digits) (hb lo hi digits)

/-- Literals that become one have no intervals in them. -/
theorem Expr.intervals_followedBy (a b : Expr) :
    (a.followedBy b).intervals = a.intervals ++ b.intervals := by
  refine collect_followedBy (fun a w h => ?_) (fun _ _ => rfl) a b
  cases a with
  | letter c => rfl
  | literal w => rfl
  | _ => cases h

/-- A number is written with at least as many digits as it needs. -/
theorem length_decimal_value_le (hne : ds ≠ []) (hds : AllDigits ds) :
    (decimal (value ds)).length ≤ ds.length := by
  rw [length_decimal, Nat.length_toDigits_le_iff (by decide) (List.length_pos_iff.2 hne)]
  exact value_lt hds

theorem signedDecimal?_eq_some (h : signedDecimal? w = some n) :
    n < wordLimit ∧ (decimal n).length ≤ w.length := by
  have digitsOnly : ∀ {ds}, decimal? ds = some n → n < wordLimit ∧ (decimal n).length ≤ ds.length :=
    fun h => by
      obtain ⟨hne, hds, rfl, hlt⟩ := decimal?_eq_some.1 h
      exact ⟨hlt, length_decimal_value_le hne hds⟩
  unfold signedDecimal? at h
  split at h
  · obtain ⟨hlt, hlen⟩ := digitsOnly h
    exact ⟨hlt, Nat.le_succ_of_le hlen⟩
  · exact digitsOnly h

theorem spelled_of_numbers (hx : signedDecimal? x = some m) (hy : signedDecimal? y = some n) :
    Spelled (min m n) (max m n) (if x.length = y.length then x.length else 0) := by
  obtain ⟨hm, hlenx⟩ := signedDecimal?_eq_some hx
  obtain ⟨hn, hleny⟩ := signedDecimal?_eq_some hy
  refine ⟨Nat.le_trans (Nat.min_le_left m n) (Nat.le_max_left m n), Nat.max_lt.2 ⟨hm, hn⟩, ?_⟩
  by_cases heq : x.length = y.length
  · rw [if_pos heq]
    rcases Nat.le_total m n with h | h
    · rw [Nat.max_eq_right h, heq]
      exact .inr hleny
    · rw [Nat.max_eq_left h]
      exact .inr hlenx
  · rw [if_neg heq]
    exact .inl rfl

namespace Grammar

theorem spells_of_angleBody (h : angleBody f w = .ok e) : e.Spells := by
  unfold angleBody at h
  split at h
  · split at h
    · cases h
      exact Expr.spells_of_intervals_nil rfl
    · cases h
  · split at h
    · cases h
    · split at h
      · cases h
      · split at h
        · next hm hn =>
          cases h
          intro lo hi digits hmem
          cases List.mem_singleton.1 hmem
          exact spelled_of_numbers hm hn
        · cases h

theorem intervals_rangeOf (c d : Char) : (rangeOf c d).intervals = [] := by
  unfold rangeOf
  split <;> rfl

theorem Item.intervals_eq (h : Item s e r) : e.intervals = [] := by
  cases h with
  | single _ _ | dash _ => rfl
  | range _ _ _ => exact intervals_rangeOf _ _

theorem Items.intervals_eq (h : Items e s a r) (he : e.intervals = []) : a.intervals = [] := by
  induction h with
  | close => exact he
  | more _ h _ ih => exact ih (by simp [Expr.intervals, he, h.intervals_eq])

theorem Class.intervals_eq (h : Class s e r) : e.intervals = [] := by
  cases h with
  | listed _ h h' => exact h'.intervals_eq h.intervals_eq
  | others h h' => simp [negation, Expr.intervals, h'.intervals_eq h.intervals_eq]

theorem Bounds.intervals_eq (h : Bounds e s a r) : a.intervals = e.intervals := by
  cases h <;> rfl

/-- Signs of repetition leave the intervals as they are. -/
theorem Signs.intervals_eq (h : Signs e s a r) : a.intervals = e.intervals := by
  induction h with
  | done _ => rfl
  | optional _ ih | star _ ih | plus _ ih => exact ih
  | bounds h _ ih => exact ih.trans h.intervals_eq

theorem Atom.spells (h : Atom f s e r) : e.Spells := by
  cases h with
  | angle _ _ h => exact spells_of_angleBody h
  | classed h => exact Expr.spells_of_intervals_nil h.intervals_eq
  | hashSign | atSign => exact Expr.spells_of_intervals_nil (by split <;> rfl)
  | _ => exact Expr.spells_of_intervals_nil rfl

/-- The intervals that can be read. -/
theorem Derives.spells (h : Derives f rule s e r) : e.Spells := by
  induction h with
  | union _ _ ih ih' | inter _ _ _ ih ih' => exact Expr.spells_append ih ih' rfl
  | concat _ _ _ ih ih' => exact Expr.spells_append ih ih' (Expr.intervals_followedBy _ _)
  | repeats _ h' ih => exact Expr.spells_of_intervals_eq h'.intervals_eq ih
  | atom h => exact h.spells
  | nothing => exact Expr.spells_of_intervals_nil rfl
  | interAlone _ _ ih | concatAlone _ _ ih | repeatsAlone _ _ ih | compl _ _ ih | simple _ _ ih
  | group _ _ ih | flags _ _ ih | something _ _ ih => exact ih

end Grammar

theorem Expr.spells_of_parse (h : Expr.parse s f = .ok e) : e.Spells := by
  rcases Expr.parse_eq_ok_iff.1 h with ⟨-, rfl⟩ | h
  · exact spells_of_intervals_nil rfl
  · exact h.spells

/-! ## Two numbers in angle brackets -/

theorem decimal?_padded (width : Nat) (h : n < wordLimit) :
    decimal? (padded 10 width n) = some n := by
  refine decimal?_eq_some.2 ⟨?_, allDigits_padded width n, value_padded width n, h⟩
  intro hnil
  have hlen := length_padded 10 width n
  rw [hnil, ← length_decimal] at hlen
  have hpos := length_decimal_pos n
  simp only [List.length_nil] at hlen
  omega

/-- Two numbers with a dash between them. -/
theorem dashed_numbers (hx : decimal? x = some m) (hy : decimal? y = some n) :
    Dashed Bound (x ++ '-' :: y) (.interval (min m n) (max m n)
      (if x.length = y.length then x.length else 0)) :=
  .mk (.plain (denotes_iff.2 hx)) (.plain (denotes_iff.2 hy))

theorem atom_numbers (enabled : f.includes .interval = true) (hx : decimal? x = some m)
    (hy : decimal? y = some n) (r : Word) :
    Atom f ('<' :: ((x ++ '-' :: y) ++ '>' :: r)) (.interval (min m n) (max m n)
      (if x.length = y.length then x.length else 0)) r := by
  have hnumbers := dashed_numbers hx hy
  exact .angle (by rw [enabled, Bool.or_true])
    (hnumbers.not_mem (by decide) (by decide) (by decide))
    ((angleBody_eq_ok_iff enabled hnumbers.dash_mem).2 hnumbers)

/-- Two numbers with a dash between them are read in angle brackets. -/
theorem parse_numbers (hx : decimal? x = some m) (hy : decimal? y = some n) :
    Expr.parse ('<' :: ((x ++ '-' :: y) ++ ['>'])) .all = .ok (.interval (min m n) (max m n)
      (if x.length = y.length then x.length else 0)) := by
  have hnumbers := dashed_numbers hx hy
  have hparse := parse_angled (f := .all) (by decide)
    (hnumbers.not_mem (c := '>') (by decide) (by decide) (by decide))
    (hnumbers.not_mem (c := '\\') (by decide) (by decide) (by decide))
  rw [(angleBody_eq_ok_iff rfl hnumbers.dash_mem).2 hnumbers] at hparse
  exact hparse

/-! ## Reading the text of an interval -/

theorem Spelled.printedWidth_eq (h : Spelled lo hi digits) :
    (if (padded 10 digits lo).length = (padded 10 digits hi).length then
      (padded 10 digits lo).length else 0) = printedWidth lo hi digits := by
  unfold printedWidth
  rcases Nat.eq_zero_or_pos digits with rfl | hpos
  · show (if (decimal lo).length = (decimal hi).length then (decimal lo).length else 0) = _
    split
    · next heq => rw [if_pos ⟨rfl, heq⟩, heq]
    · next hne => rw [if_neg fun h => hne h.2]
  · -- both bounds fill the width
    have hhi : (decimal hi).length ≤ digits := h.fits.resolve_left (Nat.pos_iff_ne_zero.1 hpos)
    have hlo := Nat.le_trans (length_decimal_mono h.ordered) hhi
    rw [length_padded_of_le hlo, length_padded_of_le hhi, if_pos rfl, if_neg fun h => by omega]

theorem printedWidth_eq_self_iff : printedWidth lo hi digits = digits ↔
    digits ≠ 0 ∨ (decimal lo).length ≠ (decimal hi).length := by
  have hpos := length_decimal_pos hi
  unfold printedWidth
  split
  · next h => simp only [h.1, h.2]; omega
  · next h => simpa [Classical.or_iff_not_imp_left] using h

/-- The text of an interval that was read is read as an interval with the same bounds. -/
theorem Spelled.reads_text (h : Spelled lo hi digits) :
    Expr.parse (Expr.interval lo hi digits).text .all =
      .ok (.interval lo hi (printedWidth lo hi digits)) := by
  have hparse := parse_numbers (decimal?_padded digits (Nat.lt_of_le_of_lt h.ordered h.lt))
    (decimal?_padded digits h.lt)
  rw [Nat.min_eq_left h.ordered, Nat.max_eq_right h.ordered, h.printedWidth_eq] at hparse
  have htext : (Expr.interval lo hi digits).text =
      '<' :: ((padded 10 digits lo ++ '-' :: padded 10 digits hi) ++ ['>']) := by
    simp [Expr.text]
  rw [htext, hparse]

/-- A width takes words away. -/
theorem numbersBetween_ne (h : lo ≤ hi) (hwidth : width ≠ 0) :
    numbersBetween lo hi width ≠ numbersBetween lo hi 0 := by
  intro heq
  -- the lower bound with more zeros in front than the width has room for
  have hmem : List.replicate (width + 1) '0' ++ decimal lo ∈ numbersBetween lo hi 0 :=
    mem_numbersBetween_iff.2 ⟨lo, width + 1, Nat.le_refl lo, h, rfl, .inl rfl⟩
  rw [← heq] at hmem
  have hlen := hmem.2.2.2.2.resolve_left hwidth
  rw [List.length_append, List.length_replicate] at hlen
  omega

theorem Spelled.denote_printed_iff (h : Spelled lo hi digits) (env : String → Language Char) :
    (Expr.interval lo hi (printedWidth lo hi digits)).denote env =
        (Expr.interval lo hi digits).denote env ↔
      digits ≠ 0 ∨ (decimal lo).length ≠ (decimal hi).length := by
  rw [← printedWidth_eq_self_iff]
  refine ⟨fun heq => ?_, fun heq => by rw [heq]⟩
  by_contra hne
  have hzero : digits = 0 := by
    unfold printedWidth at hne
    split at hne
    · next h => exact h.1
    · exact (hne rfl).elim
  subst hzero
  exact numbersBetween_ne h.ordered hne heq

/-- The text of every interval in an expression that was read is read as an interval with the same
bounds.  It is the interval itself, and denotes the same words, unless that has no width and bounds
of one length. -/
theorem Expr.parse_interval_text {pattern : Word} (h : Expr.parse pattern f = .ok e)
    (hmem : (lo, hi, digits) ∈ e.intervals) :
    ∃ d, Expr.parse (Expr.interval lo hi digits).text .all = .ok (.interval lo hi d) ∧
      (d = digits ↔ digits ≠ 0 ∨ (decimal lo).length ≠ (decimal hi).length) ∧
      ∀ env, (Expr.interval lo hi d).denote env = (Expr.interval lo hi digits).denote env ↔
        digits ≠ 0 ∨ (decimal lo).length ≠ (decimal hi).length := by
  have hspelled := Expr.spells_of_parse h lo hi digits hmem
  exact ⟨printedWidth lo hi digits, hspelled.reads_text, printedWidth_eq_self_iff,
    hspelled.denote_printed_iff⟩

/-- Bounds in the wrong order, one of them with a zero in front. -/
theorem Expr.parse_interval_text_swapped :
    Expr.parse ['a', '<', '1', '2', '-', '0', '5', '>'] .all =
        .ok (.concat (.letter 'a') (.interval 5 12 2)) ∧
      (5, 12, 2) ∈ (Expr.concat (.letter 'a') (.interval 5 12 2)).intervals ∧
      ∃ d, Expr.parse (Expr.interval 5 12 2).text .all = .ok (.interval 5 12 d) ∧
        (d = 2 ↔ 2 ≠ 0 ∨ (decimal 5).length ≠ (decimal 12).length) ∧
        ∀ env, (Expr.interval 5 12 d).denote env = (Expr.interval 5 12 2).denote env ↔
          2 ≠ 0 ∨ (decimal 5).length ≠ (decimal 12).length := by
  have hletter : Derives .all .repeats ['a', '<', '1', '2', '-', '0', '5', '>'] (.letter 'a')
      ['<', '1', '2', '-', '0', '5', '>'] :=
    .repeats (.simple (fun _ => avoids_cons.2 (by decide))
      (.atom (.letter (avoids_cons.2 (by decide)) (.plain (by decide)))))
      (.done (avoids_cons.2 (by decide)))
  have hangle : Derives .all .repeats ['<', '1', '2', '-', '0', '5', '>'] (.interval 5 12 2) [] :=
    .repeats (.simple (fun _ => avoids_cons.2 (by decide))
      (.atom (atom_numbers (x := ['1', '2']) (y := ['0', '5']) rfl rfl rfl []))) (.done avoids_nil)
  have hconcat := Derives.concat hletter rfl (.repeatsAlone hangle rfl)
  have hparse : Expr.parse ['a', '<', '1', '2', '-', '0', '5', '>'] .all =
      .ok (.concat (.letter 'a') (.interval 5 12 2)) :=
    Expr.parse_eq_ok_iff.2 (.inr
      (.interAlone (.concatAlone hconcat fun _ => avoids_nil) avoids_nil))
  have hmem : (5, 12, 2) ∈ (Expr.concat (.letter 'a') (.interval 5 12 2)).intervals := by
    simp [intervals]
  exact ⟨hparse, hmem, parse_interval_text hparse hmem⟩

/-- A zero in front of one bound keeps the interval from having a width.  It is not printed, and
without it the bounds are equally long. -/
theorem Expr.interval_text_unpadded :
    Expr.parse ['<', '0', '1', '-', '5', '>'] .all = .ok (.interval 1 5 0) ∧
      (Expr.interval 1 5 0).text = ['<', '1', '-', '5', '>'] ∧
      Expr.parse (Expr.interval 1 5 0).text .all = .ok (.interval 1 5 1) ∧
      ∀ env, (Expr.interval 1 5 1).denote env ≠ (Expr.interval 1 5 0).denote env :=
  ⟨parse_numbers (x := ['0', '1']) (y := ['5']) rfl rfl, rfl,
    parse_numbers (x := ['1']) (y := ['5']) rfl rfl,
    fun _ => numbersBetween_ne (by decide) (by decide)⟩

end RegLang
