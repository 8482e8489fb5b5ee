import RegLang.Proofs.DecimalFormats
/-!
# Numbers with few digits

The format of numbers with a bounded number of digits has two halves.  Digits alone are counted from
the first one that is not zero.  With points, every digit may have points behind it, there has to be
a point somewhere, and zeros at both ends need not be counted.  Nothing says that there is one point
only, so the format is wider than its name.

* `mem_denote_runs`: digits with points behind them, as many as the bound allows.
* `Automaton.totalDigits_spec`: the words of the format, and which of them are decimal numbers.
* `Automaton.totalDigits_points`: a word with two points.
-/

namespace RegLang

open RegLang.Parser RegLang.Grammar RegLang.Numeral Computability

/-! ## Definitions -/

/-- A digit with any number of points behind it. -/
def PointedDigit (v : Word) : Prop := ∃ d u, d.isDigit = true ∧ (∀ c ∈ u, c = '.') ∧ v = d :: u

/-- The word without the zeros at both ends. -/
def significant (w : Word) : Word := (w.dropWhile (· == '0')).rdropWhile (· == '0')

/-- Digits and points, and at most `i` digits when the zeros at both ends are dropped. -/
structure HasDigits (i : Nat) (w : Word) : Prop where
  letters : ∀ c ∈ w, c.isDigit = true ∨ c = '.'
  digits : (significant w).countP Char.isDigit ≤ i

/-- A decimal number with at most `i` significant digits. -/
structure IsDecimal (i : Nat) (w : Word) : Prop extends HasDigits i w where
  point : w.count '.' ≤ 1

/-- Digits, of which at most `i` are left when the zeros at the front are dropped; or, between
zeros, at most `i` digits with points behind them, with one point at least. -/
inductive HasTotal (i : Nat) : Word → Prop
  | whole {w : Word} (hw : AllDigits w) (hlen : (w.dropWhile (· == '0')).length ≤ i) : HasTotal i w
  | pointed {before w after : Word} (hbefore : ∀ c ∈ before, c = '0')
      (hw : ∀ c ∈ w, c.isDigit = true ∨ c = '.') (hfirst : ∀ c ∈ w.head?, c.isDigit = true)
      (hpoint : '.' ∈ w) (hlen : w.countP Char.isDigit ≤ i) (hafter : ∀ c ∈ after, c = '0') :
      HasTotal i (before ++ (w ++ after))

namespace Expr

/-- A digit with points behind it. -/
def digitPoints : Expr := joined [.range '0' '9', .star (.letter '.')]

/-- Digits with points behind them, at most `i` of them, with one point at least. -/
def pointed (i : Nat) : Expr :=
  .inter (joined [.repeated digitPoints 0 i]) (joined [.anyWord, .letter '.', .anyWord])

/-- Digits, or digits and points with zeros behind them. -/
def total (i : Nat) : Expr :=
  .union (joined [.repeated (.range '0' '9') 0 i]) (joined [pointed i, .star (.letter '0')])

end Expr

/-- The text of a digit with points behind it. -/
def digitPointsText : Word := bracketed [['[', '0', '-', '9', ']'], ['\\', '.', '*']].flatten

/-- The text of digits with points behind them. -/
def pointedText (i : Nat) : Word :=
  bracketed ([bracketed [digitPointsText ++ boundText i].flatten].flatten ++
    '&' :: [['@'], ['\\', '.'], ['@']].flatten)

/-- The text of the digits of a number. -/
def totalText (i : Nat) : Word :=
  bracketed ([['[', '0', '-', '9', ']'] ++ boundText i].flatten ++
    '|' :: [pointedText i, ['0', '*']].flatten)

variable {w : Word} {i : Nat} {env : String → Language Char}

/-! ## The pattern -/

theorem toList_totalPattern (i : Nat) : (Digits.totalPattern i).toList =
    Digits.blanks.toList ++ (Digits.sign.toList ++
      ([['0', '*'], totalText i].flatten ++ Digits.blanks.toList)) := by
  simp [Digits.totalPattern, totalText, pointedText, digitPointsText, boundText,
    decimal_eq_toDigits, bracketed]

theorem operand_digitPoints : Operand digitPointsText .digitPoints := by
  have hpoints : Piece ['\\', '.', '*'] (.star (.letter '.')) :=
    (operand_letter '.').piece (.star (.done avoids_nil)) (by decide)
  exact operand_pieces (.cons operand_digit.alone (.cons hpoints .nil)) (List.cons_ne_nil _ _)

theorem operand_pointed (hi : i < wordLimit) : Operand (pointedText i) (.pointed i) := by
  have hruns := operand_pieces (.cons (operand_digitPoints.bounded hi) .nil) (List.cons_ne_nil _ _)
  have hpoint : List.Forall₂ Piece [['@'], ['\\', '.'], ['@']] [.anyWord, .letter '.', .anyWord] :=
    .cons operand_anyWord.alone (.cons (operand_letter '.').alone
      (.cons operand_anyWord.alone .nil))
  exact operand_inter (.cons hruns.alone .nil) (List.cons_ne_nil _ _) hpoint (List.cons_ne_nil _ _)

theorem operand_total (hi : i < wordLimit) : Operand (totalText i) (.total i) :=
  operand_union (.cons (operand_digit.bounded hi) .nil) (List.cons_ne_nil _ _)
    (.cons (operand_pointed hi).alone (.cons piece_zeros .nil)) (List.cons_ne_nil _ _)

theorem parse_totalPattern (hi : i < wordLimit) :
    Expr.parse (Digits.totalPattern i).toList .all =
      .ok (.framed [.star (.letter '0'), .total i]) := by
  rw [toList_totalPattern]
  exact parse_framed (.cons piece_zeros (.cons (operand_total hi).alone .nil))

/-! ## Digits with points behind them -/

theorem PointedDigit.letters {v : Word} (h : PointedDigit v) :
    ∀ c ∈ v, c.isDigit = true ∨ c = '.' := by
  obtain ⟨d, u, hd, hu, rfl⟩ := h
  exact List.forall_mem_cons.2 ⟨.inl hd, fun c hc => .inr (hu c hc)⟩

theorem PointedDigit.countP_eq {v : Word} (h : PointedDigit v) : v.countP Char.isDigit = 1 := by
  obtain ⟨d, u, hd, hu, rfl⟩ := h
  have hnone : u.countP Char.isDigit = 0 := List.countP_eq_zero.2 fun c hc => by
    rw [hu c hc]
    decide
  rw [List.countP_cons_of_pos hd, hnone]

/-- There are as many digits as there are parts. -/
theorem countP_flatten {vs : List Word} (hvs : ∀ v ∈ vs, PointedDigit v) :
    vs.flatten.countP Char.isDigit = vs.length := by
  induction vs with
  | nil => rfl
  | cons v vs ih =>
    obtain ⟨hv, hvs⟩ := List.forall_mem_cons.1 hvs
    rw [List.flatten_cons, List.countP_append, hv.countP_eq, ih hvs, List.length_cons, Nat.add_comm]

/-- A word of digits and points is cut before each digit; only points stand before the first. -/
theorem exists_runs (hw : ∀ c ∈ w, c.isDigit = true ∨ c = '.') :
    ∃ (points : Word) (vs : List Word), points ++ vs.flatten = w ∧ (∀ c ∈ points, c = '.') ∧
      ∀ v ∈ vs, PointedDigit v := by
  induction w with
  | nil => exact ⟨[], [], rfl, nofun, nofun⟩
  | cons c w ih =>
    obtain ⟨hc, hw⟩ := List.forall_mem_cons.1 hw
    obtain ⟨points, vs, rfl, hpoints, hvs⟩ := ih hw
    rcases hc with hc | rfl
    · -- the points before the first digit go to the digit before them
      have hv : PointedDigit (c :: points) := ⟨c, points, hc, hpoints, rfl⟩
      exact ⟨[], (c :: points) :: vs, rfl, nofun, List.forall_mem_cons.2 ⟨hv, hvs⟩⟩
    · exact ⟨'.' :: points, vs, rfl, List.forall_mem_cons.2 ⟨rfl, hpoints⟩, hvs⟩

/-- Digits with points behind them are digits and points that start with a digit. -/
theorem runs_iff : (∃ vs : List Word, vs.length ≤ i ∧ vs.flatten = w ∧ ∀ v ∈ vs, PointedDigit v) ↔
    (∀ c ∈ w, c.isDigit = true ∨ c = '.') ∧ (∀ c ∈ w.head?, c.isDigit = true) ∧
      w.countP Char.isDigit ≤ i := by
  constructor
  · rintro ⟨vs, hlen, rfl, hvs⟩
    rw [← countP_flatten hvs] at hlen
    refine ⟨fun c hc => ?_, ?_, hlen⟩
    · obtain ⟨v, hv, hcv⟩ := List.mem_flatten.1 hc
      exact (hvs v hv).letters c hcv
    · cases vs with
      | nil => nofun
      | cons v vs =>
        obtain ⟨d, u, hd, -, rfl⟩ := hvs v List.mem_cons_self
        intro c hc
        cases hc
        exact hd
  · rintro ⟨hw, hfirst, hlen⟩
    obtain ⟨points, vs, rfl, hpoints, hvs⟩ := exists_runs hw
    cases points with
    | nil =>
      rw [List.nil_append] at hlen ⊢
      rw [countP_flatten hvs] at hlen
      exact ⟨vs, hlen, rfl, hvs⟩
    | cons c points =>
      have hc := hfirst c rfl
      rw [hpoints c List.mem_cons_self] at hc
      exact absurd hc (by decide)

/-! ## What the pattern denotes -/

/-- Zeros before a few digits, however they are cut. -/
theorem zeros_short_iff :
    (∃ v : Word, (∀ c ∈ v, c = '0') ∧ ∃ u : Word, (u.length ≤ i ∧ AllDigits u) ∧ v ++ u = w) ↔
      AllDigits w ∧ (w.dropWhile (· == '0')).length ≤ i := by
  constructor
  · rintro ⟨v, hv, u, ⟨hlen, hu⟩, rfl⟩
    rw [dropWhile_zeros hv]
    exact ⟨allDigits_append.2 ⟨allDigits_zeros hv, hu⟩,
      Nat.le_trans (List.dropWhile_suffix _).length_le hlen⟩
  · rintro ⟨hw, hlen⟩
    have hsplit : w.takeWhile (· == '0') ++ w.dropWhile (· == '0') = w :=
      List.takeWhile_append_dropWhile
    refine ⟨_, fun c hc => ?_, _, ⟨hlen, (allDigits_append.1 (hsplit ▸ hw)).2⟩, hsplit⟩
    simpa using List.mem_takeWhile_imp hc

namespace Expr

theorem mem_denote_digitPoints {v : Word} : v ∈ digitPoints.denote env ↔ PointedDigit v := by
  rw [digitPoints, mem_denote_pair]
  constructor
  · rintro ⟨x, hx, u, hu, rfl⟩
    obtain ⟨d, hd, rfl⟩ := (lettered_digit x).1 hx
    exact ⟨d, u, hd, mem_denote_letters.1 hu, rfl⟩
  · rintro ⟨d, u, hd, hu, rfl⟩
    exact ⟨[d], (lettered_digit _).2 ⟨d, hd, rfl⟩, u, mem_denote_letters.2 hu, rfl⟩

theorem mem_denote_runs : w ∈ (repeated digitPoints 0 i).denote env ↔
    (∀ c ∈ w, c.isDigit = true ∨ c = '.') ∧ (∀ c ∈ w.head?, c.isDigit = true) ∧
      w.countP Char.isDigit ≤ i := by
  show w ∈ powersBetween _ 0 i ↔ _
  rw [RegLang.mem_powersBetween_iff, ← runs_iff]
  simp only [mem_denote_digitPoints, Nat.zero_le, true_and]

theorem mem_denote_hasPoint :
    w ∈ (joined [.anyWord, .letter '.', .anyWord]).denote env ↔ '.' ∈ w := by
  rw [denote_joined, List.mem_iff_append]
  simp only [List.map_cons, List.map_nil, List.prod_cons, List.prod_nil, mul_one,
    Language.mem_mul, mem_denote_letter]
  constructor
  · rintro ⟨u, -, _, ⟨_, rfl, v, -, rfl⟩, rfl⟩
    exact ⟨u, v, rfl⟩
  · rintro ⟨u, v, rfl⟩
    exact ⟨u, trivial, _, ⟨_, rfl, v, trivial, rfl⟩, rfl⟩

theorem mem_denote_total : w ∈ (total i).denote env ↔ (w.length ≤ i ∧ AllDigits w) ∨
    ∃ u ∈ (pointed i).denote env, ∃ v, (∀ c ∈ v, c = '0') ∧ u ++ v = w := by
  rw [total, mem_denote_union]
  refine or_congr mem_denote_digits ?_
  rw [mem_denote_pair]
  simp only [mem_denote_letters]

/-- Zeros, and then one of the two halves. -/
theorem mem_denote_number_total :
    w ∈ (joined [.star (.letter '0'), total i]).denote env ↔ HasTotal i w := by
  rw [mem_denote_pair]
  constructor
  · rintro ⟨before, hbefore, u, hu, rfl⟩
    have hzeros := mem_denote_letters.1 hbefore
    rcases mem_denote_total.1 hu with hu | ⟨u, ⟨hruns, hpoint⟩, v, hv, rfl⟩
    · obtain ⟨hdigits, hlen⟩ := zeros_short_iff.1 ⟨before, hzeros, u, hu, rfl⟩
      exact .whole hdigits hlen
    · obtain ⟨hletters, hfirst, hlen⟩ := mem_denote_runs.1 hruns
      exact .pointed hzeros hletters hfirst (mem_denote_hasPoint.1 hpoint) hlen hv
  · rintro (⟨hdigits, hlen⟩ | ⟨hbefore, hletters, hfirst, hpoint, hlen, hafter⟩)
    · obtain ⟨v, hv, u, hu, rfl⟩ := zeros_short_iff.2 ⟨hdigits, hlen⟩
      exact ⟨v, mem_denote_letters.2 hv, u, mem_denote_total.2 (.inl hu), rfl⟩
    · refine ⟨_, mem_denote_letters.2 hbefore, _, mem_denote_total.2 (.inr ?_), rfl⟩
      exact ⟨_, ⟨mem_denote_runs.2 ⟨hletters, hfirst, hlen⟩, mem_denote_hasPoint.2 hpoint⟩, _,
        hafter, rfl⟩

end Expr

/-! ## Decimal numbers -/

theorem significant_sublist (w : Word) : (significant w).Sublist w :=
  (List.rdropWhile_prefix _ _).sublist.trans (List.dropWhile_suffix _).sublist

/-- Zeros at both ends do not matter, if there is more than zeros between them. -/
theorem significant_between {before after : Word} (hbefore : ∀ c ∈ before, c = '0')
    (hpoint : '.' ∈ w) (hafter : ∀ c ∈ after, c = '0') :
    significant (before ++ (w ++ after)) = significant w := by
  have hne : (w.dropWhile (· == '0')).isEmpty = false := by
    rw [List.isEmpty_eq_false_iff, Ne, List.dropWhile_eq_nil_iff]
    exact fun h => absurd (h '.' hpoint) (by decide)
  unfold significant
  rw [dropWhile_zeros hbefore, List.dropWhile_append, hne, if_neg Bool.false_ne_true,
    rdropWhile_zeros hafter]

/-- All words of the format have few digits. -/
theorem HasTotal.hasDigits (h : HasTotal i w) : HasDigits i w := by
  cases h with
  | whole hw hlen =>
    refine ⟨fun c hc => .inl (List.all_eq_true.1 hw c hc), ?_⟩
    calc (significant w).countP Char.isDigit ≤ (significant w).length := List.countP_le_length
      _ ≤ (w.dropWhile (· == '0')).length := (List.rdropWhile_prefix _ _).length_le
      _ ≤ i := hlen
  | pointed hbefore hw hfirst hpoint hlen hafter =>
    have hzeros : ∀ v : Word, (∀ c ∈ v, c = '0') → ∀ c ∈ v, c.isDigit = true ∨ c = '.' :=
      fun v hv c hc => .inl (List.all_eq_true.1 (allDigits_zeros hv) c hc)
    refine ⟨?_, ?_⟩
    · exact List.forall_mem_append.2 ⟨hzeros _ hbefore, List.forall_mem_append.2
        ⟨hw, hzeros _ hafter⟩⟩
    · rw [significant_between hbefore hpoint hafter]
      exact Nat.le_trans (significant_sublist _).countP_le hlen

/-- Without digits there are no points. -/
theorem HasTotal.count_eq_zero (h : HasTotal 0 w) : w.count '.' = 0 := by
  cases h with
  | whole hw hlen =>
    exact List.count_eq_zero.2 fun hmem => absurd (List.all_eq_true.1 hw _ hmem) (by decide)
  | @pointed before w after hbefore hw hfirst hpoint hlen hafter =>
    cases w with
    | nil => cases hpoint
    | cons c w =>
      rw [List.countP_cons_of_pos (hfirst c rfl)] at hlen
      omega

/-- No points stand around a number. -/
theorem count_framed {before sign after : Word} (hbefore : ∀ c ∈ before, c ∈ blankLetters)
    (hsign : sign ∈ [[], ['+'], ['-']]) (hafter : ∀ c ∈ after, c ∈ blankLetters) :
    (before ++ (sign ++ (w ++ after))).count '.' = w.count '.' := by
  have hblanks : ∀ v : Word, (∀ c ∈ v, c ∈ blankLetters) → v.count '.' = 0 := fun v hv =>
    List.count_eq_zero.2 fun hmem => absurd (hv _ hmem) (by decide)
  have hsigns : ∀ v ∈ [[], ['+'], ['-']], v.count '.' = 0 := by decide
  simp only [List.count_append, hblanks _ hbefore, hsigns _ hsign, hblanks _ hafter]
  omega

/-- Of the words of the format, those with one point at most are decimal numbers. -/
theorem Framed.isDecimal_iff (h : Framed (HasTotal i) w) :
    Framed (IsDecimal i) w ↔ w.count '.' ≤ 1 := by
  constructor
  · rintro ⟨hbefore, hsign, hv, hafter⟩
    rw [count_framed hbefore hsign hafter]
    exact hv.point
  · obtain ⟨hbefore, hsign, hv, hafter⟩ := h
    intro hpoint
    rw [count_framed hbefore hsign hafter] at hpoint
    exact .mk hbefore hsign ⟨hv.hasDigits, hpoint⟩ hafter

theorem Framed.mono {P Q : Word → Prop} (h : Framed P w) (hPQ : ∀ v, P v → Q v) :
    Framed Q w := by
  obtain ⟨hbefore, hsign, hv, hafter⟩ := h
  exact .mk hbefore hsign (hPQ _ hv) hafter

/-- A number by itself. -/
theorem Framed.bare {P : Word → Prop} (h : P w) : Framed P w := by
  have hnone : ∀ c ∈ ([] : Word), c ∈ blankLetters := nofun
  simpa using Framed.mk hnone List.mem_cons_self h hnone

/-- Digits and points without zeros around them. -/
theorem HasTotal.unpadded (hw : ∀ c ∈ w, c.isDigit = true ∨ c = '.')
    (hfirst : ∀ c ∈ w.head?, c.isDigit = true) (hpoint : '.' ∈ w)
    (hlen : w.countP Char.isDigit ≤ i) : HasTotal i w := by
  have hnone : ∀ c ∈ ([] : Word), c = '0' := nofun
  simpa using pointed hnone hw hfirst hpoint hlen hnone

namespace Automaton

theorem exists_totalDigits (hi : i < wordLimit) :
    ∃ a, totalDigits i = .ok a ∧ a.WellFormed ∧ a.Truthful ∧
      (∀ w, a.Accepts w ↔ Framed (HasTotal i) w) ∧
      ∀ w, ∃ b, a.run w = .ok b ∧ (b = true ↔ Framed (HasTotal i) w) :=
  exists_framed (parse_totalPattern hi) rfl fun _ => Expr.mem_denote_number_total

/-- For every 64-bit number there is an automaton of the format with so many digits.  Between
blanks and behind a sign, all that it accepts has no more digits than that without the zeros at both
ends; it accepts all digits that are no more without the zeros at the front.  What it accepts is a
decimal number if there is one point in it at most, but only of the format without digits this is
true of all words. -/
theorem totalDigits_spec (i : UInt64) :
    ∃ a, totalDigits i.toNat = .ok a ∧ a.WellFormed ∧ a.Truthful ∧
      (∀ w, a.Accepts w ↔ Framed (HasTotal i.toNat) w) ∧
      (∀ w, ∃ b, a.run w = .ok b ∧ (b = true ↔ Framed (HasTotal i.toNat) w)) ∧
      (∀ w, a.Accepts w → Framed (HasDigits i.toNat) w) ∧
      (∀ w, a.Accepts w → (Framed (IsDecimal i.toNat) w ↔ w.count '.' ≤ 1)) ∧
      (∀ w, AllDigits w → (w.dropWhile (· == '0')).length ≤ i.toNat → a.Accepts w) ∧
      ((∀ w, a.Accepts w → w.count '.' ≤ 1) ↔ i = 0) := by
  obtain ⟨a, ha, hwf, htruthful, haccepts, hruns⟩ := exists_totalDigits i.toNat_lt
  refine ⟨a, ha, hwf, htruthful, haccepts, hruns, ?_, ?_, ?_, ?_, ?_⟩
  · intro w hw
    exact ((haccepts w).1 hw).mono fun _ => HasTotal.hasDigits
  · intro w hw
    exact ((haccepts w).1 hw).isDecimal_iff
  · intro w hdigits hlen
    exact (haccepts w).2 (.bare (.whole hdigits hlen))
  · intro hone
    by_contra hi
    have hpos : 1 ≤ i.toNat := Nat.pos_of_ne_zero fun h => hi (UInt64.toNat_inj.1 h)
    have hpoints : Framed (HasTotal i.toNat) ['1', '.', '.'] :=
      .bare (.unpadded (by simp) (by simp) (by decide) hpos)
    exact absurd (hone _ ((haccepts _).2 hpoints)) (by decide)
  · rintro rfl w hw
    obtain ⟨hbefore, hsign, hv, hafter⟩ := (haccepts w).1 hw
    rw [count_framed hbefore hsign hafter, HasTotal.count_eq_zero hv]
    exact Nat.zero_le 1

/-- With two digits, the format accepts two points. -/
theorem totalDigits_points : ∃ a, totalDigits 2 = .ok a ∧
    a.run ['1', '.', '.', '2'] = .ok true ∧ ¬ Framed (IsDecimal 2) ['1', '.', '.', '2'] := by
  obtain ⟨a, ha, -, -, -, hruns⟩ := exists_totalDigits (i := 2) (by decide)
  have hframed : Framed (HasTotal 2) ['1', '.', '.', '2'] :=
    .bare (.unpadded (by simp) (by simp) (by decide) (by decide))
  obtain ⟨b, hb, htrue⟩ := hruns ['1', '.', '.', '2']
  refine ⟨a, ha, ?_, fun h => absurd (hframed.isDecimal_iff.1 h) (by decide)⟩
  rw [hb, htrue.2 hframed]

end Automaton

end RegLang
