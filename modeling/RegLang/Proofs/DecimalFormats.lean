import Mathlib.Data.List.DropRight
import RegLang.Primitive.Digits
import RegLang.Proofs.Compilation
import RegLang.Proofs.Parts
import RegLang.Proofs.Pieces
import RegLang.Proofs.Totality
/-!
# Formats of decimal numbers

The pattern of a format is written around a number in print.  It consists of pieces: blanks, a
sign, the pieces of the number, blanks.  So it is read as the same expression for every number, but
for one bound, and the words of the format are those of the pieces, one after another.

* `parse_framed`, `Expr.mem_denote_framed`: a format from the pieces of its number.
* `Automaton.exists_framed`: the automaton of such a format.
* `Lettered.mem_kstar_iff` and its like: repetitions of single letters.
* `Automaton.fractionDigits_spec`: numbers with a bounded number of digits after the point.
-/

namespace RegLang

open RegLang.Parser RegLang.Grammar RegLang.Numeral Computability

/-! ## Definitions -/

/-- Space, tab, line feed, carriage return. -/
def blankLetters : Word := [' ', '\t', '\n', '\r']

/-- A number with blanks around it, and perhaps a sign right before it. -/
inductive Framed (Number : Word → Prop) : Word → Prop
  | mk {before sign w after : Word} (hbefore : ∀ c ∈ before, c ∈ blankLetters)
      (hsign : sign ∈ [[], ['+'], ['-']]) (hw : Number w) (hafter : ∀ c ∈ after, c ∈ blankLetters) :
      Framed Number (before ++ (sign ++ (w ++ after)))

/-- Some digits, and perhaps a point with digits behind it, of which at most `i` are left when the
zeros at the end are dropped. -/
inductive HasFraction (i : Nat) : Word → Prop
  | whole {w : Word} (hne : w ≠ []) (hw : AllDigits w) : HasFraction i w
  | point {w ds : Word} (hne : w ≠ []) (hw : AllDigits w) (hds : AllDigits ds)
      (hlen : (ds.rdropWhile (· == '0')).length ≤ i) : HasFraction i (w ++ '.' :: ds)

/-- The language has words of one letter alone, those with a property. -/
def Lettered (p : Char → Prop) (l : Language Char) : Prop := ∀ v, v ∈ l ↔ ∃ c, p c ∧ v = [c]

namespace Expr

/-- Any number of blanks. -/
def blanks : Expr := .star (.oneOf ' ' ['\t', '\n', '\r'])

def sign : Expr := .optional (.oneOf '-' ['+'])

/-- Blanks and a sign before some expressions, and blanks behind them. -/
def framed (es : List Expr) : Expr := joined (blanks :: sign :: (es ++ [blanks]))

/-- Digits, at least one. -/
def whole : Expr := .atLeast (.range '0' '9') 1

/-- A point with at most `i` digits and any number of zeros behind it, or nothing. -/
def fraction (i : Nat) : Expr :=
  .optional (joined [.letter '.', .repeated (.range '0' '9') 0 i, .star (.letter '0')])

end Expr

/-- How often the digits behind the point may be repeated. -/
def boundText (i : Nat) : Word := '\x7b' :: (['0'] ++ ',' :: (decimal i ++ ['}']))

/-- The text of a point and the digits behind it. -/
def fractionText (i : Nat) : Word :=
  bracketed [['\\', '.'], ['[', '0', '-', '9', ']'] ++ boundText i, ['0', '*']].flatten ++ ['?']

variable {l : Language Char} {p : Char → Prop} {w ds : Word} {i n lo hi : Nat} {ps : List Word}
  {es : List Expr} {env : String → Language Char}

/-! ## Repetitions of letters -/

namespace Lettered

/-- Parts of one letter are as many as the letters. -/
theorem length_flatten (h : Lettered p l) {vs : List Word} (hvs : ∀ v ∈ vs, v ∈ l) :
    vs.flatten.length = vs.length ∧ ∀ c ∈ vs.flatten, p c := by
  induction vs with
  | nil => simp
  | cons v vs ih =>
    obtain ⟨hv, hrest⟩ := List.forall_mem_cons.1 hvs
    obtain ⟨c, hc, rfl⟩ := (h v).1 hv
    simpa [hc, Nat.add_comm] using ih hrest

theorem parts_iff (h : Lettered p l) (N : Nat → Prop) :
    (∃ vs : List Word, N vs.length ∧ vs.flatten = w ∧ ∀ v ∈ vs, v ∈ l) ↔
      N w.length ∧ ∀ c ∈ w, p c := by
  constructor
  · rintro ⟨vs, hN, rfl, hvs⟩
    obtain ⟨hlen, hletters⟩ := h.length_flatten hvs
    rw [hlen]
    exact ⟨hN, hletters⟩
  · rintro ⟨hN, hw⟩
    have hflatten : (w.map ([·])).flatten = w := by rw [← List.flatMap_def, List.flatMap_singleton']
    refine ⟨w.map ([·]), by rwa [List.length_map], hflatten, fun v hv => ?_⟩
    obtain ⟨c, hc, rfl⟩ := List.mem_map.1 hv
    exact (h _).2 ⟨c, hw c hc, rfl⟩

theorem mem_kstar_iff (h : Lettered p l) : w ∈ l∗ ↔ ∀ c ∈ w, p c := by
  have hparts := h.parts_iff (w := w) fun _ => True
  simpa [RegLang.mem_kstar_iff] using hparts

theorem mem_pow_mul_kstar_iff (h : Lettered p l) :
    w ∈ l ^ n * l∗ ↔ n ≤ w.length ∧ ∀ c ∈ w, p c :=
  RegLang.mem_pow_mul_kstar_iff.trans (h.parts_iff (n ≤ ·))

theorem mem_powersBetween_iff (h : Lettered p l) :
    w ∈ powersBetween l lo hi ↔ (lo ≤ w.length ∧ w.length ≤ hi) ∧ ∀ c ∈ w, p c := by
  rw [RegLang.mem_powersBetween_iff, ← h.parts_iff fun n => lo ≤ n ∧ n ≤ hi]
  simp only [and_assoc]

end Lettered

/-! ## Pieces of a format -/

theorem lettered_digit : Lettered (·.isDigit = true) ((Expr.range '0' '9').denote env) := by
  intro v
  have hlower : Alphabet.lower '0' '9' = '0' := by decide
  have hupper : Alphabet.upper '0' '9' = '9' := by decide
  simp only [Expr.denote, lettersBetween, hlower, hupper, isDigit_iff, and_assoc]
  rfl

theorem lettered_letter {c : Char} : Lettered (· = c) ((Expr.letter c).denote env) := fun v => by
  simp

theorem lettered_oneOf {c : Char} {cs : Word} :
    Lettered (· ∈ c :: cs) ((Expr.oneOf c cs).denote env) := fun _ => Expr.mem_denote_oneOf

namespace Expr

theorem mem_denote_blanks : w ∈ blanks.denote env ↔ ∀ c ∈ w, c ∈ blankLetters :=
  lettered_oneOf.mem_kstar_iff

theorem mem_denote_sign : w ∈ sign.denote env ↔ w ∈ [[], ['+'], ['-']] := by
  rw [sign, mem_denote_optional, mem_denote_oneOf]
  simp [or_comm]

theorem mem_denote_whole : w ∈ whole.denote env ↔ w ≠ [] ∧ AllDigits w := by
  rw [AllDigits, List.all_eq_true, ← List.length_pos_iff]
  exact lettered_digit.mem_pow_mul_kstar_iff

end Expr

theorem toList_blanks : Digits.blanks.toList = ['[', ' ', '\t', '\n', '\r', ']', '*'] := by
  simp [Digits.blanks]

theorem toList_sign : Digits.sign.toList = ['[', '-', '+', ']', '?'] := by
  simp [Digits.sign]

theorem piece_blanks : Piece Digits.blanks.toList .blanks := by
  have hblank := operand_oneOf ' ' ['\t', '\n', '\r'] (by decide) (by simp)
  rw [toList_blanks]
  exact hblank.piece (s := ['*']) (.star (.done avoids_nil)) (by decide)

theorem piece_sign : Piece Digits.sign.toList .sign := by
  have hsign := operand_oneOf '-' ['+'] (by decide) (by simp)
  rw [toList_sign]
  exact hsign.piece (s := ['?']) (.optional (.done avoids_nil)) (by decide)

theorem piece_whole : Piece ['[', '0', '-', '9', ']', '+'] .whole :=
  operand_digit.piece (.plus (.done avoids_nil)) (by decide)

/-- The text of the pieces of a number, with a sign and blanks around it. -/
theorem parse_framed (h : List.Forall₂ Piece ps es) :
    Expr.parse (Digits.blanks.toList ++ (Digits.sign.toList ++
      (ps.flatten ++ Digits.blanks.toList))) .all = .ok (.framed es) := by
  have hframe : List.Forall₂ Piece
      (Digits.blanks.toList :: Digits.sign.toList :: (ps ++ [Digits.blanks.toList]))
      (.blanks :: .sign :: (es ++ [.blanks])) :=
    .cons piece_blanks (.cons piece_sign (List.rel_append h (.cons piece_blanks .nil)))
  simpa [Expr.framed] using parse_pieces hframe (List.cons_ne_nil _ _)

theorem Expr.mem_denote_framed :
    w ∈ (framed es).denote env ↔ Framed (· ∈ (joined es).denote env) w := by
  have hframed : (framed es).denote env = blanks.denote env *
      (sign.denote env * ((joined es).denote env * blanks.denote env)) := by
    rw [framed, denote_joined, denote_joined]
    simp
  rw [hframed]
  constructor
  · rintro ⟨before, hbefore, _, ⟨sign, hsign, _, ⟨w, hw, after, hafter, rfl⟩, rfl⟩, rfl⟩
    exact .mk (mem_denote_blanks.1 hbefore) (mem_denote_sign.1 hsign) hw
      (mem_denote_blanks.1 hafter)
  · rintro ⟨hbefore, hsign, hw, hafter⟩
    exact ⟨_, mem_denote_blanks.2 hbefore, _, ⟨_, mem_denote_sign.2 hsign, _,
      ⟨_, hw, _, mem_denote_blanks.2 hafter, rfl⟩, rfl⟩, rfl⟩

/-! ## Digits after the point -/

theorem allDigits_zeros {v : Word} (hv : ∀ c ∈ v, c = '0') : AllDigits v :=
  List.all_eq_true.2 fun c hc => by rw [hv c hc]; rfl

theorem dropWhile_zeros {u v : Word} (hv : ∀ c ∈ v, c = '0') :
    (v ++ u).dropWhile (· == '0') = u.dropWhile (· == '0') :=
  List.dropWhile_append_of_pos fun c hc => by simpa using hv c hc

/-- Zeros behind some digits are dropped with the zeros at their end. -/
theorem rdropWhile_zeros {u v : Word} (hv : ∀ c ∈ v, c = '0') :
    (u ++ v).rdropWhile (· == '0') = u.rdropWhile (· == '0') := by
  rw [List.rdropWhile, List.reverse_append,
    dropWhile_zeros fun c hc => hv c (List.mem_reverse.1 hc)]
  rfl

/-- A few digits with zeros behind them, however they are cut. -/
theorem short_zeros_iff :
    (∃ u : Word, (u.length ≤ i ∧ AllDigits u) ∧ ∃ v : Word, (∀ c ∈ v, c = '0') ∧ u ++ v = ds) ↔
      AllDigits ds ∧ (ds.rdropWhile (· == '0')).length ≤ i := by
  constructor
  · rintro ⟨u, ⟨hlen, hu⟩, v, hv, rfl⟩
    have hzeros : AllDigits v := allDigits_zeros hv
    have hdrop : (u.rdropWhile (· == '0')).length ≤ u.length :=
      (List.rdropWhile_prefix _ u).length_le
    rw [rdropWhile_zeros hv]
    exact ⟨allDigits_append.2 ⟨hu, hzeros⟩, Nat.le_trans hdrop hlen⟩
  · rintro ⟨hds, hlen⟩
    have hsplit : ds.rdropWhile (· == '0') ++ ds.rtakeWhile (· == '0') = ds :=
      List.rdropWhile_append_rtakeWhile
    refine ⟨_, ⟨hlen, (allDigits_append.1 (hsplit ▸ hds)).1⟩, _, fun c hc => ?_, hsplit⟩
    simpa using List.mem_rtakeWhile_imp hc

namespace Expr

theorem mem_denote_letters {c : Char} : w ∈ (star (letter c)).denote env ↔ ∀ d ∈ w, d = c :=
  lettered_letter.mem_kstar_iff

theorem mem_denote_digits : w ∈ (repeated (range '0' '9') 0 i).denote env ↔
    w.length ≤ i ∧ AllDigits w := by
  show w ∈ powersBetween _ 0 i ↔ _
  rw [lettered_digit.mem_powersBetween_iff, AllDigits, List.all_eq_true]
  simp

theorem mem_denote_places :
    ds ∈ (repeated (range '0' '9') 0 i).denote env * (star (letter '0')).denote env ↔
      AllDigits ds ∧ (ds.rdropWhile (· == '0')).length ≤ i := by
  simp only [Language.mem_mul, mem_denote_digits, mem_denote_letters, ← short_zeros_iff]

theorem mem_denote_fraction : w ∈ (fraction i).denote env ↔
    w = [] ∨ ∃ ds, w = '.' :: ds ∧ AllDigits ds ∧ (ds.rdropWhile (· == '0')).length ≤ i := by
  have hpoint : (joined [letter '.', repeated (range '0' '9') 0 i, star (letter '0')]).denote env =
      (letter '.').denote env *
        ((repeated (range '0' '9') 0 i).denote env * (star (letter '0')).denote env) := by
    rw [denote_joined]
    simp
  rw [fraction, mem_denote_optional, hpoint, Language.mem_mul, or_comm]
  refine or_congr_right ⟨?_, ?_⟩
  · rintro ⟨_, rfl, ds, hds, rfl⟩
    exact ⟨ds, rfl, mem_denote_places.1 hds⟩
  · rintro ⟨ds, rfl, hds⟩
    exact ⟨['.'], rfl, ds, mem_denote_places.2 hds, rfl⟩

theorem mem_denote_number :
    w ∈ (joined [whole, fraction i]).denote env ↔ HasFraction i w := by
  rw [mem_denote_pair]
  constructor
  · rintro ⟨u, hu, v, hv, rfl⟩
    obtain ⟨hne, hdigits⟩ := mem_denote_whole.1 hu
    rcases mem_denote_fraction.1 hv with rfl | ⟨ds, rfl, hds, hlen⟩
    · rw [List.append_nil]
      exact .whole hne hdigits
    · exact .point hne hdigits hds hlen
  · rintro (⟨hne, hw⟩ | ⟨hne, hw, hds, hlen⟩)
    · exact ⟨w, mem_denote_whole.2 ⟨hne, hw⟩, [], mem_denote_fraction.2 (.inl rfl),
        List.append_nil w⟩
    · exact ⟨_, mem_denote_whole.2 ⟨hne, hw⟩, _,
        mem_denote_fraction.2 (.inr ⟨_, rfl, hds, hlen⟩), rfl⟩

end Expr

/-- An operand that may be repeated up to a 64-bit number of times. -/
theorem Operand.bounded {p : Word} {e : Expr} (h : Operand p e) (hi : i < wordLimit) :
    Piece (p ++ boundText i) (.repeated e 0 i) := by
  have hnone : '\\' ∉ decimal i := (denotes_iff.2 (decimal?_decimal hi)).not_mem (by decide)
  refine h.piece (.bounds (.between rfl (decimal?_decimal hi)) (.done avoids_nil)) ?_
  simp [boundText, hnone]

theorem piece_zeros : Piece ['0', '*'] (.star (.letter '0')) :=
  (operand_letter '0').piece (.star (.done avoids_nil)) (by decide)

theorem piece_fraction (hi : i < wordLimit) : Piece (fractionText i) (.fraction i) := by
  have hpieces : List.Forall₂ Piece
      [['\\', '.'], ['[', '0', '-', '9', ']'] ++ boundText i, ['0', '*']]
      [.letter '.', .repeated (.range '0' '9') 0 i, .star (.letter '0')] :=
    .cons (operand_letter '.').alone (.cons (operand_digit.bounded hi) (.cons piece_zeros .nil))
  exact (operand_pieces hpieces (List.cons_ne_nil _ _)).piece (.optional (.done avoids_nil))
    (by decide)

theorem toList_fractionPattern (i : Nat) : (Digits.fractionPattern i).toList =
    Digits.blanks.toList ++ (Digits.sign.toList ++
      ([['[', '0', '-', '9', ']', '+'], fractionText i].flatten ++ Digits.blanks.toList)) := by
  simp [Digits.fractionPattern, fractionText, boundText, decimal_eq_toDigits, bracketed]

theorem parse_fractionPattern (hi : i < wordLimit) :
    Expr.parse (Digits.fractionPattern i).toList .all = .ok (.framed [.whole, .fraction i]) := by
  rw [toList_fractionPattern]
  exact parse_framed (.cons piece_whole (.cons (piece_fraction hi) .nil))

namespace Automaton

/-- The pattern of a format is compiled to an automaton of its numbers, with a sign and blanks
around them. -/
theorem exists_framed {pattern : Word} {Number : Word → Prop}
    (hparse : Expr.parse pattern .all = .ok (.framed es)) (hnames : (Expr.framed es).names = [])
    (hnumber : ∀ w, w ∈ (Expr.joined es).denote (Names.language []) ↔ Number w) :
    ∃ a, compile pattern {} = .ok a ∧ a.WellFormed ∧ a.Truthful ∧
      (∀ w, a.Accepts w ↔ Framed Number w) ∧
      ∀ w, ∃ b, a.run w = .ok b ∧ (b = true ↔ Framed Number w) := by
  have hparse' : Expr.parse pattern ({} : Options).features = .ok (.framed es) := hparse
  obtain ⟨a, ha, hproper, hl⟩ :=
    Expr.exists_compile hparse' (Expr.spells_of_parse hparse).fits hnames
  have hmem : ∀ w, w ∈ a.language ↔ Framed Number w := by
    intro w
    rw [hl, Expr.mem_denote_framed]
    simp only [hnumber]
  obtain ⟨_, hok, hanswers⟩ := (Computes.of_ok hproper rfl).answers hmem fun _ => Iff.rfl
  cases hok
  exact ⟨a, ha, hanswers⟩

/-- For every 64-bit number there is an automaton of the format with so many digits.  Its runs
accept blanks, perhaps a sign, some digits, perhaps a point with any digits of which no more than
that are left without the zeros at the end, and blanks; there may be no digit after the point. -/
theorem fractionDigits_spec (i : UInt64) :
    ∃ a, fractionDigits i.toNat = .ok a ∧ a.WellFormed ∧ a.Truthful ∧
      (∀ w, a.Accepts w ↔ Framed (HasFraction i.toNat) w) ∧
      ∀ w, ∃ b, a.run w = .ok b ∧ (b = true ↔ Framed (HasFraction i.toNat) w) :=
  exists_framed (parse_fractionPattern i.toNat_lt) rfl fun _ => Expr.mem_denote_number

end Automaton

end RegLang
