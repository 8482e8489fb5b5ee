import RegLang.Expr.Printer
import RegLang.Proofs.Escapes
import RegLang.Semantics.Folding
/-!
# Printing and reading again

The text of an expression has brackets around the operands of everything but concatenations, so it
is read as a run of items, one for every factor or for every letter of a word.  No text starts with
a sign that would go on with what stands before it, or end it; hence texts can be put side by side,
and the run of a concatenation is the runs of its parts.  What is read may join letters and words
in another way than the expression had them, so it is the same expression only once both are
folded.

* `Expr.opens_text`: how a text starts.
* `Rereads.group`, `rereads_item`: from the run of an operand to the item of the whole.
* `Expr.Readable.rereads`: every text is read as a run with the factors of the expression.
* `Expr.parse_text`: reading what was printed after reading.
-/

namespace RegLang

open RegLang.Parser RegLang.Grammar Printer

open RegLang.Expr (mergeRuns factors mergeRuns_append_congr mergeRuns_followedBy mergeRuns_letters)

/-! ## Definitions -/

/-- No part of the expression is a numeric interval. -/
def Expr.IntervalFree : Expr → Prop
  | union a b | concat a b | inter a b => a.IntervalFree ∧ b.IntervalFree
  | optional a | star a | atLeast a _ | repeated a _ _ | compl a => a.IntervalFree
  | interval _ _ _ => False
  | _ => True

/-- The signs that go on with what stands before them, or end it. -/
def joiningSigns : Word := repetitionSigns ++ [')', '|', '&']

/-- A further expression can start here. -/
def Opens (s : Word) : Prop := s ≠ [] ∧ Avoids joiningSigns s

/-- Items read one after another, each where a further one can start. -/
inductive Run : Word → List Expr → Word → Prop where
  | nil : Run r [] r
  | cons (opens : Opens s) (h : Derives .all .repeats s e t) (h' : Run t es r) :
      Run s (e :: es) r

/-- The text of the expression, in front of anything that does not go on with it, is read as a run
with the factors of the expression. -/
def Rereads (e : Expr) : Prop :=
  ∀ r, Avoids repetitionSigns r →
    ∃ es, es ≠ [] ∧ Run (e.text ++ r) es r ∧ mergeRuns (es.flatMap factors) = mergeRuns e.factors

variable {s t r x w : Word} {c d : Char} {n : Nat} {e a b : Expr} {es fs : List Expr}

/-! ## Letters in print -/

theorem escaped_cases (c : Char) :
    escaped c = ['\\', c] ∧ c ≠ 'd' ∨ escaped c = [c] ∧ c ∉ metacharacters := by
  unfold escaped
  split
  · next h =>
    refine .inl ⟨rfl, ?_⟩
    rintro rfl
    exact absurd h (by decide)
  · next h => exact .inr ⟨rfl, fun hc => h (by simp [hc])⟩

theorem transparent_escaped (c : Char) : Transparent (escaped c) := by
  rcases escaped_cases c with ⟨h, hc⟩ | ⟨h, hc⟩
  · rw [h]
    exact transparent_pair hc
  · rw [h]
    exact transparent_single fun hb => hc (hb ▸ by decide)

theorem letter_escaped (c : Char) (r : Word) : Letter (escaped c ++ r) c r := by
  rcases escaped_cases c with ⟨h, -⟩ | ⟨h, hc⟩
  · rw [h]
    exact .escaped
  · rw [h]
    exact .plain fun hb => hc (hb ▸ by decide)

/-- A letter in print starts with a backslash or without any meaning. -/
theorem avoids_escaped {signs : Word}
    (h : signs.all (fun d => metacharacters.contains d && d != '\\') = true) :
    Avoids signs (escaped c ++ r) := by
  replace h : ∀ d ∈ signs, d ∈ metacharacters ∧ d ≠ '\\' := by simpa using h
  rcases escaped_cases c with ⟨hc, -⟩ | ⟨hc, hmeta⟩
  · rw [hc]
    exact avoids_cons.2 fun hmem => (h _ hmem).2 rfl
  · rw [hc]
    exact avoids_cons.2 fun hmem => hmeta (h _ hmem).1

/-! ## How a text starts -/

theorem opens_cons : Opens (c :: r) ↔ c ∉ joiningSigns := by simp [Opens]

theorem Opens.avoids {signs : Word} (h : Opens s) (hs : signs.all joiningSigns.contains = true) :
    Avoids signs s := fun c hc hmem => h.2 c hc (by simpa using List.all_eq_true.1 hs c hmem)

theorem Opens.atEnd {f : Features} (h : Opens s) : atEnd f s = false := by
  cases s with
  | nil => exact (h.1 rfl).elim
  | cons c r =>
    have hc := opens_cons.1 h
    simp only [joiningSigns, repetitionSigns, List.mem_append, List.mem_cons, not_or] at hc
    simp [Parser.atEnd, hc]

theorem opens_escaped (c : Char) (r : Word) : Opens (escaped c ++ r) := by
  refine ⟨?_, avoids_escaped (by decide)⟩
  rcases escaped_cases c with ⟨h, -⟩ | ⟨h, -⟩ <;> simp [h]

theorem Expr.opens_text (e : Expr) (r : Word) : Opens (e.text ++ r) := by
  induction e generalizing r with
  | concat a b iha _ =>
    rw [text_concat, List.append_assoc]
    exact iha _
  | letter c => exact opens_escaped c r
  | literal w =>
    rw [text]
    unfold Printer.literal
    split <;> exact opens_cons.2 (by decide)
  | _ => exact opens_cons.2 (by decide)

/-! ## Runs of items -/

theorem Run.append (h : Run s es t) (h' : Run t fs r) : Run s (es ++ fs) r := by
  induction h with
  | nil => exact h'
  | cons opens h _ ih => exact .cons opens h (ih h')

/-- A run up to the end of a concatenation is read as the concatenation of its items. -/
theorem Run.concat (h : Run s es r) (hne : es ≠ []) (last : atEnd .all r = true) :
    ∃ e, Derives .all .concat s e r ∧ mergeRuns e.factors = mergeRuns (es.flatMap factors) := by
  -- along the run: a concatenation groups to the right, so the rest of the run is its second part
  induction h with
  | nil => exact (hne rfl).elim
  | @cons s e t es r _ h h' ih =>
    cases h' with
    | nil => exact ⟨e, .repeatsAlone h last, by simp⟩
    | cons opens' h'' h''' =>
      obtain ⟨b, hb, hfold⟩ := ih (List.cons_ne_nil _ _) last
      refine ⟨_, .concat h opens'.atEnd hb, ?_⟩
      rw [mergeRuns_followedBy, List.flatMap_cons]
      exact mergeRuns_append_congr rfl hfold

/-- A concatenation that ends with a bracket stands alone. -/
theorem derives_union_of_concat (h : Derives .all .concat s e (')' :: r)) :
    Derives .all .union s e (')' :: r) :=
  .interAlone (.concatAlone h fun _ => avoids_cons.2 (by decide)) (avoids_cons.2 (by decide))

theorem derives_brackets (opens : Opens s) (h : Derives .all .union s e (')' :: r)) :
    Derives .all .simple ('(' :: s) e r :=
  .group (opens.avoids (by decide)) (.something (opens.avoids (by decide)) h)

/-- A run in brackets is read as a group. -/
theorem Run.group (h : Run s es (')' :: r)) (hne : es ≠ []) :
    ∃ e, Derives .all .simple ('(' :: s) e r ∧
      mergeRuns e.factors = mergeRuns (es.flatMap factors) := by
  obtain ⟨e, he, hfold⟩ := h.concat hne rfl
  have opens : Opens s := by
    cases h with
    | nil => exact (hne rfl).elim
    | cons opens _ _ => exact opens
  exact ⟨e, derives_brackets opens (derives_union_of_concat he), hfold⟩

/-- Letters in print are a run of letters. -/
theorem run_escaped (w : Word) (hr : Avoids repetitionSigns r) :
    Run (w.flatMap escaped ++ r) (w.map .letter) r := by
  induction w with
  | nil => exact .nil
  | cons c w ih =>
    rw [List.flatMap_cons, List.append_assoc, List.map_cons]
    refine .cons (opens_escaped c _) ?_ ih
    have hc : Derives .all .simple _ _ _ :=
      .atom (.letter (avoids_escaped (by decide)) (letter_escaped c (w.flatMap escaped ++ r)))
    refine .repeats (.simple (fun _ => avoids_escaped (by decide)) hc) (.done ?_)
    cases w with
    | nil => exact hr
    | cons d w =>
      rw [List.flatMap_cons, List.append_assoc]
      exact avoids_escaped (by decide)

/-! ## Reading texts -/

/-- An expression whose text is read as one item. -/
theorem rereads_item
    (h : ∀ r, Avoids repetitionSigns r → ∃ e', Derives .all .repeats (e.text ++ r) e' r ∧
      mergeRuns e'.factors = mergeRuns e.factors) : Rereads e := by
  intro r hr
  obtain ⟨e', he, hfold⟩ := h r hr
  exact ⟨[e'], List.cons_ne_nil _ _, .cons (e.opens_text r) he .nil, by simpa using hfold⟩

theorem rereads_simple (hcompl : ∀ r, Avoids ['~'] (e.text ++ r))
    (h : ∀ r, ∃ e', Derives .all .simple (e.text ++ r) e' r ∧
      mergeRuns e'.factors = mergeRuns e.factors) : Rereads e := by
  refine rereads_item fun r hr => ?_
  obtain ⟨e', he, hfold⟩ := h r
  exact ⟨e', .repeats (.simple (fun _ => hcompl r) he) (.done hr), hfold⟩

/-- An expression whose text is read as it is. -/
theorem rereads_atom (hcompl : ∀ r, Avoids ['~'] (e.text ++ r))
    (h : ∀ r, Atom .all (e.text ++ r) e r) : Rereads e :=
  rereads_simple hcompl fun r => ⟨e, .atom (h r), rfl⟩

/-! ### Operands in brackets -/

/-- The text of an operand up to the end of a concatenation. -/
theorem Rereads.concat (ha : Rereads a) (last : atEnd .all r = true)
    (hr : Avoids repetitionSigns r) :
    ∃ e, Derives .all .concat (a.text ++ r) e r ∧ mergeRuns e.factors = mergeRuns a.factors := by
  obtain ⟨es, hne, hrun, hfold⟩ := ha r hr
  obtain ⟨e, he, hfold'⟩ := hrun.concat hne last
  exact ⟨e, he, hfold'.trans hfold⟩

/-- The text of an operand up to the closing bracket. -/
theorem Rereads.union (ha : Rereads a) (r : Word) :
    ∃ e, Derives .all .union (a.text ++ ')' :: r) e (')' :: r) ∧
      mergeRuns e.factors = mergeRuns a.factors := by
  obtain ⟨e, he, hfold⟩ := ha.concat (r := ')' :: r) rfl (avoids_cons.2 (by decide))
  exact ⟨e, derives_union_of_concat he, hfold⟩

/-- The text of an operand in brackets. -/
theorem Rereads.group (ha : Rereads a) (r : Word) :
    ∃ e, Derives .all .simple ('(' :: (a.text ++ ')' :: r)) e r ∧
      mergeRuns e.factors = mergeRuns a.factors := by
  obtain ⟨e, he, hfold⟩ := ha.union r
  exact ⟨e, derives_brackets (a.opens_text _) he, hfold⟩

theorem rereads_concat (ha : Rereads a) (hb : Rereads b) : Rereads (.concat a b) := by
  -- no brackets here: the text of `b` stands right behind that of `a`, and opens a new item
  intro r hr
  obtain ⟨es₂, hne, hrun₂, hfold₂⟩ := hb r hr
  obtain ⟨es₁, -, hrun₁, hfold₁⟩ := ha (b.text ++ r) ((b.opens_text r).avoids (by decide))
  refine ⟨es₁ ++ es₂, List.append_ne_nil_of_right_ne_nil _ hne, ?_, ?_⟩
  · rw [Expr.text_concat, List.append_assoc]
    exact hrun₁.append hrun₂
  · rw [List.flatMap_append, factors]
    exact mergeRuns_append_congr hfold₁ hfold₂

theorem rereads_union (ha : Rereads a) (hb : Rereads b) : Rereads (.union a b) := by
  refine rereads_simple (fun r => avoids_cons.2 (by decide)) fun r => ?_
  obtain ⟨e₁, h₁, hfold₁⟩ := ha.concat (r := '|' :: (b.text ++ ')' :: r)) rfl
    (avoids_cons.2 (by decide))
  obtain ⟨e₂, h₂, hfold₂⟩ := hb.union r
  have h₁ := Derives.concatAlone h₁ fun _ => avoids_cons.2 (by decide)
  refine ⟨.union e₁ e₂, ?_, by simp only [factors, hfold₁, hfold₂]⟩
  simpa [Expr.text] using derives_brackets (a.opens_text _) (.union h₁ h₂)

theorem rereads_inter (ha : Rereads a) (hb : Rereads b) : Rereads (.inter a b) := by
  refine rereads_simple (fun r => avoids_cons.2 (by decide)) fun r => ?_
  obtain ⟨e₁, h₁, hfold₁⟩ := ha.concat (r := '&' :: (b.text ++ ')' :: r)) rfl
    (avoids_cons.2 (by decide))
  obtain ⟨e₂, h₂, hfold₂⟩ := hb.concat (r := ')' :: r) rfl (avoids_cons.2 (by decide))
  have h₂ := Derives.concatAlone h₂ fun _ => avoids_cons.2 (by decide)
  have h := Derives.interAlone (.inter rfl h₁ h₂) (avoids_cons.2 (by decide))
  refine ⟨.inter e₁ e₂, ?_, by simp only [factors, hfold₁, hfold₂]⟩
  simpa [Expr.text] using derives_brackets (a.opens_text _) h

theorem rereads_compl (ha : Rereads a) : Rereads (.compl a) := by
  refine rereads_item fun r hr => ?_
  obtain ⟨e, he, hfold⟩ := ha.group r
  have he := Derives.compl rfl (.simple (fun _ => avoids_cons.2 (by decide)) he)
  refine ⟨.compl e, ?_, by simp only [factors, hfold]⟩
  simpa [Expr.text] using Derives.repeats he (.done hr)

/-- An operand with signs of repetition. -/
theorem rereads_repeats (signs : Word) (op : Expr → Expr) (ha : Rereads a)
    (htext : (op a).text = '(' :: (a.text ++ ')' :: signs))
    (hsigns : ∀ e r, Avoids repetitionSigns r → Signs e (signs ++ r) (op e) r)
    (hop : ∀ e, mergeRuns e.factors = mergeRuns a.factors → (op e).factors = (op a).factors) :
    Rereads (op a) := by
  refine rereads_item fun r hr => ?_
  obtain ⟨e, he, hfold⟩ := ha.group (signs ++ r)
  have he := Derives.repeats (.simple (fun _ => avoids_cons.2 (by decide)) he) (hsigns e r hr)
  refine ⟨op e, ?_, by rw [hop e hfold]⟩
  simpa [htext] using he

theorem rereads_optional (ha : Rereads a) : Rereads (.optional a) :=
  rereads_repeats ['?'] .optional ha (by simp [Expr.text]) (fun _ _ hr => .optional (.done hr))
    fun _ h => by simp only [factors, h]

theorem rereads_star (ha : Rereads a) : Rereads (.star a) :=
  rereads_repeats ['*'] .star ha (by simp [Expr.text]) (fun _ _ hr => .star (.done hr))
    fun _ h => by simp only [factors, h]

theorem decimal?_decimal (h : n < wordLimit) : decimal? (Numeral.decimal n) = some n :=
  decimal?_eq_some.2 ⟨List.length_pos_iff.1 (Numeral.length_decimal_pos n),
    Numeral.allDigits_padded 0 n, Numeral.value_padded 0 n, h⟩

theorem rereads_atLeast (ha : Rereads a) (hn : n < wordLimit) : Rereads (.atLeast a n) := by
  refine rereads_repeats ('\x7b' :: (Numeral.decimal n ++ [',', '}'])) (.atLeast · n) ha
    (by simp [Expr.text]) ?_ fun _ h => by simp only [factors, h]
  intro e r hr
  simpa using Signs.bounds (.atLeast (decimal?_decimal hn)) (.done hr)

theorem rereads_repeated {lo hi : Nat} (ha : Rereads a) (hlo : lo < wordLimit)
    (hhi : hi < wordLimit) : Rereads (.repeated a lo hi) := by
  refine rereads_repeats
    ('\x7b' :: (Numeral.decimal lo ++ ',' :: (Numeral.decimal hi ++ ['}']))) (.repeated · lo hi) ha
    (by simp [Expr.text]) ?_ fun _ h => by simp only [factors, h]
  intro e r hr
  simpa using Signs.bounds (.between (decimal?_decimal hlo) (decimal?_decimal hhi)) (.done hr)

/-! ### Leaves -/

theorem rereads_letter (c : Char) : Rereads (.letter c) := by
  intro r hr
  exact ⟨[.letter c], List.cons_ne_nil _ _, by simpa [Expr.text] using run_escaped [c] hr,
    by simp⟩

theorem rereads_range (h : c < d) : Rereads (.range c d) := by
  refine rereads_atom (fun r => avoids_cons.2 (by decide)) fun r => ?_
  have hrange : rangeOf c d = .range c d := by
    have hne : c ≠ d := Char.ne_of_lt h
    have hd : ¬ d < c := Char.lt_asymm h
    simp [rangeOf, hne, Alphabet.lower, Alphabet.upper, h, hd]
  have hitem : Item _ _ _ := .range (letter_escaped c ('-' :: (escaped d ++ ']' :: r)))
    (avoids_escaped (by decide)) (letter_escaped d (']' :: r))
  rw [hrange] at hitem
  simpa [Expr.text] using Atom.classed (.listed (avoids_escaped (by decide)) hitem .close)

theorem rereads_literal (w : Word) : Rereads (.literal w) := by
  by_cases hw : (w.any fun c => c = '"' || c = '\\') = true
  -- a word that cannot stand in quotes is printed letter by letter: a run in brackets
  · have htext : (Expr.literal w).text = '(' :: (w.flatMap escaped ++ [')']) := by
      simp [Expr.text, Printer.literal, hw]
    have hne : w ≠ [] := by
      rintro rfl
      cases hw
    refine rereads_simple (fun r => by simp [htext]) fun r => ?_
    have hrun := run_escaped (r := ')' :: r) w (avoids_cons.2 (by decide))
    obtain ⟨e, he, hfold⟩ := hrun.group (by simpa using hne)
    have hfactors : (w.map Expr.letter).flatMap factors = w.map fun c => .literal [c] := by
      rw [List.flatMap_map]
      exact List.map_eq_flatMap.symm
    refine ⟨e, by simpa [htext] using he, hfold.trans ?_⟩
    rw [hfactors, mergeRuns_letters hne]
    rfl
  · have htext : (Expr.literal w).text = '"' :: (w ++ ['"']) := by
      simp [Expr.text, Printer.literal, hw]
    refine rereads_atom (fun r => by simp [htext]) fun r => ?_
    have hquote : '"' ∉ w := fun hmem => hw (List.any_eq_true.2 ⟨_, hmem, by decide⟩)
    simpa [htext] using Atom.quoted hquote

theorem rereads_named {name : String} (hclose : '>' ∉ name.toList) (hdash : '-' ∉ name.toList) :
    Rereads (.named name) := by
  refine rereads_atom (fun r => avoids_cons.2 (by decide)) fun r => ?_
  have hbody : angleBody .all name.toList = .ok (.named name) := by
    have hall : ∀ c ∈ name.toList, (c != '-') = true := by
      intro c hc
      simpa using fun h : c = '-' => hdash (h ▸ hc)
    rw [angleBody, List.span_eq_takeWhile_dropWhile, List.takeWhile_eq_self_iff.2 hall,
      List.dropWhile_eq_nil_iff.2 hall]
    have enabled : Features.all.includes .automaton = true := by decide
    simp only [enabled, if_true, String.ofList_toList]
  simpa [Expr.text] using Atom.angle rfl hclose hbody

/-- Every text is read as a run with the factors of the expression. -/
theorem Expr.Readable.rereads (h : e.Readable) (hfree : e.IntervalFree) : Rereads e := by
  induction e with
  | union a b iha ihb => exact rereads_union (iha h.1 hfree.1) (ihb h.2 hfree.2)
  | concat a b iha ihb => exact rereads_concat (iha h.1 hfree.1) (ihb h.2 hfree.2)
  | inter a b iha ihb => exact rereads_inter (iha h.1 hfree.1) (ihb h.2 hfree.2)
  | optional a ih => exact rereads_optional (ih h hfree)
  | star a ih => exact rereads_star (ih h hfree)
  | atLeast a n ih => exact rereads_atLeast (ih h.1 hfree) h.2
  | repeated a lo hi ih => exact rereads_repeated (ih h.1 hfree) h.2.1 h.2.2
  | compl a ih => exact rereads_compl (ih h hfree)
  | letter c => exact rereads_letter c
  | range c d => exact rereads_range h
  | anyLetter => exact rereads_atom (fun r => avoids_cons.2 (by decide)) fun _ => .anyLetter
  | empty => exact rereads_atom (fun r => avoids_cons.2 (by decide)) fun _ => .hashSign
  | literal w => exact rereads_literal w
  | anyWord => exact rereads_atom (fun r => avoids_cons.2 (by decide)) fun _ => .atSign
  | named name => exact rereads_named h.1 h.2.1
  | interval lo hi digits => exact hfree.elim

/-! ## Whole patterns -/

theorem transparent_decimal (n : Nat) : Transparent (Numeral.decimal n) := by
  refine transparent_of_not_mem fun h => ?_
  have := List.all_eq_true.1 (Numeral.allDigits_padded 0 n) _ h
  exact absurd this (by decide)

theorem Transparent.enclosed {y : Word} (hx : Transparent x) (hs : '\\' ∉ s) (hy : '\\' ∉ y) :
    Transparent (s ++ x ++ y) :=
  ((transparent_of_not_mem hs).append hx).append (transparent_of_not_mem hy)

theorem transparent_letters (w : Word) : Transparent (w.flatMap escaped) := by
  induction w with
  | nil => exact transparent_nil
  | cons c w ih =>
    rw [List.flatMap_cons]
    exact (transparent_escaped c).append ih

theorem transparent_literal (w : Word) : Transparent (Printer.literal w) := by
  unfold Printer.literal
  split
  · exact (transparent_letters w).enclosed (by decide) (by decide)
  · next h =>
    have hw : '\\' ∉ w := fun hmem => h (List.any_eq_true.2 ⟨_, hmem, by decide⟩)
    exact (transparent_of_not_mem hw).enclosed (by decide) (by decide)

/-- A text can be put anywhere in a pattern: expansion has nothing to do there. -/
theorem Expr.Readable.transparent_text (h : e.Readable) (hfree : e.IntervalFree) :
    Transparent e.text := by
  have signs : ∀ {s : Word}, '\\' ∉ s → Transparent s := transparent_of_not_mem
  induction e with
  | union a b iha ihb =>
    have ha := (iha h.1 hfree.1).enclosed (s := ['(']) (y := ['|']) (by decide) (by decide)
    exact (ha.append (ihb h.2 hfree.2)).append (signs (by decide))
  | inter a b iha ihb =>
    have ha := (iha h.1 hfree.1).enclosed (s := ['(']) (y := ['&']) (by decide) (by decide)
    exact (ha.append (ihb h.2 hfree.2)).append (signs (by decide))
  | concat a b iha ihb => exact (iha h.1 hfree.1).append (ihb h.2 hfree.2)
  | optional a ih | star a ih | compl a ih =>
    exact (ih h hfree).enclosed (by decide) (by decide)
  | atLeast a n ih =>
    have ha := (ih h.1 hfree).enclosed (s := ['(']) (y := [')', '\x7b']) (by decide) (by decide)
    exact (ha.append (transparent_decimal n)).append (signs (by decide))
  | repeated a lo hi ih =>
    have ha := (ih h.1 hfree).enclosed (s := ['(']) (y := [')', '\x7b']) (by decide) (by decide)
    exact (((ha.append (transparent_decimal lo)).append (signs (by decide))).append
      (transparent_decimal hi)).append (signs (by decide))
  | letter c => exact transparent_escaped c
  | range c d =>
    have hc := (transparent_escaped c).enclosed (s := ['[']) (y := ['-']) (by decide) (by decide)
    exact (hc.append (transparent_escaped d)).append (signs (by decide))
  | literal w => exact transparent_literal w
  | named name =>
    have hname := (signs (s := ['<']) (by decide)).append h.2.2
    simpa [text] using hname
  | interval lo hi digits => exact hfree.elim
  | _ => exact transparent_single (by decide)

/-- The text of an expression that was read is read as the same expression up to the folding of
literals. -/
theorem Expr.Readable.reparses (h : e.Readable) (hfree : e.IntervalFree) :
    ∃ e', Expr.parse e.text .all = .ok e' ∧ e'.folded = e.folded := by
  obtain ⟨e', he, hfold⟩ := (h.rereads hfree).concat (r := []) rfl avoids_nil
  rw [List.append_nil] at he
  have he := Derives.interAlone (.concatAlone he fun _ => avoids_nil) avoids_nil
  refine ⟨e', Expr.parse_eq_ok_iff.2 (.inr ?_), congrArg Expr.chain hfold⟩
  rwa [(h.transparent_text hfree).expanded]

/-- Printing undoes reading up to the folding of literals. -/
theorem Expr.parse_text {pattern : Word} {f : Features} (h : Expr.parse pattern f = .ok e)
    (hfree : e.IntervalFree) :
    ∃ e', Expr.parse e.text .all = .ok e' ∧ e'.folded = e.folded ∧
      ∀ env, e'.denote env = e.denote env := by
  obtain ⟨e', hparse, hfold⟩ := (Expr.readable_of_parse h).reparses hfree
  refine ⟨e', hparse, hfold, fun env => ?_⟩
  rw [← e'.denote_folded, hfold, e.denote_folded]

/-- A quoted backslash before the `d` of the shorthand, and a repetition of that `d` alone. -/
theorem Expr.parse_text_backslash :
    Expr.parse ['"', '\\', '"', 'd', '*'] .none =
        .ok (.concat (.literal ['\\']) (.star (.letter 'd'))) ∧
      ∃ e', Expr.parse ['(', '\\', '\\', ')', '(', 'd', ')', '*'] .all = .ok e' ∧
        e'.folded = (Expr.concat (.literal ['\\']) (.star (.letter 'd'))).folded ∧
        ∀ env, e'.denote env =
          (Expr.concat (.literal ['\\']) (.star (.letter 'd'))).denote env := by
  have hquoted : Derives .none .repeats ['"', '\\', '"', 'd', '*'] (.literal ['\\']) ['d', '*'] :=
    .repeats (.simple (fun _ => avoids_cons.2 (by decide))
      (.atom (.quoted (w := ['\\']) (by decide))))
      (.done (avoids_cons.2 (by decide)))
  have hstar : Derives .none .repeats ['d', '*'] (.star (.letter 'd')) [] :=
    .repeats (.simple (fun _ => avoids_cons.2 (by decide))
      (.atom (.letter (avoids_cons.2 (by decide)) (.plain (by decide))))) (.star (.done avoids_nil))
  have hconcat := Derives.concat hquoted rfl (.repeatsAlone hstar rfl)
  have h := Derives.interAlone (.concatAlone hconcat fun _ => avoids_nil) avoids_nil
  have hparse : Expr.parse ['"', '\\', '"', 'd', '*'] .none =
      .ok (.concat (.literal ['\\']) (.star (.letter 'd'))) :=
    Expr.parse_eq_ok_iff.2 (.inr h)
  exact ⟨hparse, Expr.parse_text hparse ⟨trivial, trivial⟩⟩

end RegLang
