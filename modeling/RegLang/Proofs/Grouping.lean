import RegLang.Proofs.Escapes
/-!
# Patterns in brackets

Brackets around a pattern make it an operand.  No reader looks past a closing bracket: where a
construct may end at the end of the pattern it may end at a bracket as well, and a bracket goes on
with nothing that stands before it.  Nor does expansion: what is read ends between two pairs of a
backslash with a letter, so the bracket is not taken for the second letter of a pair.

* `Derives.before`: what is derived at the front of a word is derived in front of a letter that does
  not go on with it, such as a closing bracket.
* `Derives.leaves`, `transparent_of_parse`: a reader stops between two pairs.
* `Expr.parse_bracketed`: patterns in brackets as operands of every construct.
-/

namespace RegLang

open RegLang.Parser RegLang.Grammar RegLang.Numeral

variable {s t r u x y w p q ds es : Word} {c : Char} {m n : Nat} {e a b : Expr} {f : Features}
  {rule : Rule} {signs : Word}

/-! ## In front of a letter -/

/-- The signs that can go on with what stands before them, in a class or outside. -/
def linkingSigns : Word := repetitionSigns ++ ['-', ']', '^', '|', '&', '~']

theorem Avoids.mono {signs' : Word} (h : Avoids signs s) (hsub : signs' ⊆ signs) :
    Avoids signs' s := fun c hc hmem => h c hc (hsub hmem)

/-- A letter behind the word that is none of the signs changes nothing. -/
theorem Avoids.before (h : Avoids signs s) (hc : c ∉ linkingSigns) (hsigns : signs ⊆ linkingSigns)
    (t : Word) : Avoids signs (s ++ c :: t) := by
  cases s with
  | nil => exact avoids_cons.2 fun hmem => hc (hsigns hmem)
  | cons d s => exact avoids_cons.2 (avoids_cons.1 h)

theorem Avoids.append (h : Avoids signs s) (hs : s ≠ []) (t : Word) : Avoids signs (s ++ t) := by
  cases s with
  | nil => exact (hs rfl).elim
  | cons c s => exact avoids_cons.2 (avoids_cons.1 h)

theorem atEnd_append (hs : s ≠ []) (f : Features) (t : Word) : atEnd f (s ++ t) = atEnd f s := by
  cases s with
  | nil => exact (hs rfl).elim
  | cons c s => rfl

namespace Grammar

/-- Constructs of this rule run on up to where a concatenation ends. -/
def Rule.runsOn : Rule → Bool
  | union | inter | concat => true
  | _ => false

theorem Letter.append (h : Letter s c r) (t : Word) : Letter (s ++ t) c (r ++ t) := by
  cases h with
  | plain hc => exact .plain hc
  | escaped => exact .escaped

theorem Bounds.append (h : Bounds e s a r) (t : Word) : Bounds e (s ++ t) a (r ++ t) := by
  cases h with
  | exactly hn => simpa using Bounds.exactly (r := r ++ t) hn
  | atLeast hn => simpa using Bounds.atLeast (r := r ++ t) hn
  | between hn hm => simpa using Bounds.between (r := r ++ t) hn hm

theorem Derives.ne_nil (h : Derives f rule s e r) : s ≠ [] := by
  rintro rfl
  exact absurd (reads_of_derives h).shorter (Nat.not_lt_zero _)

section

variable (hc : c ∉ linkingSigns) (t : Word)

include hc

theorem Item.before (h : Item s e r) : Item (s ++ c :: t) e (r ++ c :: t) := by
  cases h with
  | single h last => exact .single (h.append _) (last.before hc (by decide) t)
  | range h more h' => exact .range (h.append _) (more.before hc (by decide) t) (h'.append _)
  | dash h => exact .dash (h.append _)

theorem Items.before (h : Items e s a r) : Items e (s ++ c :: t) a (r ++ c :: t) := by
  induction h with
  | close => exact .close
  | more more h _ ih => exact .more (more.before hc (by decide) t) (h.before hc t) ih

theorem Class.before (h : Class s e r) : Class (s ++ c :: t) e (r ++ c :: t) := by
  cases h with
  | listed first h h' =>
    exact .listed (first.before hc (by decide) t) (h.before hc t) (h'.before hc t)
  | others h h' => exact .others (h.before hc t) (h'.before hc t)

theorem Signs.before (h : Signs e s a r) : Signs e (s ++ c :: t) a (r ++ c :: t) := by
  induction h with
  | done last => exact .done (last.before hc (by decide) t)
  | optional _ ih => exact .optional ih
  | star _ ih => exact .star ih
  | plus _ ih => exact .plus ih
  | bounds h _ ih => exact .bounds (h.append _) ih

theorem Atom.before (h : Atom f s e r) : Atom f (s ++ c :: t) e (r ++ c :: t) := by
  cases h with
  | letter first h =>
    have hs : s ≠ [] := by
      rintro rfl
      cases h
    exact .letter (first.append hs _) (h.append _)
  | classed h => exact .classed (h.before hc t)
  | anyLetter => exact .anyLetter
  | quoted h => simpa using Atom.quoted (f := f) (r := r ++ c :: t) h
  | hashSign => exact .hashSign
  | atSign => exact .atSign
  | angle enabled h h' => simpa using Atom.angle (r := r ++ c :: t) enabled h h'
  | lessSign disabled => exact .lessSign disabled

/-- What is derived at the front of a word is derived in front of a letter that does not go on with
it; where a concatenation may end with the word, the letter has to end it. -/
theorem Derives.before (h : Derives f rule s e r)
    (hend : r = [] → rule.runsOn = true → atEnd f [c] = true) :
    Derives f rule (s ++ c :: t) e (r ++ c :: t) := by
  induction h with
  | union _ _ ih ih' => exact .union (ih nofun) (ih' hend)
  | interAlone _ last ih => exact .interAlone (ih hend) (last.before hc (by decide) t)
  | inter enabled _ _ ih ih' => exact .inter enabled (ih nofun) (ih' hend)
  | concatAlone _ last ih =>
    exact .concatAlone (ih hend) fun enabled => (last enabled).before hc (by decide) t
  | concat _ more h' ih ih' =>
    exact .concat (ih nofun) (by rw [atEnd_append h'.ne_nil, more]) (ih' hend)
  | @repeatsAlone _ _ r _ last ih =>
    refine .repeatsAlone (ih nofun) ?_
    by_cases hr : r = []
    · subst hr
      exact hend rfl rfl
    · rw [atEnd_append hr, last]
  | repeats _ h' ih => exact .repeats (ih nofun) (h'.before hc t)
  | compl enabled _ ih => exact .compl enabled (ih nofun)
  | simple first _ ih =>
    exact .simple (fun enabled => (first enabled).before hc (by decide) t) (ih nofun)
  | atom h => exact .atom (h.before hc t)
  | group first _ ih => exact .group (first.before hc (by decide) t) (ih nofun)
  | flags h _ ih => simpa using Derives.flags h (ih nofun)
  | nothing => exact .nothing
  | something first h ih => exact .something (first.append h.ne_nil _) (ih nofun)

end

/-- A bracket ends all that is derived before it. -/
theorem Derives.bracket (h : Derives f rule s e r) (t : Word) :
    Derives f rule (s ++ ')' :: t) e (r ++ ')' :: t) :=
  h.before (by decide) t fun _ _ => rfl

end Grammar

/-! ## Between two pairs -/

/-- What is left of `s` starts between two pairs, if `s` does. -/
def Leaves (s r : Word) : Prop := ∃ x, s = x ++ r ∧ Transparent x

theorem Leaves.refl (s : Word) : Leaves s s := ⟨[], rfl, transparent_nil⟩

theorem Leaves.trans (h : Leaves s t) (h' : Leaves t r) : Leaves s r := by
  obtain ⟨x, rfl, hx⟩ := h
  obtain ⟨y, rfl, hy⟩ := h'
  exact ⟨x ++ y, (List.append_assoc x y r).symm, hx.append hy⟩

theorem Leaves.expanded (h : Leaves s r) (hs : Expanded s) : Expanded r := by
  obtain ⟨x, rfl, hx⟩ := h
  rw [Expanded, hx] at hs
  exact List.append_cancel_left hs

/-- One part after another, where the second is looked at only once the first is known. -/
theorem Leaves.andThen (h : Leaves s t) (hs : Expanded s) (h' : Expanded t → Leaves t r) :
    Leaves s r := h.trans (h' (h.expanded hs))

theorem leaves_cons (hc : c ≠ '\\') : Leaves (c :: r) r := ⟨[c], rfl, transparent_single hc⟩

/-- What ends with a letter that is no backslash ends between two pairs. -/
theorem leaves_append (hs : Expanded (x ++ c :: r)) (hc : c ≠ '\\') : Leaves (x ++ c :: r) r :=
  ⟨x ++ [c], by simp, (hs.split hc).1⟩

namespace Grammar

theorem Letter.leaves (h : Letter s c r) (hs : Expanded s) : Leaves s r := by
  cases h with
  | plain hc => exact leaves_cons hc
  | escaped => exact ⟨['\\', c], rfl, transparent_pair hs.of_pair.1⟩

theorem Item.leaves (h : Item s e r) (hs : Expanded s) : Leaves s r := by
  cases h with
  | single h _ => exact h.leaves hs
  | range h _ h' =>
    exact ((h.leaves hs).trans (leaves_cons (by decide))).andThen hs h'.leaves
  | dash h => exact (h.leaves hs).trans (leaves_cons (by decide))

theorem Items.leaves (h : Items e s a r) (hs : Expanded s) : Leaves s r := by
  induction h with
  | close => exact leaves_cons (by decide)
  | more _ h _ ih => exact (h.leaves hs).andThen hs ih

theorem Class.leaves (h : Class s e r) (hs : Expanded s) : Leaves s r := by
  cases h with
  | listed _ h h' => exact (h.leaves hs).andThen hs h'.leaves
  | others h h' =>
    exact (leaves_cons (by decide)).andThen hs fun hs => (h.leaves hs).andThen hs h'.leaves

theorem Bounds.leaves (h : Bounds e s a r) (hs : Expanded s) : Leaves s r := by
  cases h with
  | exactly _ => exact leaves_append hs (by decide)
  | atLeast _ => exact (leaves_append hs (by decide)).trans (leaves_cons (by decide))
  | between _ _ =>
    exact (leaves_append hs (by decide)).andThen hs fun hs => leaves_append hs (by decide)

theorem Signs.leaves (h : Signs e s a r) (hs : Expanded s) : Leaves s r := by
  induction h with
  | done _ => exact .refl _
  | optional _ ih | star _ ih | plus _ ih => exact (leaves_cons (by decide)).andThen hs ih
  | bounds h _ ih =>
    exact (leaves_cons (by decide)).andThen hs fun hs => (h.leaves hs).andThen hs ih

theorem Atom.leaves (h : Atom f s e r) (hs : Expanded s) : Leaves s r := by
  cases h with
  | letter _ h => exact h.leaves hs
  | classed h => exact (leaves_cons (by decide)).andThen hs h.leaves
  | anyLetter | hashSign | atSign | lessSign _ => exact leaves_cons (by decide)
  | quoted _ | angle _ _ _ =>
    exact (leaves_cons (by decide)).andThen hs fun hs => leaves_append hs (by decide)

/-- A reader that starts between two pairs stops between two pairs. -/
theorem Derives.leaves (h : Derives f rule s e r) (hs : Expanded s) : Leaves s r := by
  induction h with
  | union _ _ ih ih' | inter _ _ _ ih ih' =>
    exact ((ih hs).trans (leaves_cons (by decide))).andThen hs ih'
  | concat _ _ _ ih ih' => exact (ih hs).andThen hs ih'
  | interAlone _ _ ih | concatAlone _ _ ih | repeatsAlone _ _ ih | simple _ _ ih => exact ih hs
  | repeats _ h' ih => exact (ih hs).andThen hs h'.leaves
  | compl _ _ ih | group _ _ ih => exact (leaves_cons (by decide)).andThen hs ih
  | atom h => exact h.leaves hs
  | flags _ _ ih =>
    exact (leaves_cons (by decide)).andThen hs fun hs =>
      (leaves_cons (by decide)).andThen hs fun hs => (leaves_append hs (by decide)).andThen hs ih
  | nothing => exact leaves_cons (by decide)
  | something _ _ ih => exact (ih hs).trans (leaves_cons (by decide))

end Grammar

/-- A pattern that is read ends between two pairs. -/
theorem transparent_of_parse (h : Expr.parse p f = .ok e) : Transparent (expandDigits p) := by
  rcases Expr.parse_eq_ok_iff.1 h with ⟨hnil, -⟩ | h
  · rw [hnil]
    exact transparent_nil
  · obtain ⟨x, hx, htransparent⟩ := h.leaves (expanded_expandDigits p)
    rwa [hx, List.append_nil]

theorem Transparent.of_append (h : Transparent (x ++ y)) (hx : Transparent x) : Transparent y := by
  intro r
  have := h r
  rw [List.append_assoc, hx, List.append_assoc] at this
  exact List.append_cancel_left this

/-- A pattern that ends between two pairs is expanded by itself. -/
theorem expandDigits_append (h : Transparent (expandDigits p)) (r : Word) :
    expandDigits (p ++ r) = expandDigits p ++ expandDigits r := by
  induction p using expandDigits.induct with
  | case1 p ih =>
    have hclass : Transparent "[0-9]".toList := transparent_of_not_mem (by decide)
    rw [expandDigits_shorthand] at h ⊢
    rw [List.cons_append, List.cons_append, expandDigits_shorthand, ih (h.of_append hclass),
      List.append_assoc]
  | case2 c p hc ih =>
    rw [expandDigits_pair hc] at h ⊢
    have hp := Transparent.of_append (x := ['\\', c]) h (transparent_pair hc)
    rw [List.cons_append, List.cons_append, expandDigits_pair hc, ih hp]
    rfl
  | case3 c p _ hpair ih =>
    by_cases hc : c = '\\'
    · -- a single backslash at the end would make a pair with what follows
      cases p with
      | nil =>
        subst hc
        exact absurd (h ['d']) (by decide)
      | cons d p => exact (hpair d p hc rfl).elim
    · rw [expandDigits_cons hc] at h ⊢
      have hp := Transparent.of_append (x := [c]) h (transparent_single hc)
      rw [List.cons_append, expandDigits_cons hc, ih hp]
      rfl
  | case4 => rfl

/-! ## Operands in brackets -/

/-- A pattern in brackets. -/
def bracketed (p : Word) : Word := '(' :: (p ++ [')'])

/-- The pattern is read as the expression, and in brackets it is a group without flags and not the
empty group. -/
structure Groupable (f : Features) (p : Word) (e : Expr) : Prop where
  parse_eq : Expr.parse p f = .ok e
  first : Avoids [')', '?'] (expandDigits p)

/-- Digits that denote a 64-bit word. -/
structure Denotes (ds : Word) (n : Nat) : Prop where
  ne_nil : ds ≠ []
  digits : AllDigits ds
  value_eq : value ds = n
  lt : n < wordLimit

theorem Denotes.decimal?_eq (h : Denotes ds n) : decimal? ds = some n :=
  decimal?_eq_some.2 ⟨h.ne_nil, h.digits, h.value_eq, h.lt⟩

theorem Denotes.not_mem (h : Denotes ds n) (hc : c.isDigit = false) : c ∉ ds := by
  intro hmem
  have := List.all_eq_true.1 h.digits c hmem
  rw [hc] at this
  cases this

/-- Expansion takes the brackets for themselves. -/
theorem Groupable.expand (h : Groupable f p e) (r : Word) :
    expandDigits (bracketed p ++ r) = '(' :: (expandDigits p ++ ')' :: expandDigits r) := by
  have happend : bracketed p ++ r = '(' :: (p ++ ')' :: r) := by simp [bracketed]
  rw [happend, expandDigits_cons (by decide),
    expandDigits_append (transparent_of_parse h.parse_eq), expandDigits_cons (by decide)]

/-- A pattern in brackets is read as an operand, whatever follows. -/
theorem Groupable.negated (h : Groupable f p e) (r : Word) :
    Derives f .negated ('(' :: (expandDigits p ++ ')' :: r)) e r := by
  refine .simple (fun _ => avoids_cons.2 (by decide)) (.group ?_ ?_)
  · exact (h.first.mono (by decide)).before (by decide) (by decide) r
  · rcases Expr.parse_eq_ok_iff.1 h.parse_eq with ⟨hnil, rfl⟩ | hp
    · rw [hnil]
      exact .nothing
    · exact .something ((h.first.mono (by decide)).append hp.ne_nil _) (hp.bracket r)

/-- The same with signs of repetition behind the bracket. -/
theorem Groupable.repeats (h : Groupable f p e) (hsigns : Signs e s a r) :
    Derives f .repeats ('(' :: (expandDigits p ++ ')' :: s)) a r :=
  .repeats (h.negated s) hsigns

theorem Groupable.alone (h : Groupable f p e) (hr : Avoids repetitionSigns r) :
    Derives f .repeats ('(' :: (expandDigits p ++ ')' :: r)) e r :=
  h.repeats (.done hr)

/-- One item is a whole pattern. -/
theorem parse_of_repeats (h : Derives f .repeats (expandDigits p) e []) :
    Expr.parse p f = .ok e :=
  Expr.parse_eq_ok_iff.2
    (.inr (.interAlone (.concatAlone (.repeatsAlone h rfl) fun _ => avoids_nil) avoids_nil))

/-- Two operands with a bar between them. -/
theorem derives_union {P Q : Expr} (hp : Derives f .repeats s P ('|' :: t))
    (hq : Derives f .repeats t Q []) : Derives f .union s (.union P Q) [] :=
  .union (.concatAlone (.repeatsAlone hp rfl) fun _ => avoids_cons.2 (by decide))
    (.interAlone (.concatAlone (.repeatsAlone hq rfl) fun _ => avoids_nil) avoids_nil)

/-- An operand with signs of repetition is a whole pattern. -/
theorem Groupable.parse_repeats (h : Groupable f p e) (hs : '\\' ∉ s) (hsigns : Signs e s a []) :
    Expr.parse (bracketed p ++ s) f = .ok a := by
  refine parse_of_repeats ?_
  rw [h.expand, (transparent_of_not_mem hs).expanded]
  exact h.repeats hsigns

section

variable {P Q : Expr} (hp : Groupable f p P) (hq : Groupable f q Q)

include hp hq

theorem parse_union_bracketed :
    Expr.parse (bracketed p ++ '|' :: bracketed q) f = .ok (.union P Q) := by
  refine Expr.parse_eq_ok_iff.2 (.inr ?_)
  have hexpand := hq.expand []
  rw [List.append_nil] at hexpand
  rw [hp.expand, expandDigits_cons (by decide), hexpand]
  exact derives_union (hp.alone (avoids_cons.2 (by decide))) (hq.alone avoids_nil)

theorem parse_concat_bracketed :
    Expr.parse (bracketed p ++ bracketed q) f = .ok (P.followedBy Q) := by
  refine Expr.parse_eq_ok_iff.2 (.inr (.interAlone (.concatAlone ?_ fun _ => avoids_nil)
    avoids_nil))
  have hexpand := hq.expand []
  rw [List.append_nil] at hexpand
  rw [hp.expand, hexpand]
  refine .concat (hp.alone (avoids_cons.2 (by decide))) ?_ (.repeatsAlone (hq.alone avoids_nil) rfl)
  simp [atEnd]

theorem parse_inter_bracketed (enabled : f.includes .intersection = true) :
    Expr.parse (bracketed p ++ '&' :: bracketed q) f = .ok (.inter P Q) := by
  refine Expr.parse_eq_ok_iff.2 (.inr (.interAlone ?_ avoids_nil))
  have hexpand := hq.expand []
  rw [List.append_nil] at hexpand
  rw [hp.expand, expandDigits_cons (by decide), hexpand]
  refine .inter enabled (.repeatsAlone (hp.alone (avoids_cons.2 (by decide))) ?_)
    (.concatAlone (.repeatsAlone (hq.alone avoids_nil) rfl) fun _ => avoids_nil)
  simp [atEnd, enabled]

end

/-- Patterns in brackets are the operands of the constructs that are written around them; the
bounds of a repetition may be written with leading zeros. -/
theorem Expr.parse_bracketed {P Q : Expr} (hp : Groupable f p P) (hq : Groupable f q Q) :
    Expr.parse (bracketed p) f = .ok P ∧
      Expr.parse (bracketed p ++ '|' :: bracketed q) f = .ok (.union P Q) ∧
      Expr.parse (bracketed p ++ bracketed q) f = .ok (P.followedBy Q) ∧
      Expr.parse (bracketed p ++ ['?']) f = .ok (.optional P) ∧
      Expr.parse (bracketed p ++ ['*']) f = .ok (.star P) ∧
      Expr.parse (bracketed p ++ ['+']) f = .ok (.atLeast P 1) ∧
      (∀ ds n, Denotes ds n →
        Expr.parse (bracketed p ++ '\x7b' :: (ds ++ ['}'])) f = .ok (.repeated P n n) ∧
        Expr.parse (bracketed p ++ '\x7b' :: (ds ++ [',', '}'])) f = .ok (.atLeast P n) ∧
        ∀ es m, Denotes es m →
          Expr.parse (bracketed p ++ '\x7b' :: (ds ++ ',' :: (es ++ ['}']))) f =
            .ok (.repeated P n m)) ∧
      (f.includes .intersection = true →
        Expr.parse (bracketed p ++ '&' :: bracketed q) f = .ok (.inter P Q)) ∧
      (f.includes .complement = true →
        Expr.parse ('~' :: bracketed p) f = .ok (.compl P)) := by
  have last : Avoids repetitionSigns [] := avoids_nil
  refine ⟨?_, parse_union_bracketed hp hq, parse_concat_bracketed hp hq,
    hp.parse_repeats (by decide) (.optional (.done last)),
    hp.parse_repeats (by decide) (.star (.done last)),
    hp.parse_repeats (by decide) (.plus (.done last)), ?_, parse_inter_bracketed hp hq, ?_⟩
  · simpa using hp.parse_repeats (s := []) (by decide) (.done last)
  · intro ds n hds
    have hslash : '\\' ∉ ds := hds.not_mem (by decide)
    refine ⟨hp.parse_repeats (by simpa using hslash) ?_,
      hp.parse_repeats (by simpa using hslash) ?_, fun es m hes => ?_⟩
    · exact .bounds (.exactly hds.decimal?_eq) (.done last)
    · exact .bounds (.atLeast hds.decimal?_eq) (.done last)
    · have hslash' : '\\' ∉ es := hes.not_mem (by decide)
      refine hp.parse_repeats (by simpa using ⟨hslash, hslash'⟩) ?_
      exact .bounds (.between hds.decimal?_eq hes.decimal?_eq) (.done last)
  · intro enabled
    have hexpand := hp.expand []
    rw [List.append_nil] at hexpand
    refine parse_of_repeats (.repeats ?_ (.done last))
    rw [expandDigits_cons (by decide), hexpand]
    exact .compl enabled (hp.negated [])

/-- Backslashes in quotes and behind a backslash, right before the bracket. -/
theorem Expr.parse_bracketed_backslash :
    Groupable .all ['"', '\\', '"', '|', '\\', '\\'] (.union (.literal ['\\']) (.letter '\\')) ∧
      Groupable .all ['a', '|', '\\', 'd'] (.union (.letter 'a') (.range '0' '9')) ∧
      Denotes ['0', '2'] 2 ∧
      Expr.parse (bracketed ['"', '\\', '"', '|', '\\', '\\'] ++
          '&' :: bracketed ['a', '|', '\\', 'd']) .all =
        .ok (.inter (.union (.literal ['\\']) (.letter '\\'))
          (.union (.letter 'a') (.range '0' '9'))) ∧
      Expr.parse (bracketed ['"', '\\', '"', '|', '\\', '\\'] ++
          '\x7b' :: (['0', '2'] ++ [',', '}'])) .all =
        .ok (.atLeast (.union (.literal ['\\']) (.letter '\\')) 2) := by
  have hquoted : Derives .all .repeats ['"', '\\', '"', '|', '\\', '\\'] (.literal ['\\'])
      ['|', '\\', '\\'] :=
    .repeats (.simple (fun _ => avoids_cons.2 (by decide))
      (.atom (.quoted (w := ['\\']) (by decide)))) (.done (avoids_cons.2 (by decide)))
  have hslash : Derives .all .repeats ['\\', '\\'] (.letter '\\') [] :=
    .repeats (.simple (fun _ => avoids_cons.2 (by decide))
      (.atom (.letter (avoids_cons.2 (by decide)) .escaped))) (.done avoids_nil)
  have hp : Groupable .all ['"', '\\', '"', '|', '\\', '\\']
      (.union (.literal ['\\']) (.letter '\\')) :=
    ⟨Expr.parse_eq_ok_iff.2 (.inr (derives_union hquoted hslash)),
      by rw [expandDigits_cons (by decide)]; exact avoids_cons.2 (by decide)⟩
  have hletter : Derives .all .repeats ['a', '|', '[', '0', '-', '9', ']'] (.letter 'a')
      ['|', '[', '0', '-', '9', ']'] :=
    .repeats (.simple (fun _ => avoids_cons.2 (by decide))
      (.atom (.letter (avoids_cons.2 (by decide)) (.plain (by decide)))))
      (.done (avoids_cons.2 (by decide)))
  have hclass : Derives .all .repeats ['[', '0', '-', '9', ']'] (.range '0' '9') [] :=
    .repeats (.simple (fun _ => avoids_cons.2 (by decide)) (.atom (.classed
      (.listed (avoids_cons.2 (by decide)) (.range (.plain (by decide)) (avoids_cons.2 (by decide))
        (.plain (by decide))) .close)))) (.done avoids_nil)
  have hq : Groupable .all ['a', '|', '\\', 'd'] (.union (.letter 'a') (.range '0' '9')) :=
    ⟨Expr.parse_eq_ok_iff.2 (.inr (derives_union hletter hclass)),
      by rw [expandDigits_cons (by decide)]; exact avoids_cons.2 (by decide)⟩
  have hds : Denotes ['0', '2'] 2 := ⟨by decide, rfl, rfl, by decide⟩
  obtain ⟨_, _, _, _, _, _, hbounds, hinter, _⟩ := parse_bracketed hp hq
  exact ⟨hp, hq, hds, hinter rfl, (hbounds _ _ hds).2.1⟩

end RegLang
