import Mathlib.Data.List.TakeDrop
import Mathlib.Data.List.TakeWhile
import RegLang.Expr.Printer
import RegLang.Proofs.Parsing
/-!
# The shorthand for digits

The shorthand is expanded before a pattern is read, by pairing every backslash with the letter after
it, whatever the two will be read as.  A reader that starts between two pairs stops between two
pairs, since every construct ends with a letter that is no backslash or with a pair.  So in the
words that it takes out of the pattern, such as names, expansion would find nothing to do.

* `expanded_expandDigits`: what is expanded stays as it is.
* `Expanded.split`: a closing sign ends a part that can be copied to another pattern.
* `Derives.readable`: the expressions that can be read from an expanded pattern.
-/

namespace RegLang

open RegLang.Parser RegLang.Grammar

variable {s t r x y w : Word} {c d : Char} {n : Nat} {e a b : Expr} {f : Features} {rule : Rule}

/-! ## Expansion -/

/-- Expansion has been done. -/
def Expanded (s : Word) : Prop := expandDigits s = s

/-- Expansion leaves the word alone, and what follows is expanded by itself. -/
def Transparent (x : Word) : Prop := ∀ r, expandDigits (x ++ r) = x ++ expandDigits r

theorem transparent_nil : Transparent [] := fun _ => rfl

theorem transparent_single (h : c ≠ '\\') : Transparent [c] := fun _ => expandDigits_cons h

theorem transparent_pair (h : c ≠ 'd') : Transparent ['\\', c] := fun _ => expandDigits_pair h

theorem Transparent.append (hx : Transparent x) (hy : Transparent y) : Transparent (x ++ y) := by
  intro r
  rw [List.append_assoc, hx, hy, List.append_assoc]

theorem transparent_of_not_mem (h : '\\' ∉ x) : Transparent x := by
  induction x with
  | nil => exact transparent_nil
  | cons c x ih =>
    have hc : c ≠ '\\' := fun hc => h (hc ▸ List.mem_cons_self)
    exact (transparent_single hc).append (ih fun hx => h (List.mem_cons_of_mem c hx))

theorem Transparent.expanded (h : Transparent x) : Expanded x := by
  have := h []
  rwa [List.append_nil, show expandDigits [] = [] from rfl, List.append_nil] at this

theorem expanded_expandDigits (s : Word) : Expanded (expandDigits s) := by
  induction s using expandDigits.induct with
  | case1 r ih =>
    have hclass : Transparent "[0-9]".toList := transparent_of_not_mem (by decide)
    rw [expandDigits_shorthand, Expanded, hclass, ih]
  | case2 c r hc ih => rw [expandDigits_pair hc, Expanded, expandDigits_pair hc, ih]
  | case3 c r _ hpair ih =>
    by_cases hc : c = '\\'
    · -- a single backslash at the end
      cases r with
      | nil =>
        subst hc
        rfl
      | cons d r => exact (hpair d r hc rfl).elim
    · rw [expandDigits_cons hc, Expanded, expandDigits_cons hc, ih]
  | case4 => rfl

theorem Expanded.of_cons (h : Expanded (c :: r)) (hc : c ≠ '\\') : Expanded r := by
  rw [Expanded, expandDigits_cons hc] at h
  exact (List.cons.inj h).2

theorem Expanded.of_pair (h : Expanded ('\\' :: c :: r)) : c ≠ 'd' ∧ Expanded r := by
  by_cases hc : c = 'd'
  · subst hc
    rw [Expanded, expandDigits_shorthand] at h
    exact absurd (List.cons.inj h).1 (by decide)
  · rw [Expanded, expandDigits_pair hc] at h
    exact ⟨hc, (List.cons.inj (List.cons.inj h).2).2⟩

/-- A letter that is no backslash ends a pair, or stands between two. -/
theorem Expanded.split (h : Expanded (x ++ c :: r)) (hc : c ≠ '\\') :
    Transparent (x ++ [c]) ∧ Expanded r := by
  induction x using expandDigits.induct with
  | case1 x ih => exact absurd rfl h.of_pair.1
  | case2 d x hd ih =>
    obtain ⟨hx, hr⟩ := ih h.of_pair.2
    exact ⟨(transparent_pair hd).append hx, hr⟩
  | case3 d x _ hpair ih =>
    by_cases hd : d = '\\'
    · cases x with
      | nil =>
        subst hd
        obtain ⟨hcd, hr⟩ := h.of_pair
        exact ⟨transparent_pair hcd, hr⟩
      | cons d' x => exact (hpair d' x hd rfl).elim
    · obtain ⟨hx, hr⟩ := ih (h.of_cons hd)
      exact ⟨(transparent_single hd).append hx, hr⟩
  | case4 => exact ⟨transparent_single hc, h.of_cons hc⟩

/-! ## Expressions that are read -/

/-- What is true of the numbers, ranges and names of an expression that was read from an expanded
pattern. -/
def Expr.Readable : Expr → Prop
  | union a b | concat a b | inter a b => a.Readable ∧ b.Readable
  | optional a | star a | compl a => a.Readable
  | atLeast a n => a.Readable ∧ n < wordLimit
  | repeated a lo hi => a.Readable ∧ lo < wordLimit ∧ hi < wordLimit
  | range c d => c < d
  | named name => '>' ∉ name.toList ∧ '-' ∉ name.toList ∧ Transparent (name.toList ++ ['>'])
  | _ => True

theorem Expr.Readable.followedBy (ha : a.Readable) (hb : b.Readable) :
    (a.followedBy b).Readable := by
  unfold Expr.followedBy
  split
  · exact trivial
  · split
    · split
      · exact ⟨trivial, hb.2⟩
      · exact ⟨ha, hb⟩
    · exact ⟨ha, hb⟩
  · split
    · split
      · exact ⟨ha.1, trivial⟩
      · exact ⟨ha, hb⟩
    · exact ⟨ha, hb⟩
  · exact ⟨ha, hb⟩

namespace Grammar

theorem Letter.expanded (h : Letter s c r) (hs : Expanded s) : Expanded r := by
  cases h with
  | plain hc => exact hs.of_cons hc
  | escaped => exact hs.of_pair.2

theorem readable_rangeOf (c d : Char) : (rangeOf c d).Readable := by
  unfold rangeOf
  split
  · exact trivial
  · next h =>
    have hne : c.toNat ≠ d.toNat := fun hn => h (Alphabet.toNat_inj hn)
    show Alphabet.lower c d < Alphabet.upper c d
    unfold Alphabet.lower Alphabet.upper
    simp only [Alphabet.lt_iff_toNat]
    split <;> split <;> omega

theorem Item.readable (h : Item s e r) (hs : Expanded s) : e.Readable ∧ Expanded r := by
  cases h with
  | single h _ => exact ⟨trivial, h.expanded hs⟩
  | range h _ h' => exact ⟨readable_rangeOf _ _, h'.expanded ((h.expanded hs).of_cons (by decide))⟩
  | dash h => exact ⟨⟨trivial, trivial⟩, (h.expanded hs).of_cons (by decide)⟩

theorem Items.readable (h : Items e s a r) (he : e.Readable) (hs : Expanded s) :
    a.Readable ∧ Expanded r := by
  induction h with
  | close => exact ⟨he, hs.of_cons (by decide)⟩
  | more _ h _ ih =>
    obtain ⟨ha, ht⟩ := h.readable hs
    exact ih ⟨he, ha⟩ ht

theorem Class.readable (h : Class s e r) (hs : Expanded s) : e.Readable ∧ Expanded r := by
  cases h with
  | listed _ h h' =>
    obtain ⟨ha, ht⟩ := h.readable hs
    exact h'.readable ha ht
  | others h h' =>
    obtain ⟨ha, ht⟩ := h.readable (hs.of_cons (by decide))
    obtain ⟨he, hr⟩ := h'.readable ha ht
    exact ⟨⟨trivial, he⟩, hr⟩

theorem Bounds.readable (h : Bounds e s a r) (he : e.Readable) (hs : Expanded s) :
    a.Readable ∧ Expanded r := by
  cases h with
  | exactly h =>
    obtain ⟨-, -, -, hn⟩ := decimal?_eq_some.1 h
    exact ⟨⟨he, hn, hn⟩, (hs.split (by decide)).2⟩
  | atLeast h =>
    obtain ⟨-, -, -, hn⟩ := decimal?_eq_some.1 h
    exact ⟨⟨he, hn⟩, (hs.split (by decide)).2.of_cons (by decide)⟩
  | between h h' =>
    obtain ⟨-, -, -, hn⟩ := decimal?_eq_some.1 h
    obtain ⟨-, -, -, hm⟩ := decimal?_eq_some.1 h'
    exact ⟨⟨he, hn, hm⟩, ((hs.split (by decide)).2.split (by decide)).2⟩

theorem Signs.readable (h : Signs e s a r) (he : e.Readable) (hs : Expanded s) :
    a.Readable ∧ Expanded r := by
  induction h with
  | done _ => exact ⟨he, hs⟩
  | optional _ ih | star _ ih => exact ih he (hs.of_cons (by decide))
  | plus _ ih => exact ih ⟨he, by decide⟩ (hs.of_cons (by decide))
  | bounds h _ ih =>
    obtain ⟨ha, ht⟩ := h.readable he (hs.of_cons (by decide))
    exact ih ha ht

theorem readable_of_angleBody (h : angleBody f w = .ok e) (hmem : '>' ∉ w)
    (hw : Transparent (w ++ ['>'])) : e.Readable := by
  unfold angleBody at h
  rw [List.span_eq_takeWhile_dropWhile] at h
  split at h
  · next heq =>
    have hdash : '-' ∉ w := by
      have := List.dropWhile_eq_nil_iff.1 (Prod.mk.inj heq).2
      exact fun hmem => by simpa using this '-' hmem
    split at h
    · cases h
      rw [Expr.Readable, String.toList_ofList]
      exact ⟨hmem, hdash, hw⟩
    · cases h
  · split at h
    · cases h
    · split at h
      · cases h
      · split at h
        · cases h
          exact trivial
        · cases h

theorem Atom.readable (h : Atom f s e r) (hs : Expanded s) : e.Readable ∧ Expanded r := by
  cases h with
  | letter _ h => exact ⟨trivial, h.expanded hs⟩
  | classed h => exact h.readable (hs.of_cons (by decide))
  | anyLetter => exact ⟨trivial, hs.of_cons (by decide)⟩
  | quoted _ => exact ⟨trivial, ((hs.of_cons (by decide)).split (by decide)).2⟩
  | hashSign => exact ⟨by split <;> exact trivial, hs.of_cons (by decide)⟩
  | atSign => exact ⟨by split <;> exact trivial, hs.of_cons (by decide)⟩
  | angle _ hmem h =>
    obtain ⟨hbody, hr⟩ := (hs.of_cons (by decide)).split (by decide)
    exact ⟨readable_of_angleBody h hmem hbody, hr⟩
  | lessSign _ => exact ⟨trivial, hs.of_cons (by decide)⟩

/-- What is read from an expanded pattern is readable, and the rest is expanded. -/
theorem Derives.readable (h : Derives f rule s e r) (hs : Expanded s) :
    e.Readable ∧ Expanded r := by
  induction h with
  | union _ _ ih ih' | inter _ _ _ ih ih' =>
    obtain ⟨ha, ht⟩ := ih hs
    obtain ⟨hb, hr⟩ := ih' (ht.of_cons (by decide))
    exact ⟨⟨ha, hb⟩, hr⟩
  | concat _ _ _ ih ih' =>
    obtain ⟨ha, ht⟩ := ih hs
    obtain ⟨hb, hr⟩ := ih' ht
    exact ⟨ha.followedBy hb, hr⟩
  | interAlone _ _ ih | concatAlone _ _ ih | repeatsAlone _ _ ih | simple _ _ ih => exact ih hs
  | repeats _ h' ih =>
    obtain ⟨ha, ht⟩ := ih hs
    exact h'.readable ha ht
  | compl _ _ ih => exact ih (hs.of_cons (by decide))
  | atom h => exact h.readable hs
  | group _ _ ih => exact ih (hs.of_cons (by decide))
  | flags _ _ ih =>
    exact ih (((hs.of_cons (by decide)).of_cons (by decide)).split (by decide)).2
  | nothing => exact ⟨trivial, hs.of_cons (by decide)⟩
  | something _ _ ih =>
    obtain ⟨he, hr⟩ := ih hs
    exact ⟨he, hr.of_cons (by decide)⟩

end Grammar

/-- What a pattern is read as. -/
theorem Expr.readable_of_parse (h : Expr.parse s f = .ok e) : e.Readable := by
  rcases Expr.parse_eq_ok_iff.1 h with ⟨-, rfl⟩ | h
  · exact trivial
  · exact (h.readable (expanded_expandDigits s)).1

end RegLang
