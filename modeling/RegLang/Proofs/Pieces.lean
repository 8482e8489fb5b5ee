import RegLang.Proofs.Grouping
import RegLang.Proofs.Printing
/-!
# Patterns in pieces

An operand is a text that is read as an expression whatever follows it: a letter, a class or a
group.  With signs of repetition behind it, it is a piece, which stands in front of anything that
does not repeat it.  No piece starts with a sign that goes on with what stands before it, so pieces
can be put side by side, and are read as their concatenation.

    Forall₂ Piece ps es → parse ps.flatten = .ok (joined es)                     (parse_pieces)

* `Operand.piece`: signs of repetition behind an operand.
* `Run.joined`, `parse_pieces`: pieces side by side.
* `operand_pieces`, `operand_union`, `operand_inter`: pieces in brackets, perhaps with a sign between
  two rows of them.
* `Expr.denote_joined`, `Expr.mem_denote_oneOf`: what concatenations and classes denote.
-/

namespace RegLang

open RegLang.Parser RegLang.Grammar Printer

/-! ## Definitions -/

/-- Expressions one after another. -/
def Expr.joined : List Expr → Expr
  | [] => .literal []
  | [e] => e
  | e :: es => e.followedBy (joined es)

/-- One of some letters, as a class lists them. -/
def Expr.oneOf (c : Char) (cs : Word) : Expr :=
  cs.foldl (fun e d => .union e (.letter d)) (.letter c)

/-- The text is read as the expression whatever follows, and can follow another expression. -/
structure Operand (p : Word) (e : Expr) : Prop where
  opens : ∀ r, Opens (p ++ r)
  transparent : Transparent p
  negated : ∀ r, Derives .all .negated (p ++ r) e r

/-- The same in front of anything that does not repeat the expression. -/
structure Piece (p : Word) (e : Expr) : Prop where
  opens : ∀ r, Opens (p ++ r)
  transparent : Transparent p
  repeats : ∀ r, Avoids repetitionSigns r → Derives .all .repeats (p ++ r) e r

variable {p q r s t ds : Word} {c d : Char} {cs : Word} {n : Nat} {a b e : Expr} {ps : List Word}
  {es : List Expr} {f : Features} {env : String → Language Char} {w : Word}

/-! ## Operands -/

/-- Every letter is an operand, behind a backslash if it has a meaning of its own. -/
theorem operand_letter (c : Char) : Operand (escaped c) (.letter c) where
  opens := opens_escaped c
  transparent := transparent_escaped c
  negated r := .simple (fun _ => avoids_escaped (by decide))
    (.atom (.letter (avoids_escaped (by decide)) (letter_escaped c r)))

theorem operand_class (hp : '\\' ∉ p) (h : ∀ r, Class (p ++ r) e r) : Operand ('[' :: p) e where
  opens _ := opens_cons.2 (by decide)
  transparent := (transparent_single (by decide)).append (transparent_of_not_mem hp)
  negated r := .simple (fun _ => avoids_cons.2 (by decide)) (.atom (.classed (h r)))

/-- A listed letter is not the start of a range. -/
theorem avoids_dash (hcs : ∀ d ∈ cs, d ∉ ['\\', '-', ']']) (r : Word) :
    Avoids ['-'] (cs ++ ']' :: r) := by
  cases cs with
  | nil => exact avoids_cons.2 (by decide)
  | cons d cs =>
    have hd := hcs d List.mem_cons_self
    exact avoids_cons.2 fun h => hd (by simp_all)

theorem items_listed (hcs : ∀ d ∈ cs, d ∉ ['\\', '-', ']']) (e : Expr) (r : Word) :
    Items e (cs ++ ']' :: r) (cs.foldl (fun e d => .union e (.letter d)) e) r := by
  induction cs generalizing e with
  | nil => exact .close
  | cons d cs ih =>
    obtain ⟨hd, hcs⟩ := List.forall_mem_cons.1 hcs
    simp only [List.mem_cons, List.not_mem_nil, or_false, not_or] at hd
    exact .more (avoids_cons.2 (by simpa using hd.2.2)) (.single (.plain hd.1) (avoids_dash hcs r))
      (ih hcs _)

/-- A class that lists letters without a meaning in a class; a dash may come first. -/
theorem operand_oneOf (c : Char) (cs : Word) (hc : c ∉ ['^', '\\'])
    (hcs : ∀ d ∈ cs, d ∉ ['\\', '-', ']']) :
    Operand ('[' :: c :: (cs ++ [']'])) (.oneOf c cs) := by
  simp only [List.mem_cons, List.not_mem_nil, or_false, not_or] at hc
  refine operand_class ?_ fun r => ?_
  · have hnone : '\\' ∉ cs := fun h => hcs _ h (by decide)
    simp [hnone, Ne.symm hc.2]
  · have htext : c :: (cs ++ [']']) ++ r = c :: (cs ++ ']' :: r) := by simp
    rw [htext]
    exact .listed (avoids_cons.2 (by simpa using hc.1)) (.single (.plain hc.2) (avoids_dash hcs r))
      (items_listed hcs _ r)

theorem operand_digit : Operand ['[', '0', '-', '9', ']'] (.range '0' '9') :=
  operand_class (by decide) fun _ => .listed (avoids_cons.2 (by decide))
    (.range (.plain (by decide)) (avoids_cons.2 (by decide)) (.plain (by decide))) .close

theorem operand_anyWord : Operand ['@'] .anyWord where
  opens _ := opens_cons.2 (by decide)
  transparent := transparent_single (by decide)
  negated _ := .simple (fun _ => avoids_cons.2 (by decide)) (.atom .atSign)

theorem Groupable.operand (h : Groupable .all p e) (hp : Transparent p) :
    Operand (bracketed p) e where
  opens _ := opens_cons.2 (by decide)
  transparent := (transparent_single (by decide)).append (hp.append (transparent_single (by decide)))
  negated r := by
    have hnegated := h.negated r
    rw [hp.expanded] at hnegated
    simpa [bracketed] using hnegated

/-! ## Pieces -/

/-- Signs of repetition go on to their end in front of anything that does not repeat. -/
theorem Grammar.Signs.append (h : Signs a s e t) (ht : t = []) (hr : Avoids repetitionSigns r) :
    Signs a (s ++ r) e r := by
  induction h with
  | done _ =>
    subst ht
    exact .done hr
  | optional _ ih => exact .optional (ih ht)
  | star _ ih => exact .star (ih ht)
  | plus _ ih => exact .plus (ih ht)
  | bounds h _ ih => exact .bounds (h.append r) (ih ht)

theorem Operand.piece (h : Operand p a) (hsigns : Signs a s e []) (hs : '\\' ∉ s) :
    Piece (p ++ s) e where
  opens r := by
    rw [List.append_assoc]
    exact h.opens _
  transparent := h.transparent.append (transparent_of_not_mem hs)
  repeats r hr := by
    rw [List.append_assoc]
    exact .repeats (h.negated _) (hsigns.append rfl hr)

theorem Operand.alone (h : Operand p e) : Piece p e := by
  simpa using h.piece (.done avoids_nil) List.not_mem_nil

theorem run_pieces (h : List.Forall₂ Piece ps es) (hr : Avoids repetitionSigns r) :
    Run (ps.flatten ++ r) es r := by
  induction h with
  | nil => exact .nil
  | @cons p e ps es hp hps ih =>
    have hnext : Avoids repetitionSigns (ps.flatten ++ r) := by
      cases hps with
      | nil => exact hr
      | cons hp _ =>
        rw [List.flatten_cons, List.append_assoc]
        exact (hp.opens _).avoids (by decide)
    rw [List.flatten_cons, List.append_assoc]
    exact .cons (hp.opens _) (hp.repeats _ hnext) ih

/-- A run up to the end of a concatenation is read as its expressions one after another. -/
theorem Run.joined (h : Run s es r) (hne : es ≠ []) (last : atEnd .all r = true) :
    Derives .all .concat s (.joined es) r := by
  -- along the run, since a concatenation groups to the right
  induction h with
  | nil => exact (hne rfl).elim
  | @cons _ _ _ es _ _ h hrest ih =>
    cases es with
    | nil =>
      cases hrest
      exact .repeatsAlone h last
    | cons e es =>
      cases hrest with
      | cons opens h' hrest =>
        exact .concat h opens.atEnd (ih (List.cons_ne_nil _ _) last)

theorem transparent_pieces (h : List.Forall₂ Piece ps es) : Transparent ps.flatten := by
  induction h with
  | nil => exact transparent_nil
  | cons hp _ ih => exact hp.transparent.append ih

theorem transparent_between {qs : List Word} {es' : List Expr} (hp : List.Forall₂ Piece ps es)
    (hq : List.Forall₂ Piece qs es') (hc : c ≠ '\\') :
    Transparent (ps.flatten ++ c :: qs.flatten) :=
  (transparent_pieces hp).append ((transparent_single hc).append (transparent_pieces hq))

theorem opens_pieces (h : List.Forall₂ Piece ps es) (hne : es ≠ []) (r : Word) :
    Opens (ps.flatten ++ r) := by
  cases h with
  | nil => exact (hne rfl).elim
  | cons hp _ =>
    rw [List.flatten_cons, List.append_assoc]
    exact hp.opens _

/-- Where a concatenation ends, nothing is repeated. -/
theorem avoids_of_atEnd (last : atEnd f r = true) : Avoids repetitionSigns r := by
  cases r with
  | nil => exact avoids_nil
  | cons c r =>
    simp only [atEnd, Bool.or_eq_true, Bool.and_eq_true, decide_eq_true_eq] at last
    obtain (rfl | rfl) | ⟨-, rfl⟩ := last <;> exact avoids_cons.2 (by decide)

/-- Pieces side by side are read as their expressions one after another, up to where a
concatenation ends. -/
theorem derives_pieces (h : List.Forall₂ Piece ps es) (hne : es ≠ [])
    (last : atEnd .all r = true) : Derives .all .concat (ps.flatten ++ r) (.joined es) r :=
  (run_pieces h (avoids_of_atEnd last)).joined hne last

/-- Up to the end of the pattern. -/
theorem derives_lastPieces (h : List.Forall₂ Piece ps es) (hne : es ≠ []) :
    Derives .all .inter ps.flatten (.joined es) [] := by
  have hall := derives_pieces h (r := []) hne rfl
  rw [List.append_nil] at hall
  exact .concatAlone hall fun _ => avoids_nil

theorem parse_pieces (h : List.Forall₂ Piece ps es) (hne : es ≠ []) :
    Expr.parse ps.flatten .all = .ok (.joined es) := by
  refine Expr.parse_eq_ok_iff.2 (.inr ?_)
  rw [(transparent_pieces h).expanded]
  exact .interAlone (derives_lastPieces h hne) avoids_nil

/-- A whole pattern in brackets is an operand. -/
theorem operand_bracketed (h : Derives .all .union p e []) (hp : Transparent p) (opens : Opens p) :
    Operand (bracketed p) e := by
  refine Groupable.operand ⟨Expr.parse_eq_ok_iff.2 (.inr ?_), ?_⟩ hp
  · rwa [hp.expanded]
  · rw [hp.expanded]
    exact opens.avoids (by decide)

/-- Pieces in brackets are an operand. -/
theorem operand_pieces (h : List.Forall₂ Piece ps es) (hne : es ≠ []) :
    Operand (bracketed ps.flatten) (.joined es) := by
  have opens := opens_pieces h hne []
  rw [List.append_nil] at opens
  exact operand_bracketed (.interAlone (derives_lastPieces h hne) avoids_nil)
    (transparent_pieces h) opens

section

variable {qs : List Word} {es' : List Expr} (hp : List.Forall₂ Piece ps es) (hne : es ≠ [])
  (hq : List.Forall₂ Piece qs es') (hne' : es' ≠ [])

include hp hne hq hne'

/-- In brackets, pieces with a bar between them. -/
theorem operand_union : Operand (bracketed (ps.flatten ++ '|' :: qs.flatten))
    (.union (.joined es) (.joined es')) := by
  have hfirst := derives_pieces hp (r := '|' :: qs.flatten) hne rfl
  exact operand_bracketed (.union (.concatAlone hfirst fun _ => avoids_cons.2 (by decide))
    (.interAlone (derives_lastPieces hq hne') avoids_nil))
    (transparent_between hp hq (by decide)) (opens_pieces hp hne _)

/-- In brackets, pieces with the sign of intersection between them. -/
theorem operand_inter : Operand (bracketed (ps.flatten ++ '&' :: qs.flatten))
    (.inter (.joined es) (.joined es')) := by
  have hfirst := derives_pieces hp (r := '&' :: qs.flatten) hne rfl
  exact operand_bracketed (.interAlone (.inter rfl hfirst (derives_lastPieces hq hne')) avoids_nil)
    (transparent_between hp hq (by decide)) (opens_pieces hp hne _)

end

/-! ## What pieces denote -/

namespace Expr

theorem denote_joined : (joined es).denote env = (es.map (·.denote env)).prod := by
  induction es with
  | nil => rfl
  | cons e es ih =>
    cases es with
    | nil => exact List.prod_singleton.symm
    | cons e' es =>
      show (e.followedBy (joined (e' :: es))).denote env = _
      rw [denote_followedBy, ih]
      exact List.prod_cons.symm

theorem mem_denote_pair : w ∈ (joined [a, b]).denote env ↔
    ∃ u ∈ a.denote env, ∃ v ∈ b.denote env, u ++ v = w := by
  rw [denote_joined, List.map_cons, List.map_singleton, List.prod_cons, List.prod_singleton,
    Language.mem_mul]

theorem mem_denote_oneOf : w ∈ (oneOf c cs).denote env ↔ ∃ d ∈ c :: cs, w = [d] := by
  have aux : ∀ e : Expr, w ∈ (cs.foldl (fun e d => Expr.union e (.letter d)) e).denote env ↔
      w ∈ e.denote env ∨ ∃ d ∈ cs, w = [d] := by
    induction cs with
    | nil => simp
    | cons d cs ih =>
      intro e
      rw [List.foldl_cons, ih, mem_denote_union, mem_denote_letter, or_assoc,
        List.exists_mem_cons_iff]
  rw [oneOf, aux, mem_denote_letter, List.exists_mem_cons_iff]

end Expr

end RegLang
