import RegLang.Expr.Parser
/-!
# The grammar of patterns

Which expressions can stand at the front of a word, and what is left of the word after them.  The
rules are those of a reader that never turns back: a construct ends at the first letter that cannot
belong to it, which the rules say as a condition on what is left.

`Derives f rule s e r`: by `rule`, with the constructs of `f`, an expression `e` stands at the
front of `s`, and `r` is left.
-/

namespace RegLang

/-- The word does not start with one of these signs. -/
def Avoids (signs s : Word) : Prop := ∀ c ∈ s.head?, c ∉ signs

namespace Grammar

open RegLang.Parser

/-! ## Classes -/

/-- A letter, perhaps after a backslash. -/
inductive Letter : Word → Char → Word → Prop where
  | plain (h : c ≠ '\\') : Letter (c :: r) c r
  | escaped : Letter ('\\' :: c :: r) c r

/-- A letter of a class or a range of letters. -/
inductive Item : Word → Expr → Word → Prop where
  | single (h : Letter s c r) (last : Avoids ['-'] r) : Item s (.letter c) r
  | range (h : Letter s c ('-' :: t)) (more : Avoids [']'] t) (h' : Letter t d r) :
      Item s (rangeOf c d) r
  | dash (h : Letter s c ('-' :: ']' :: r)) :
      Item s (.union (.letter c) (.letter '-')) (']' :: r)

/-- Further items, up to the closing bracket. -/
inductive Items : Expr → Word → Expr → Word → Prop where
  | close : Items e (']' :: r) e r
  | more (more : Avoids [']'] s) (h : Item s a t) (h' : Items (.union e a) t e' r) : Items e s e' r

/-- A class after its opening bracket. -/
inductive Class : Word → Expr → Word → Prop where
  | listed (first : Avoids ['^'] s) (h : Item s a t) (h' : Items a t e r) : Class s e r
  | others (h : Item s a t) (h' : Items a t e r) : Class ('^' :: s) (negation e) r

/-! ## Repetition -/

/-- The bounds of a repetition after the opening brace. -/
inductive Bounds : Expr → Word → Expr → Word → Prop where
  | exactly (h : decimal? ds = some n) : Bounds e (ds ++ '}' :: r) (.repeated e n n) r
  | atLeast (h : decimal? ds = some n) : Bounds e (ds ++ ',' :: '}' :: r) (.atLeast e n) r
  | between (h : decimal? ds = some n) (h' : decimal? ds' = some m) :
      Bounds e (ds ++ ',' :: (ds' ++ '}' :: r)) (.repeated e n m) r

/-- The signs of repetition. -/
def repetitionSigns : Word := ['?', '*', '+', '\x7b']

/-- Signs of repetition after an expression, from left to right. -/
inductive Signs : Expr → Word → Expr → Word → Prop where
  | done (last : Avoids repetitionSigns r) : Signs e r e r
  | optional (h : Signs (.optional e) s e' r) : Signs e ('?' :: s) e' r
  | star (h : Signs (.star e) s e' r) : Signs e ('*' :: s) e' r
  | plus (h : Signs (.atLeast e 1) s e' r) : Signs e ('+' :: s) e' r
  | bounds (h : Bounds e s a t) (h' : Signs a t e' r) : Signs e ('\x7b' :: s) e' r

/-! ## Expressions -/

/-- The signs that open a construct other than a letter. -/
def openingSigns : Word := ['[', '.', '"', '(', '#', '@', '<']

/-- Expressions that have no expressions in brackets in them. -/
inductive Atom (f : Features) : Word → Expr → Word → Prop where
  | letter (first : Avoids openingSigns s) (h : Letter s c r) : Atom f s (.letter c) r
  | classed (h : Class s e r) : Atom f ('[' :: s) e r
  | anyLetter : Atom f ('.' :: r) .anyLetter r
  | quoted (h : '"' ∉ w) : Atom f ('"' :: (w ++ '"' :: r)) (.literal w) r
  | hashSign : Atom f ('#' :: r) (if f.includes .empty then .empty else .letter '#') r
  | atSign : Atom f ('@' :: r) (if f.includes .anyString then .anyWord else .letter '@') r
  | angle (enabled : (f.includes .automaton || f.includes .interval) = true) (h : '>' ∉ body)
      (h' : angleBody f body = .ok e) : Atom f ('<' :: (body ++ '>' :: r)) e r
  | lessSign (disabled : (f.includes .automaton || f.includes .interval) = false) :
      Atom f ('<' :: r) (.letter '<') r

/-- The levels of an expression, from the weakest binding to the strongest; a group is read after
its opening bracket. -/
inductive Rule where
  | union | inter | concat | repeats | negated | simple | group

inductive Derives (f : Features) : Rule → Word → Expr → Word → Prop where
  | union (h : Derives f .inter s a ('|' :: t)) (h' : Derives f .union t b r) :
      Derives f .union s (.union a b) r
  | interAlone (h : Derives f .inter s e r) (last : Avoids ['|'] r) : Derives f .union s e r
  | inter (enabled : f.includes .intersection = true) (h : Derives f .concat s a ('&' :: t))
      (h' : Derives f .inter t b r) : Derives f .inter s (.inter a b) r
  | concatAlone (h : Derives f .concat s e r)
      (last : f.includes .intersection = true → Avoids ['&'] r) : Derives f .inter s e r
  | concat (h : Derives f .repeats s a t) (more : atEnd f t = false)
      (h' : Derives f .concat t b r) : Derives f .concat s (a.followedBy b) r
  | repeatsAlone (h : Derives f .repeats s e r) (last : atEnd f r = true) :
      Derives f .concat s e r
  | repeats (h : Derives f .negated s a t) (h' : Signs a t e r) : Derives f .repeats s e r
  | compl (enabled : f.includes .complement = true) (h : Derives f .negated s e r) :
      Derives f .negated ('~' :: s) (.compl e) r
  | simple (first : f.includes .complement = true → Avoids ['~'] s)
      (h : Derives f .simple s e r) : Derives f .negated s e r
  | atom (h : Atom f s e r) : Derives f .simple s e r
  | group (first : Avoids ['?'] s) (h : Derives f .group s e r) : Derives f .simple ('(' :: s) e r
  | flags (h : ∀ c ∈ flags, c ∈ "imnsx".toList) (h' : Derives f .group s e r) :
      Derives f .simple ('(' :: '?' :: (flags ++ ':' :: s)) e r
  | nothing : Derives f .group (')' :: r) (.literal []) r
  | something (first : Avoids [')'] s) (h : Derives f .union s e (')' :: r)) :
      Derives f .group s e r

end Grammar

/-! ## Lemmas -/

@[simp] theorem avoids_nil {signs : Word} : Avoids signs [] := by simp [Avoids]

@[simp] theorem avoids_cons {signs s : Word} {c : Char} : Avoids signs (c :: s) ↔ c ∉ signs := by
  simp [Avoids]

theorem avoids_iff_forall {signs s : Word} :
    Avoids signs s ↔ ∀ c ∈ signs, ∀ r, s = c :: r → False := by
  cases s with
  | nil => simp
  | cons d r =>
    rw [avoids_cons]
    constructor
    · intro hd c hc t h
      cases h
      exact hd hc
    · exact fun h hd => h d hd r rfl

theorem avoids_iff {c : Char} {s : Word} : Avoids [c] s ↔ ∀ r, s = c :: r → False := by
  rw [avoids_iff_forall, List.forall_mem_singleton]

/-- A word starts with a sign or not. -/
theorem eq_cons_or_avoids (c : Char) (s : Word) : (∃ r, s = c :: r) ∨ Avoids [c] s := by
  rw [avoids_iff]
  by_cases h : ∃ r, s = c :: r
  · exact .inl h
  · exact .inr fun r hr => h ⟨r, hr⟩

end RegLang
