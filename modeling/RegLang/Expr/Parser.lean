import RegLang.Expr.Basic
import RegLang.Numeral
import RegLang.Options
/-!
# Reading patterns

A pattern is read by recursive descent.  Every reader takes the letters that are left and returns
what it read with the rest, which is shorter; failures say how many letters were left, from which
the position follows.  The shorthand for digits is expanded before reading, so positions count
letters of the expanded pattern.

    union   = inter   [ '|' union ]
    inter   = concat  [ '&' inter ]                 if enabled
    concat  = repeats [ concat ]                    up to the end, ')', '|' or an enabled '&'
    repeats = negated { '?' | '*' | '+' | bounds }
    negated = '~' negated | simple                  '~' if enabled

A simple pattern is a class in square brackets, a group, a string in quotes, a name or an interval
in angle brackets, one of the signs for any letter, any word or nothing, or a single letter; a
backslash takes the letter after it literally.
-/

namespace RegLang

/-! ## Errors -/

/-- What is wrong with a pattern. -/
inductive SyntaxError.Cause where
  | expected (c : Char)
  | unexpectedEnd
  | trailing
  | noInteger
  | boundTooLarge
  | badInterval
  | illegalName
deriving DecidableEq, Repr

/-- The text of a cause. -/
def SyntaxError.Cause.message : SyntaxError.Cause → String
  | expected c => s!"expected '{c}'"
  | unexpectedEnd => "unexpected end of pattern"
  | trailing => "end of pattern expected"
  | noInteger => "integer expected"
  | boundTooLarge => "repetition bound too large"
  | badInterval => "interval syntax error"
  | illegalName => "illegal identifier"

/-- A pattern that cannot be read, with the position of the first letter that does not fit. -/
structure SyntaxError where
  position : Nat
  cause : SyntaxError.Cause
deriving DecidableEq, Repr

def SyntaxError.message (e : SyntaxError) : String := e.cause.message

def SyntaxError.text (e : SyntaxError) : String := s!"{e.message} at position {e.position}"

namespace Parser

/-- A failure with so many letters left. -/
structure Failure where
  left : Nat
  cause : SyntaxError.Cause
deriving DecidableEq

/-- Something read from the front of `s`, with what is left. -/
structure Reading (s : Word) (α : Type) where
  value : α
  rest : Word
  shorter : rest.length < s.length

/-- Something that may stand for nothing at the front of `s`, with what is left. -/
structure Skipping (s : Word) (α : Type) where
  value : α
  rest : Word
  notLonger : rest.length ≤ s.length

def fail {α : Type} (rest : Word) (cause : SyntaxError.Cause) : Except Failure α :=
  .error ⟨rest.length, cause⟩

/-- Reads one given letter. -/
def expect (c : Char) (s : Word) : Except Failure (Reading s Unit) :=
  match s with
  | d :: r => if d = c then .ok ⟨(), r, Nat.lt_succ_self _⟩ else fail (d :: r) (.expected c)
  | [] => fail [] (.expected c)

/-- Skips one given letter, if it is there. -/
def skip? (c : Char) (s : Word) : Option (Reading s Unit) :=
  match s with
  | d :: r => if d = c then some ⟨(), r, Nat.lt_succ_self _⟩ else none
  | [] => none

/-! ## Shorthand -/

/-- Replaces the shorthand for a digit by the class of digits; other escapes stay as they are. -/
def expandDigits : Word → Word
  | '\\' :: 'd' :: r => "[0-9]".toList ++ expandDigits r
  | '\\' :: c :: r => '\\' :: c :: expandDigits r
  | c :: r => c :: expandDigits r
  | [] => []

theorem expandDigits_shorthand {r : Word} :
    expandDigits ('\\' :: 'd' :: r) = "[0-9]".toList ++ expandDigits r := rfl

theorem expandDigits_pair {c : Char} {r : Word} (h : c ≠ 'd') :
    expandDigits ('\\' :: c :: r) = '\\' :: c :: expandDigits r := by
  rw [expandDigits.eq_def]
  split
  · next heq => exact (h (List.cons.inj (List.cons.inj heq).2).1).elim
  · next heq =>
    cases heq
    rfl
  · next hpair heq => exact (hpair c r (List.cons.inj heq).1.symm (List.cons.inj heq).2.symm).elim
  · next heq => cases heq

theorem expandDigits_cons {c : Char} {r : Word} (h : c ≠ '\\') :
    expandDigits (c :: r) = c :: expandDigits r := by
  rw [expandDigits.eq_def]
  split
  · next heq => exact (h (List.cons.inj heq).1).elim
  · next heq => exact (h (List.cons.inj heq).1).elim
  · next heq =>
    cases heq
    rfl
  · next heq => cases heq

/-! ## Numbers -/

/-- Numbers are read as 64-bit words. -/
def wordLimit : Nat := UInt64.size

/-- The number that a nonempty list of digits denotes, if it is a 64-bit word. -/
def decimal? (ds : Word) : Option Nat :=
  if ds.isEmpty || !ds.all Char.isDigit then none
  else
    let n := Numeral.value ds
    if n < wordLimit then some n else none

/-- The same after an optional plus sign. -/
def signedDecimal? : Word → Option Nat
  | '+' :: ds => decimal? ds
  | ds => decimal? ds

theorem length_dropWhile_le (test : Char → Bool) (s : Word) :
    (s.dropWhile test).length ≤ s.length := (List.dropWhile_suffix test).length_le

/-- Reads the digits at the front, if there are any. -/
def number (s : Word) : Except Failure (Skipping s (Option Nat)) :=
  let digits := s.takeWhile Char.isDigit
  let rest := s.dropWhile Char.isDigit
  if digits.isEmpty then .ok ⟨none, rest, length_dropWhile_le _ s⟩
  else
    match decimal? digits with
    | some n => .ok ⟨some n, rest, length_dropWhile_le _ s⟩
    | none => fail s .boundTooLarge

/-! ## Letters and classes -/

/-- Reads a letter; a backslash before it is dropped. -/
def letter : (s : Word) → Except Failure (Reading s Char)
  | '\\' :: c :: r => .ok ⟨c, r, by simp only [List.length_cons]; omega⟩
  | ['\\'] => fail [] .unexpectedEnd
  | c :: r => .ok ⟨c, r, Nat.lt_succ_self _⟩
  | [] => fail [] .unexpectedEnd

/-- The letters between two bounds given in either order. -/
def rangeOf (c d : Char) : Expr :=
  if c = d then .letter c else .range (Alphabet.lower c d) (Alphabet.upper c d)

/-- Reads a letter or a range of letters; a dash before the closing bracket stands for itself. -/
def classItem (s : Word) : Except Failure (Reading s Expr) := do
  let ⟨c, r, hr⟩ ← letter s
  match r, hr with
  | '-' :: ']' :: t, h =>
    return ⟨.union (.letter c) (.letter '-'), ']' :: t, Nat.lt_of_succ_lt h⟩
  | '-' :: t, h =>
    let ⟨d, u, hu⟩ ← letter t
    return ⟨rangeOf c d, u, Nat.lt_trans hu (Nat.lt_of_succ_lt h)⟩
  | r, h => return ⟨.letter c, r, h⟩

/-- Reads further items of a class up to its closing bracket. -/
def classItems (e : Expr) (s : Word) : Except Failure (Reading s Expr) :=
  match s with
  | [] => fail [] (.expected ']')
  | ']' :: r => .ok ⟨e, r, Nat.lt_succ_self _⟩
  | c :: r => do
    let ⟨f, t, ht⟩ ← classItem (c :: r)
    let ⟨g, u, hu⟩ ← classItems (.union e f) t
    return ⟨g, u, Nat.lt_trans hu ht⟩
termination_by s.length
decreasing_by exact ht

/-- The letters of the alphabet that are not in a class. -/
def negation (e : Expr) : Expr := .inter .anyLetter (.compl e)

/-- Reads the items of a class up to its closing bracket. -/
def classList (s : Word) : Except Failure (Reading s Expr) := do
  let ⟨e, t, ht⟩ ← classItem s
  let ⟨f, u, hu⟩ ← classItems e t
  return ⟨f, u, Nat.lt_trans hu ht⟩

/-- Reads a class after its opening bracket. -/
def classBody (s : Word) : Except Failure (Reading s Expr) :=
  match s with
  | '^' :: r => do
    let ⟨e, t, ht⟩ ← classList r
    return ⟨negation e, t, Nat.lt_succ_of_lt ht⟩
  | s => classList s

/-! ## Repetition -/

/-- Reads the bounds of a repetition after the opening brace, and applies them. -/
def bounds (e : Expr) (s : Word) : Except Failure (Reading s Expr) := do
  let ⟨n?, r, hr⟩ ← number s
  match n? with
  | none => fail r .noInteger
  | some n =>
    match r, hr with
    | ',' :: t, h =>
      let ⟨m?, u, hu⟩ ← number t
      let ⟨_, v, hv⟩ ← expect '}' u
      let f := match m? with
        | some m => Expr.repeated e n m
        | none => .atLeast e n
      return ⟨f, v, Nat.lt_trans (Nat.lt_of_lt_of_le hv hu) h⟩
    | r, h =>
      let ⟨_, v, hv⟩ ← expect '}' r
      return ⟨.repeated e n n, v, Nat.lt_of_lt_of_le hv h⟩

/-- Reads any number of repetition signs and applies them from left to right. -/
def repetitions (e : Expr) (s : Word) : Except Failure (Skipping s Expr) :=
  match s with
  | '?' :: r => do
    let ⟨f, t, ht⟩ ← repetitions (.optional e) r
    return ⟨f, t, Nat.le_succ_of_le ht⟩
  | '*' :: r => do
    let ⟨f, t, ht⟩ ← repetitions (.star e) r
    return ⟨f, t, Nat.le_succ_of_le ht⟩
  | '+' :: r => do
    let ⟨f, t, ht⟩ ← repetitions (.atLeast e 1) r
    return ⟨f, t, Nat.le_succ_of_le ht⟩
  | '{' :: r => do
    let ⟨f, t, ht⟩ ← bounds e r
    let ⟨g, u, hu⟩ ← repetitions f t
    return ⟨g, u, Nat.le_succ_of_le (Nat.le_trans hu (Nat.le_of_lt ht))⟩
  | s => .ok ⟨e, s, Nat.le_refl _⟩
termination_by s.length
decreasing_by all_goals simp only [List.length_cons]; omega

/-! ## Quotes and angle brackets -/

/-- Reads up to a closing sign, which is dropped. -/
def upTo (close : Char) : (s : Word) → Except Failure (Reading s Word)
  | [] => fail [] (.expected close)
  | c :: r =>
    if c = close then .ok ⟨[], r, Nat.lt_succ_self _⟩
    else do
      let ⟨w, t, ht⟩ ← upTo close r
      return ⟨c :: w, t, Nat.lt_succ_of_lt ht⟩

/-- The expression for what stands in angle brackets: a name, or two numbers with a dash between
them. -/
def angleBody (features : Features) (body : Word) : Except SyntaxError.Cause Expr :=
  match body.span (· != '-') with
  | (_, []) =>
    if features.includes .automaton then .ok (.named (String.ofList body)) else .error .badInterval
  | (lo, _ :: hi) =>
    if !features.includes .interval then .error .illegalName
    else if lo.isEmpty || hi.isEmpty || hi.contains '-' then .error .badInterval
    else
      match signedDecimal? lo, signedDecimal? hi with
      | some m, some n =>
        .ok (.interval (min m n) (max m n) (if lo.length = hi.length then lo.length else 0))
      | _, _ => .error .badInterval

/-- Reads a name or an interval after the opening angle bracket; what is wrong with it is reported
at the closing one. -/
def angle (features : Features) (s : Word) : Except Failure (Reading s Expr) := do
  let ⟨body, r, hr⟩ ← upTo '>' s
  match angleBody features body with
  | .ok e => return ⟨e, r, hr⟩
  | .error cause => .error ⟨r.length + 1, cause⟩

/-- Reads the signs of a group that are without meaning here, up to the colon. -/
def groupFlags (s : Word) : Except Failure (Reading s Unit) := do
  let ⟨_, t, ht⟩ ← expect ':' (s.dropWhile fun c => "imnsx".toList.contains c)
  return ⟨(), t, Nat.lt_of_lt_of_le ht (length_dropWhile_le _ s)⟩

/-! ## Expressions -/

/-- A concatenation ends here. -/
def atEnd (features : Features) : Word → Bool
  | [] => true
  | c :: _ => c = ')' || c = '|' || (features.includes .intersection && c = '&')

mutual

def union (features : Features) (s : Word) : Except Failure (Reading s Expr) := do
  let ⟨e, r, hr⟩ ← inter features s
  match skip? '|' r with
  | some ⟨_, t, ht⟩ =>
    let ⟨f, u, hu⟩ ← union features t
    return ⟨.union e f, u, Nat.lt_trans hu (Nat.lt_trans ht hr)⟩
  | none => return ⟨e, r, hr⟩
termination_by (s.length, 5)
decreasing_by
  · exact Prod.Lex.right _ (by omega)
  · exact Prod.Lex.left _ _ (Nat.lt_trans ht hr)

def inter (features : Features) (s : Word) : Except Failure (Reading s Expr) := do
  let ⟨e, r, hr⟩ ← concat features s
  match if features.includes .intersection then skip? '&' r else none with
  | some ⟨_, t, ht⟩ =>
    let ⟨f, u, hu⟩ ← inter features t
    return ⟨.inter e f, u, Nat.lt_trans hu (Nat.lt_trans ht hr)⟩
  | none => return ⟨e, r, hr⟩
termination_by (s.length, 4)
decreasing_by
  · exact Prod.Lex.right _ (by omega)
  · exact Prod.Lex.left _ _ (Nat.lt_trans ht hr)

def concat (features : Features) (s : Word) : Except Failure (Reading s Expr) := do
  let ⟨e, r, hr⟩ ← repeats features s
  if atEnd features r then return ⟨e, r, hr⟩
  else
    let ⟨f, t, ht⟩ ← concat features r
    return ⟨e.followedBy f, t, Nat.lt_trans ht hr⟩
termination_by (s.length, 3)
decreasing_by
  · exact Prod.Lex.right _ (by omega)
  · exact Prod.Lex.left _ _ hr

def repeats (features : Features) (s : Word) : Except Failure (Reading s Expr) := do
  let ⟨e, r, hr⟩ ← negated features s
  let ⟨f, t, ht⟩ ← repetitions e r
  return ⟨f, t, Nat.lt_of_le_of_lt ht hr⟩
termination_by (s.length, 2)
decreasing_by exact Prod.Lex.right _ (by omega)

def negated (features : Features) (s : Word) : Except Failure (Reading s Expr) :=
  match s with
  | '~' :: r =>
    if features.includes .complement then do
      let ⟨e, t, ht⟩ ← negated features r
      return ⟨.compl e, t, Nat.lt_succ_of_lt ht⟩
    else simple features ('~' :: r)
  | s => simple features s
termination_by (s.length, 1)
decreasing_by
  · exact Prod.Lex.left _ _ (Nat.lt_succ_self _)
  · exact Prod.Lex.right _ (by omega)
  · exact Prod.Lex.right _ (by omega)

def simple (features : Features) (s : Word) : Except Failure (Reading s Expr) :=
  match s with
  | '[' :: r => do
    let ⟨e, t, ht⟩ ← classBody r
    return ⟨e, t, Nat.lt_succ_of_lt ht⟩
  | '.' :: r => .ok ⟨.anyLetter, r, Nat.lt_succ_self _⟩
  | '"' :: r => do
    let ⟨w, t, ht⟩ ← upTo '"' r
    return ⟨.literal w, t, Nat.lt_succ_of_lt ht⟩
  | '(' :: '?' :: r => do
    let ⟨_, t, ht⟩ ← groupFlags r
    let ⟨e, u, hu⟩ ← group features t
    return ⟨e, u, by simp only [List.length_cons]; omega⟩
  | '(' :: r => do
    let ⟨e, t, ht⟩ ← group features r
    return ⟨e, t, Nat.lt_succ_of_lt ht⟩
  | '#' :: r =>
    .ok ⟨if features.includes .empty then .empty else .letter '#', r, Nat.lt_succ_self _⟩
  | '@' :: r =>
    .ok ⟨if features.includes .anyString then .anyWord else .letter '@', r, Nat.lt_succ_self _⟩
  | '<' :: r =>
    if features.includes .automaton || features.includes .interval then do
      let ⟨e, t, ht⟩ ← angle features r
      return ⟨e, t, Nat.lt_succ_of_lt ht⟩
    else .ok ⟨.letter '<', r, Nat.lt_succ_self _⟩
  | s => do
    let ⟨c, r, hr⟩ ← letter s
    return ⟨.letter c, r, hr⟩
termination_by (s.length, 0)
decreasing_by
  · exact Prod.Lex.left _ _ (by simp only [List.length_cons]; omega)
  · exact Prod.Lex.left _ _ (Nat.lt_succ_self _)

/-- Reads a group after its opening bracket and flags; an empty group is the empty word. -/
def group (features : Features) (s : Word) : Except Failure (Reading s Expr) :=
  match s with
  | ')' :: r => .ok ⟨.literal [], r, Nat.lt_succ_self _⟩
  | s => do
    let ⟨e, r, hr⟩ ← union features s
    let ⟨_, t, ht⟩ ← expect ')' r
    return ⟨e, t, Nat.lt_trans ht hr⟩
termination_by (s.length, 6)
decreasing_by exact Prod.Lex.right _ (by omega)

end

/-- Reads all letters. -/
def whole (features : Features) (s : Word) : Except Failure Expr :=
  if s.isEmpty then .ok (.literal [])
  else do
    let ⟨e, r, _⟩ ← union features s
    if r.isEmpty then return e else fail r .trailing

end Parser

/-- The expression that a pattern denotes when the given constructs are enabled. -/
def Expr.parse (pattern : Word) (features : Features) : Except SyntaxError Expr :=
  let s := Parser.expandDigits pattern
  (Parser.whole features s).mapError fun f => ⟨s.length - f.left, f.cause⟩

end RegLang
