import RegLang.Expr.Basic
import RegLang.Numeral
/-!
# Writing expressions

The text of an expression is again a pattern.  Operands are put in brackets except in
concatenations; letters with a meaning and blanks are escaped.
-/

namespace RegLang

namespace Printer

/-- The signs with a meaning somewhere in a pattern. -/
def metacharacters : Word := "|&~()[]\x7b\x7d?*+.#@<>\"\\^-".toList

/-- The blanks of Unicode (the property White_Space). -/
def isBlank (c : Char) : Bool :=
  let n := c.toNat
  (0x09 ≤ n && n ≤ 0x0D) || n = 0x20 || n = 0x85 || n = 0xA0 || n = 0x1680 ||
    (0x2000 ≤ n && n ≤ 0x200A) || n = 0x2028 || n = 0x2029 || n = 0x202F || n = 0x205F ||
    n = 0x3000

/-- A letter such that it is read as itself. -/
def escaped (c : Char) : Word :=
  if metacharacters.contains c || isBlank c then ['\\', c] else [c]

/-- The text of a literal: in quotes, or letter by letter in brackets if it has a quote or a
backslash. -/
def literal (w : Word) : Word :=
  if w.any fun c => c = '"' || c = '\\' then ['('] ++ w.flatMap escaped ++ [')']
  else ['"'] ++ w ++ ['"']

end Printer

open Printer Numeral in
/-- The text of an expression. -/
def Expr.text : Expr → Word
  | union a b => ['('] ++ a.text ++ ['|'] ++ b.text ++ [')']
  | concat a b => a.text ++ b.text
  | inter a b => ['('] ++ a.text ++ ['&'] ++ b.text ++ [')']
  | optional a => ['('] ++ a.text ++ [')', '?']
  | star a => ['('] ++ a.text ++ [')', '*']
  | atLeast a n => ['('] ++ a.text ++ [')', '{'] ++ decimal n ++ [',', '}']
  | repeated a lo hi =>
    ['('] ++ a.text ++ [')', '{'] ++ decimal lo ++ [','] ++ decimal hi ++ ['}']
  | compl a => ['~', '('] ++ a.text ++ [')']
  | letter c => escaped c
  | range c d => ['['] ++ escaped c ++ ['-'] ++ escaped d ++ [']']
  | anyLetter => ['.']
  | empty => ['#']
  | literal w => Printer.literal w
  | anyWord => ['@']
  | named name => ['<'] ++ name.toList ++ ['>']
  | interval lo hi digits => ['<'] ++ padded 10 digits lo ++ ['-'] ++ padded 10 digits hi ++ ['>']

/-- Only the factors of a concatenation have no brackets around them. -/
theorem Expr.text_concat (a b : Expr) : (concat a b).text = a.text ++ b.text := by
  rw [text]

end RegLang
