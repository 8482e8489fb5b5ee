import RegLang.Numeral
import RegLang.Transition
/-!
# Letters and transitions in print

Visible ASCII letters stand for themselves, less the backslash and the quote; all others are
written by their code points in hexadecimal, with at least four digits.
-/

namespace RegLang.Text

/-- A letter in visible ASCII. -/
def letter (c : Char) : Word :=
  if 0x21 ≤ c.toNat && c.toNat ≤ 0x7E && c != '\\' && c != '"' then [c]
  else ['\\', 'u', '\x7b'] ++ Numeral.padded 16 4 c.toNat ++ ['\x7d']

/-- An interval: its only letter, or its bounds with a dash. -/
def interval (t : Transition) : Word :=
  if t.lo = t.hi then letter t.lo else letter t.lo ++ ['-'] ++ letter t.hi

/-- The number of a state. -/
def stateId (q : Nat) : Word := Numeral.decimal q

/-- A transition: its interval, an arrow and its target. -/
def transition (t : Transition) : Word := interval t ++ " -> ".toList ++ stateId t.target

end RegLang.Text
