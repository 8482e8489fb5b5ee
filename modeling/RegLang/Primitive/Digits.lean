import RegLang.Expr.Compile
/-!
# Decimal numbers with few digits

The formats of decimal numbers with a bounded number of digits, given by patterns.  Blanks may
stand around a number and a sign before it.
-/

namespace RegLang.Digits

/-- Blanks: space, tab, line feed, carriage return. -/
def blanks : String := "[ \t\n\r]*"

def sign : String := "[-+]?"

/-- Numbers with at most `i` significant digits. -/
def totalPattern (i : Nat) : String :=
  blanks ++ sign ++ "0*([0-9]\x7b0," ++ toString i ++ "\x7d|((([0-9]\\.*)\x7b0," ++ toString i ++
    "\x7d)&@\\.@)0*)" ++ blanks

/-- Numbers with at most `i` digits after the point. -/
def fractionPattern (i : Nat) : String :=
  blanks ++ sign ++ "[0-9]+(\\.[0-9]\x7b0," ++ toString i ++ "\x7d0*)?" ++ blanks

end Digits

namespace Automaton

/-- Decimal numbers with at most `i` significant digits. -/
def totalDigits (i : Nat) : Except CompileError Automaton :=
  compile (Digits.totalPattern i).toList {}

/-- Decimal numbers with at most `i` digits after the point. -/
def fractionDigits (i : Nat) : Except CompileError Automaton :=
  compile (Digits.fractionPattern i).toList {}

end Automaton

end RegLang
