import RegLang.Minimize.Algorithm
/-!
# Options

What a pattern may contain, how intermediate automata are treated, and who keeps an automaton that
is handed over.
-/

namespace RegLang

/-! ## Features of the pattern language -/

/-- A set of optional constructs, one bit each.  The sign of a construct that is not in the set is
an ordinary letter. -/
structure Features where
  bits : UInt32
deriving DecidableEq, Repr

namespace Features

/-- `&` between patterns. -/
def intersection : Features := ⟨0x0001⟩

/-- `~` before a pattern. -/
def complement : Features := ⟨0x0002⟩

/-- `#` for the empty language. -/
def empty : Features := ⟨0x0004⟩

/-- `@` for any word. -/
def anyString : Features := ⟨0x0008⟩

/-- A name in angle brackets for an automaton. -/
def automaton : Features := ⟨0x0010⟩

/-- Two numbers in angle brackets for an interval. -/
def interval : Features := ⟨0x0020⟩

def all : Features := ⟨0xFFFF⟩

def none : Features := ⟨0x0000⟩

/-- All but `@`, which then stands for itself as it does in addresses. -/
def allExceptAnyString : Features := ⟨0xFFF7⟩

/-- The constructs of either set. -/
def union (f g : Features) : Features := ⟨f.bits ||| g.bits⟩

/-- The constructs of both sets. -/
def inter (f g : Features) : Features := ⟨f.bits &&& g.bits⟩

/-- All constructs of `g` are in `f`. -/
def includes (f g : Features) : Bool := f.bits &&& g.bits = g.bits

end Features

/-! ## Handing over -/

/-- Whether the holder of an automaton keeps it when it is handed over. -/
inductive Handover where
  /-- The holder keeps it and hands out a copy. -/
  | copy
  /-- The holder gives it away and is left with the empty language. -/
  | move
deriving DecidableEq, Repr, Inhabited

/-- What is handed over, and what is left. -/
def Handover.acquire (h : Handover) (a : Automaton) : Automaton × Automaton :=
  match h with
  | .copy => (a, a)
  | .move => (a, .empty)

/-! ## Compilation -/

/-- Options of a compilation. -/
structure Options where
  features : Features := .all
  minimization : Minimization := .hopcroft
  /-- How automata named in a pattern are taken from their holder. -/
  handover : Handover := .move
  /-- Whether every intermediate automaton is minimized. -/
  minimize : Bool := true
deriving DecidableEq

/-! ## Lemmas -/

/-- The holder loses nothing but what is handed over. -/
theorem Handover.acquire_fst (h : Handover) (a : Automaton) : (h.acquire a).1 = a := by
  cases h <;> rfl

end RegLang
