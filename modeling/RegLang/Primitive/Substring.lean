import RegLang.Automaton.Basic
/-!
# Words that contain a word

State `i` of the matcher has read the first `i` letters of the pattern and no longer beginning of
it.  On a letter that does not continue the pattern it falls back to the longest beginning of the
pattern that ends with that letter.
-/

namespace RegLang.Substring

/-- The pattern up to place `j`, less its last letter, is the end of the pattern up to place
`i`. -/
def isBorder (w : Word) (i j : Nat) : Bool :=
  w.take (j - 1) = (w.take i).drop (i + 1 - j)

/-- The places that state `i` falls back to, by letter, the longest first; `done` are the letters
that are provided for. -/
def fallbacks (w : Word) (i : Nat) : Nat → List Char → List (Char × Nat)
  | 0, _ => []
  | j + 1, done =>
    match w[j]? with
    | some d =>
      if !done.contains d && isBorder w i (j + 1) then
        (d, j + 1) :: fallbacks w i j (d :: done)
      else fallbacks w i j done
    | none => fallbacks w i j done

/-- State `i`, before the last letter of the pattern is read; `c` is the next letter. -/
def state (w : Word) (i : Nat) (c : Char) : State :=
  Graph.fill 0
    { transitions := ((c, i + 1) :: fallbacks w i i [c]).map fun (d, q) => .single d q }

/-- The matcher of a word. -/
def matcher (w : Word) : Graph where
  states :=
    ((w.mapIdx (state w)).concat { accept := true, transitions := [.onAny w.length] }).toArray

end Substring

/-- The words that contain `w`. -/
def Automaton.containing (w : Word) : Automaton := .graph (Substring.matcher w)

end RegLang
