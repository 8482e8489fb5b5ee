import RegLang.Automaton.Basic
/-!
# Elementary automata

Single words are kept as such; all else is a small deterministic graph.
-/

namespace RegLang.Automaton

/-- The language of one word. -/
def ofWord (w : Word) : Automaton := .singleton w

/-- The language of one letter. -/
def ofLetter (c : Char) : Automaton := .singleton [c]

/-- All words. -/
def anyWord : Automaton :=
  .graph { states := #[{ accept := true, transitions := [.onAny 0] }] }

/-- The letters between two bounds given in either order. -/
def ofRange (c d : Char) : Automaton :=
  if c = d then ofLetter c
  else .graph { states := #[{ transitions := [.between c d 1] }, { accept := true }] }

/-- All words of one letter. -/
def anyLetter : Automaton := ofRange Alphabet.first Alphabet.last

/-- The letters of a list. -/
def ofLetters : Word → Automaton
  | [c] => ofLetter c
  | cs =>
    let g : Graph :=
      { states := #[{ transitions := cs.map fun c => .single c 1 }, { accept := true }] }
    .graph g.reduce

end RegLang.Automaton
