import RegLang.Automaton.Product
/-!
# Counting words

On a deterministic graph every word has one path, so words of a length are counted by counting
paths: from letter to letter, each state passes its count on to its targets, once for every letter
of the interval.
-/

namespace RegLang

namespace Graph

/-- Adds to the count of a state, which must be in the arena. -/
def addCount (counts : Array Nat) (q : Nat) (n : Nat) : Except Fault (Array Nat) :=
  if q < counts.size then .ok (counts.modify q (· + n)) else .error .outOfRange

/-- The numbers of words, one letter longer, that lead to each state. -/
def passCounts (g : Graph) (counts : Array Nat) : Except Fault (Array Nat) :=
  (List.range g.size).foldlM
    (fun next q =>
      let n := counts.getD q 0
      if n = 0 then .ok next
      else
        (g.state q).transitions.foldlM
          (fun next t => addCount next t.target (n * Alphabet.count t.lo t.hi)) next)
    (Array.replicate g.size 0)

/-- Passes counts on so many times. -/
def passMany (g : Graph) : Nat → Array Nat → Except Fault (Array Nat)
  | 0, counts => .ok counts
  | n + 1, counts => (g.passCounts counts).bind (g.passMany n)

/-- The sum of the counts of the accepting states. -/
def acceptedCount (g : Graph) (counts : Array Nat) : Nat :=
  (List.range g.size).foldl
    (fun total q => if (g.state q).accept then total + counts.getD q 0 else total) 0

/-- Number of paths from the initial state along so many letters to an accepting state. -/
def countPaths (g : Graph) (length : Nat) : Except Fault Nat :=
  (addCount (Array.replicate g.size 0) g.initial 1).bind fun start =>
    (g.passMany length start).map g.acceptedCount

end Graph

/-- Number of words with so many letters. -/
def Automaton.countWords (length : Nat) : Automaton → Except Fault Nat
  | .singleton w => .ok (if w.length = length then 1 else 0)
  | .graph g => (determinize (.graph g)).bind fun d => d.toGraph.countPaths length

end RegLang
