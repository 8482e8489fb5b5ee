import RegLang.Automaton.Product
/-!
# Shortest words

A breadth-first search for a state that accepts, or one that rejects.  Every state that is met
keeps the best word that leads to it so far; a better word of the same length replaces it without
a new place in the queue.  States that are looked for are not searched any further.
-/

namespace RegLang

/-- Words are compared by length, then letter by letter. -/
def Word.better (v w : Word) : Bool := v.length < w.length || (v.length = w.length && v < w)

namespace Shortest

/-- The states that wait, the best word known for each state, and the best word of a state that is
looked for. -/
structure Search where
  queue : List Nat
  paths : List (Nat × Word)
  best : Option Word := none

/-- Learns that `w` leads to `q`. -/
def learn (s : Search) (q : Nat) (w : Word) : Search :=
  match s.paths.lookup q with
  | none => { s with queue := s.queue ++ [q], paths := (q, w) :: s.paths }
  | some v =>
    if Word.better w v then
      { s with paths := s.paths.map fun p => if p.1 = q then (q, w) else p }
    else s

/-- Learns that `w` leads to a state that is looked for. -/
def report (s : Search) (w : Word) : Search :=
  match s.best with
  | none => { s with best := some w }
  | some v => if Word.better w v then { s with best := some w } else s

/-- Searches at most `fuel` states for one whose accept flag is `accepted`. -/
def search (g : Graph) (accepted : Bool) : Nat → Search → Except Fault (Option Word)
  | 0, s => .ok s.best
  | fuel + 1, s =>
    match s.queue with
    | [] => .ok s.best
    | q :: rest =>
      (g.fetch q).bind fun state =>
        let w := (s.paths.lookup q).getD []
        let s := { s with queue := rest }
        if state.accept = accepted then search g accepted fuel (report s w)
        else
          search g accepted fuel
            (state.transitions.foldl (fun s t => learn s t.target (w ++ [t.lo])) s)

/-- The shortest and then smallest word that leads to a state whose accept flag is `accepted`. -/
def inGraph (g : Graph) (accepted : Bool) : Except Fault (Option Word) :=
  search g accepted (g.edgeCount + 1) { queue := [g.initial], paths := [(g.initial, [])] }

end Shortest

namespace Automaton

/-- The shortest and then smallest word that is accepted. -/
def shortestAccepted : Automaton → Except Fault (Option Word)
  | .singleton w => .ok (some w)
  | .graph g => Shortest.inGraph g true

/-- The shortest and then smallest word that is rejected. -/
def shortestRejected : Automaton → Except Fault (Option Word)
  | .singleton w => .ok (some (if w.isEmpty then [Alphabet.first] else []))
  | .graph g => do
    let d ← determinize (.graph g)
    let total ← d.totalize
    Shortest.inGraph total.toGraph false

end Automaton

end RegLang
