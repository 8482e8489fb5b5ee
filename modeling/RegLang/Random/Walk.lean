import RegLang.Automaton.Basic
import RegLang.Random.Words
/-!
# Random words of a language

A random walk from the initial state through live states.  In every state the choices are to stop,
if the state accepts, and the transitions to live states; one of them is drawn, and then a letter
of its interval.  A state without transitions to live states ends the walk without a draw.  How
numbers and letters are drawn from random words is up to the source.
-/

namespace RegLang

/-- Why no word was drawn. -/
inductive DrawError where
  | emptyLanguage
  /-- The random words ran out. -/
  | exhausted
  | fault (f : Fault)
deriving DecidableEq

/-- The text of an error. -/
def DrawError.message? : DrawError → Option String
  | emptyLanguage => some "cannot generate a string from the empty language"
  | exhausted => none
  | fault f => f.message?

namespace Graph

/-- The transitions of a state to live states, ordered by target. -/
def liveTransitions (live : List Nat) (s : State) : List Transition :=
  (Transition.sortByTarget s.transitions).filter fun t => live.contains t.target

/-- What a walk may do in a state: stop, or take a transition. -/
def choices (live : List Nat) (s : State) : List (Option Transition) :=
  (if s.accept then [none] else []) ++ (liveTransitions live s).map some

/-- The letters read from a state on, and the random words left. -/
def walk (g : Graph) (d : Random.Source) (live : List Nat) (q : Nat) (ws : List UInt64) :
    Except DrawError Word × List UInt64 :=
  let s := g.state q
  if (liveTransitions live s).isEmpty then
    (if s.accept then .ok [] else .error (.fault (.deadEnd q)), ws)
  else
    let options := choices live s
    if h : 0 < options.length then
      match hi : (d.below options.length h).run ws with
      | none => (.error .exhausted, [])
      | some (i, vs) =>
        match options[i] with
        | none => (.ok [], vs)
        | some t =>
          match hc : (d.letter t.lo t.hi t.lo_le_hi).run vs with
          | none => (.error .exhausted, [])
          | some (c, us) =>
            let (rest, left) := g.walk d live t.target us
            (rest.map (c.1 :: ·), left)
    else (.error (.fault (.deadEnd q)), ws)
termination_by ws.length
decreasing_by exact Nat.lt_trans (Random.Draw.length_lt _ hc) (Random.Draw.length_lt _ hi)

end Graph

namespace Automaton

/-- A random word of the language, and the random words left. -/
def draw (a : Automaton) (d : Random.Source) (ws : List UInt64) :
    Except DrawError Word × List UInt64 :=
  match a with
  | .singleton w => (.ok w, ws)
  | .graph g =>
    match g.ensureIntact with
    | .error f => (.error (.fault f), ws)
    | .ok _ =>
      let live := g.live
      if live.contains g.initial then g.walk d live g.initial ws
      else (.error .emptyLanguage, ws)

/-- So many random words of the language, up to the first error, and the random words left.  Words
are scaled to numbers and letters. -/
def drawMany (a : Automaton) : Nat → List UInt64 → List (Except DrawError Word) × List UInt64
  | 0, ws => ([], ws)
  | n + 1, ws =>
    match a.draw .scaling ws with
    | (.error e, rest) => ([.error e], rest)
    | (.ok w, rest) =>
      let (more, left) := a.drawMany n rest
      (.ok w :: more, left)

end Automaton

/-! ## Lemmas -/

namespace Graph

theorem choices_pos {live : List Nat} {s : State} (h : liveTransitions live s ≠ []) :
    0 < (choices live s).length := by
  have := List.length_pos_iff.2 h
  simp only [choices, List.length_append, List.length_map]
  omega

variable {g : Graph} {d : Random.Source} {live : List Nat} {q : Nat} {ws : List UInt64}

/-- A walk without live transitions to choose from ends where it is. -/
theorem walk_of_nil (h : liveTransitions live (g.state q) = []) :
    g.walk d live q ws =
      (if (g.state q).accept then .ok [] else .error (.fault (.deadEnd q)), ws) := by
  rw [walk, if_pos (List.isEmpty_iff.2 h)]

/-- A walk with live transitions draws a choice, and then a letter. -/
theorem walk_of_ne_nil (h : liveTransitions live (g.state q) ≠ []) :
    g.walk d live q ws =
      match (d.below (choices live (g.state q)).length (choices_pos h)).run ws with
      | none => (.error .exhausted, [])
      | some (i, vs) =>
        match (choices live (g.state q))[i] with
        | none => (.ok [], vs)
        | some t =>
          match (d.letter t.lo t.hi t.lo_le_hi).run vs with
          | none => (.error .exhausted, [])
          | some (c, us) =>
            let (rest, left) := g.walk d live t.target us
            (rest.map (c.1 :: ·), left) := by
  rw [walk, if_neg (by rwa [List.isEmpty_iff]), dif_pos (choices_pos h)]
  split
  · next hi => rw [hi]
  · next i vs hi =>
    rw [hi]
    split
    · next hc => simp only [hc]
    · next t hc =>
      simp only [hc]
      split
      · next hl => rw [hl]
      · next hl => rw [hl]

end Graph

end RegLang
