import RegLang.Proofs.CheckedGraphs
import RegLang.Proofs.Subsets
/-!
# Start points

The start points of a graph lie where its reachable transitions begin, or have ended just before.
So they separate two letters exactly if some reachable transition tells letters between them apart:
no class of letters is too coarse, and none is too fine.

* `mem_startPoints_iff`: where the start points lie.
* `not_separated_iff`: what they separate.
* `startPoints_spec`: they are found, in order.
-/

namespace RegLang.Graph

open Alphabet (le_iff_rank lt_iff_rank)

variable {g : Graph} {t : Transition} {c d p : Char}

theorem mem_startPoints_iff : p ∈ g.startPoints ↔ p = Alphabet.first ∨
    ∃ q, g.IsReachable q ∧ ∃ t ∈ (g.state q).transitions, p ∈ boundaries t := by
  rw [startPoints, SortedList.mem_ofList, List.mem_cons]
  simp only [List.mem_flatMap, mem_reachable_iff]

theorem head?_startPoints (g : Graph) : g.startPoints.head? = some Alphabet.first := by
  have hfirst := g.first_mem_startPoints
  have hsorted := g.pairwise_startPoints
  cases hpoints : g.startPoints with
  | nil =>
    rw [hpoints] at hfirst
    cases hfirst
  | cons p ps =>
    rw [hpoints] at hfirst hsorted
    rcases List.mem_cons.1 hfirst with heq | hmem
    · rw [heq, List.head?_cons]
    · have hlt := (List.pairwise_cons.1 hsorted).1 _ hmem
      exact absurd (Alphabet.first_le p) (Char.not_le.2 hlt)

/-- Two letters that no start point separates are alike to every reachable transition, and so are
those between them; and only such letters are not separated. -/
theorem not_separated_iff (hcd : c ≤ d) :
    (∀ p ∈ g.startPoints, ¬ (c < p ∧ p ≤ d)) ↔
      ∀ q, g.IsReachable q → ∀ t ∈ (g.state q).transitions, t.Uniform c d := by
  constructor
  · intro h q hq t ht
    exact (uniform_iff hcd).2 fun p hp => h p (mem_startPoints hq ht hp)
  · rintro h p hp ⟨hcp, hpd⟩
    rcases mem_startPoints_iff.1 hp with rfl | ⟨q, hq, t, ht, hpt⟩
    · exact Char.not_lt.2 (Alphabet.first_le c) hcp
    · exact (uniform_iff hcd).1 (h q hq t ht) p hpt ⟨hcp, hpd⟩

/-- The start points of a well-formed graph are found.  They are ascending, begin with the first
letter and separate two letters if and only if a reachable transition applies to one of the letters
from the first to the second and not to all of them. -/
theorem startPoints_spec (hg : g.WellFormed) :
    ∃ ps, Checked.startPoints g = .ok ps ∧ g.survey.map Survey.startPoints = .ok ps ∧
      ps.Pairwise (· < ·) ∧ (∃ p, ps.head? = some p ∧ ∀ c, p ≤ c) ∧
      ∀ c d, c < d → ((∀ p ∈ ps, ¬ (c < p ∧ p ≤ d)) ↔
        ∀ q, g.IsReachable q → ∀ t ∈ (g.state q).transitions, t.Uniform c d) := by
  refine ⟨g.startPoints, Checked.startPoints_eq hg, ?_, g.pairwise_startPoints,
    ⟨Alphabet.first, g.head?_startPoints, Alphabet.first_le⟩,
    fun c d hcd => not_separated_iff (le_iff_rank.2 (Nat.le_of_lt (lt_iff_rank.1 hcd)))⟩
  rw [survey, hg.ensureIntact]
  rfl

/-- Intervals overlap and lie within one another, one begins at the first letter behind the
surrogates and one ends at the last letter.  One state is out of reach. -/
def overlapping : Graph where
  states := #[{ transitions := [.between 'c' Alphabet.last 1, .between 'a' '\uD7FF' 0,
      .between 'b' 'f' 1] },
    { accept := true, transitions := [.single '\uE000' 0] }, { transitions := [.single 'x' 0] }]
  deterministic := false

/-- No letter follows the last one, and the one behind the surrogates counts once. -/
example : overlapping.startPoints = [Alphabet.first, 'a', 'b', 'c', 'g', '\uE000', '\uE001'] := by
  decide +kernel

theorem startPoints_spec_overlapping : overlapping.WellFormed ∧
    ∃ ps, Checked.startPoints overlapping = .ok ps ∧ ps.Pairwise (· < ·) ∧
      ((∀ p ∈ ps, ¬ ('\uD7FF' < p ∧ p ≤ '\uE000')) ↔ ∀ q, overlapping.IsReachable q →
        ∀ t ∈ (overlapping.state q).transitions, t.Uniform '\uD7FF' '\uE000') := by
  have hg : overlapping.WellFormed := ⟨by decide, by decide⟩
  obtain ⟨ps, hps, -, hsorted, -, hspec⟩ := startPoints_spec hg
  exact ⟨hg, ps, hps, hsorted, hspec _ _ (by decide)⟩

end RegLang.Graph
