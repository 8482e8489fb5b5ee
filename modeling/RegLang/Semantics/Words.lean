import Mathlib.Data.List.Nodup
import Mathlib.Data.Set.Card
import RegLang.Semantics.Path
/-!
# Words, listed

The letters of an interval and the words of a length that lead from a state to acceptance, as lists.

* `mem_words_iff`: the list holds the accepted words of the length and no others.
* `ncard_eq_length`: a list without repetitions counts what it lists.
-/

namespace RegLang

/-! ## Letters -/

namespace Alphabet

/-- The letters from `lo` to `hi`, ascending. -/
def between (lo hi : Char) : Word := (List.range' (rank lo) (count lo hi)).map ofRank

@[simp] theorem length_between (lo hi : Char) : (between lo hi).length = count lo hi := by
  simp [between]

theorem lt_size_of_mem_range' {lo hi : Char} {n : Nat}
    (h : n ∈ List.range' (rank lo) (count lo hi)) : n < size := by
  obtain ⟨hlo, hn⟩ := List.mem_range'_1.1 h
  have := rank_lt_size hi
  unfold count at hn
  omega

theorem mem_between {lo hi c : Char} : c ∈ between lo hi ↔ lo ≤ c ∧ c ≤ hi := by
  rw [between, List.mem_map, ← rank_le_rank_iff, ← rank_le_rank_iff]
  constructor
  · rintro ⟨n, hn, rfl⟩
    rw [rank_ofRank (lt_size_of_mem_range' hn)]
    obtain ⟨hlo, hhi⟩ := List.mem_range'_1.1 hn
    unfold count at hhi
    omega
  · rintro ⟨hlo, hhi⟩
    refine ⟨rank c, List.mem_range'_1.2 ⟨hlo, ?_⟩, ofRank_rank c⟩
    unfold count
    omega

theorem nodup_between (lo hi : Char) : (between lo hi).Nodup := by
  refine List.Nodup.map_on (fun m hm n hn h => ?_) List.nodup_range'
  rw [← rank_ofRank (lt_size_of_mem_range' hm), h, rank_ofRank (lt_size_of_mem_range' hn)]

end Alphabet

/-! ## Words of a length -/

namespace Graph

variable {g : Graph} {n q : Nat} {w : Word}

theorem mem_between_iff_contains {t : Transition} {c : Char} :
    c ∈ Alphabet.between t.lo t.hi ↔ t.contains c = true :=
  Alphabet.mem_between.trans Transition.contains_iff.symm

/-- The words of `n` letters that lead from a state to acceptance, once for every path. -/
def words (g : Graph) : Nat → Nat → List Word
  | 0, q => if (g.state q).accept then [[]] else []
  | n + 1, q => (g.state q).transitions.flatMap fun t =>
      (Alphabet.between t.lo t.hi).flatMap fun c => (g.words n t.target).map (c :: ·)

theorem mem_words_iff : w ∈ g.words n q ↔ g.AcceptsFrom q w ∧ w.length = n := by
  induction n generalizing q w with
  | zero =>
    rw [List.length_eq_zero_iff]
    by_cases ha : (g.state q).accept = true
    · rw [words, if_pos ha, List.mem_singleton]
      constructor
      · rintro rfl
        exact ⟨acceptsFrom_nil_iff.2 ha, rfl⟩
      · exact And.right
    · rw [words, if_neg ha]
      refine iff_of_false List.not_mem_nil ?_
      rintro ⟨hw, rfl⟩
      exact ha (acceptsFrom_nil_iff.1 hw)
  | succ n ih =>
    simp only [words, List.mem_flatMap, List.mem_map, mem_between_iff_contains]
    constructor
    · rintro ⟨t, ht, c, hc, v, hv, rfl⟩
      obtain ⟨hacc, hlen⟩ := ih.1 hv
      have hstep : t.target ∈ (g.state q).stepAll c := State.mem_stepAll.2 ⟨t, ht, hc, rfl⟩
      exact ⟨acceptsFrom_cons_iff.2 ⟨t.target, hstep, hacc⟩, congrArg (· + 1) hlen⟩
    · rintro ⟨hacc, hlen⟩
      obtain ⟨c, v, rfl⟩ := List.exists_cons_of_length_eq_add_one hlen
      obtain ⟨p, hp, hv⟩ := acceptsFrom_cons_iff.1 hacc
      obtain ⟨t, ht, hc, rfl⟩ := State.mem_stepAll.1 hp
      exact ⟨t, ht, c, hc, v, ih.2 ⟨hv, Nat.succ.inj hlen⟩, rfl⟩

/-- In a deterministic graph every word has one path. -/
theorem IsDeterministic.nodup_words (hg : g.IsDeterministic) (hq : g.IsReachable q) :
    (g.words n q).Nodup := by
  induction n generalizing q with
  | zero =>
    rw [words]
    split
    · exact List.nodup_singleton _
    · exact List.nodup_nil
  | succ n ih =>
    rw [words, List.nodup_flatMap]
    constructor
    · intro t ht
      have htarget := hq.target (State.mem_targets.2 ⟨t, ht, rfl⟩)
      rw [List.nodup_flatMap]
      refine ⟨fun c _ => (ih htarget).map (List.cons_injective), ?_⟩
      refine (Alphabet.nodup_between t.lo t.hi).imp fun {c d} hcd w hc hd => ?_
      obtain ⟨u, -, rfl⟩ := List.mem_map.1 hc
      obtain ⟨v, -, huv⟩ := List.mem_map.1 hd
      exact hcd (List.cons.inj huv).1.symm
    · refine (hg q hq).imp fun {t u} htu w ht hu => ?_
      obtain ⟨c, hc, ht⟩ := List.mem_flatMap.1 ht
      obtain ⟨d, hd, hu⟩ := List.mem_flatMap.1 hu
      obtain ⟨v, -, rfl⟩ := List.mem_map.1 ht
      obtain ⟨v', -, hv⟩ := List.mem_map.1 hu
      rw [(List.cons.inj hv).1] at hd
      exact htu c ⟨mem_between_iff_contains.1 hc, mem_between_iff_contains.1 hd⟩

end Graph

/-! ## Counting -/

/-- A list without repetitions counts what it lists. -/
theorem ncard_eq_length {P : Word → Prop} {ws : List Word} (hws : ws.Nodup)
    (h : ∀ w, w ∈ ws ↔ P w) : {w | P w}.Finite ∧ {w | P w}.ncard = ws.length := by
  have heq : {w | P w} = (ws.toFinset : Set Word) := by
    ext w
    simp [h]
  rw [heq, Set.ncard_coe_finset, List.toFinset_card_of_nodup hws]
  exact ⟨ws.toFinset.finite_toSet, rfl⟩

end RegLang
