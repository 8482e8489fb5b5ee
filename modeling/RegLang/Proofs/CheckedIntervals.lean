import RegLang.Checked.Interval
import RegLang.Proofs.CheckedOperations
import RegLang.Proofs.Intervals
/-!
# Intervals with checks that succeed

Bounds in order that fit into their width are padded to equally many digits, and every task of
their tree keeps them equally many, so no digit is missed.  All items behind leading zeros are in
the tree.

* `tree_eq`, `skipZeros_eq`: the two steps.
* `ofInterval_eq`: the automaton of an interval.
-/

namespace RegLang.Checked

open RegLang.Interval (Item boundGraph boundTask paddedPlaces padding valid_boundTask)

variable {lo hi digits width : Nat} {item : Item} {x y : Word} {g : Graph} {places : List Nat}

theorem taskRow_eq (h : item.2.Valid) : taskRow item = .ok (Interval.row item) := by
  obtain ⟨way, task⟩ := item
  unfold taskRow
  match task, h with
  | .any _, _ => rfl
  | .atLeast _, _ => rfl
  | .atMost _, _ => rfl
  | .between [] _, _ => rfl
  | .between (_ :: _) (_ :: _), _ => rfl
  | .between (_ :: _) [], h => exact absurd h.2.2.1 (Nat.succ_ne_zero _)

theorem tree_eq (h : (Interval.Task.between x y).Valid) :
    tree x y = .ok (Interval.treeItems x y, Interval.treeGraph x y) := by
  have hlen : x.length = y.length := h.2.2.1
  have hrow : ∀ item : Item, item.2.Valid → taskRow item = .ok (Interval.row item) :=
    fun _ => taskRow_eq
  have hclosed : ∀ item : Item, item.2.Valid → ∀ e ∈ Interval.row item, e.2.2.2.Valid :=
    fun _ hi _ he => Interval.valid_of_mem_row hi he
  have hdone : ∀ item : Item, item.2.Valid →
      (fun item : Item => (.ok item.2.isDone : Except Fault Bool)) item = .ok item.2.isDone :=
    fun _ _ => rfl
  have hstart : (([], .between x y) : Item).2.Valid := h
  have hitems := ofItems_eq (P := fun item : Item => item.2.Valid) hstart hrow hclosed hdone
    (Interval.closedUnder_treeItems hlen)
  rw [tree, discover_eq (P := fun item : Item => item.2.Valid) hstart hrow hclosed, ok_bind]
  exact congrArg (Except.map (Interval.treeItems x y, ·)) hitems

/-! ## Leading zeros -/

theorem skipZeros_eq (hg : g.WellFormed) (hplaces : ∀ q ∈ places, q < g.size) :
    skipZeros places g = .ok (Interval.skipZeros places g) := by
  have hedges : ∀ e ∈ epsilonClosure ((places.filter (· != g.initial)).map (g.initial, ·)),
      e.1 < g.size ∧ e.2 < g.size := by
    intro e he
    obtain ⟨h1, h2, -⟩ := Interval.mem_edges.1 he
    exact ⟨h1 ▸ hg.initial_lt, hplaces _ h2⟩
  have hsize : (g.absorbFrom g.initial (Interval.absorbed places g)).size = g.size :=
    Graph.size_absorbFrom _ _ _
  have hfold : (epsilonClosure ((places.filter (· != g.initial)).map (g.initial, ·))).foldl
      (fun g p => g.absorb p.1 p.2) g = g.absorbFrom g.initial (Interval.absorbed places g) :=
    Interval.foldl_absorb fun p hp => (Interval.mem_edges.1 hp).1
  unfold skipZeros
  dsimp only
  rw [absorbEdges_eq hedges, ok_bind, hfold, Interval.skipZeros_eq,
    update_eq (by rw [Graph.size_setDeterministic, hsize]; exact hg.initial_lt)]
  rfl

theorem wellFormed_skipZeros (hg : g.WellFormed) (hplaces : ∀ q ∈ places, q < g.size) :
    (Interval.skipZeros places g).WellFormed := by
  have hsize : (Interval.skipZeros places g).size = g.size := by
    rw [Interval.skipZeros_eq, Graph.size_setDeterministic, Graph.addTransition, Graph.size_modify,
      Graph.size_setDeterministic, Graph.size_absorbFrom]
  apply Graph.wellFormed_of_steps
  · rw [hsize, Interval.initial_skipZeros]
    exact hg.initial_lt
  · intro q hq c r hr
    rw [hsize] at hq ⊢
    by_cases hi : q = g.initial
    · rw [hi] at hr
      rcases (Interval.mem_stepAll_skipZeros hg).1 hr with ⟨p, hp, hr⟩ | ⟨-, rfl⟩
      · refine hg.lt_of_mem_stepAll ?_ hr
        rcases hp with rfl | hp
        · exact hg.initial_lt
        · exact hplaces p hp
      · exact hg.initial_lt
    · rw [Interval.state_skipZeros_of_ne hi] at hr
      exact hg.lt_of_mem_stepAll hq hr

/-! ## Numbers between two bounds -/

variable (h : lo ≤ hi) (hw : (Numeral.decimal hi).length ≤ width)

include h hw

theorem mem_treeItems_of_mem_padding
    (hitem : item ∈ padding (width + 1) ([], boundTask width lo hi)) :
    item ∈ Interval.treeItems (Numeral.padded 10 width lo) (Numeral.padded 10 width hi) :=
  (Interval.exists_zeros_of_mem_padding (valid_boundTask h hw).2.2.1 (valid_boundTask h hw)
    (Interval.start_mem_treeItems _ _) hitem).1

theorem paddedPlaces_eq : (padding (width + 1) ([], boundTask width lo hi)).mapM
    (placeIn (Interval.treeItems (Numeral.padded 10 width lo) (Numeral.padded 10 width hi))) =
      .ok (paddedPlaces width lo hi) := by
  refine mapM_eq_ok fun item hitem => ?_
  rw [placeIn_eq (mem_treeItems_of_mem_padding h hw hitem), Interval.boundPlace, Interval.place_eq]

theorem lt_of_mem_paddedPlaces :
    ∀ q ∈ paddedPlaces width lo hi, q < (boundGraph width lo hi).size := by
  intro q hq
  obtain ⟨item, hitem, rfl⟩ := List.mem_map.1 hq
  have hmem := mem_treeItems_of_mem_padding h hw hitem
  rw [boundGraph, Interval.treeGraph, Interval.tree, Graph.size_ofItems, Interval.boundPlace,
    Interval.place]
  exact List.idxOf_lt_length_of_mem hmem

omit hw in
theorem intervalGraph_eq (hd : digits = 0 ∨ (Numeral.decimal hi).length ≤ digits) :
    intervalGraph lo hi digits = .ok (Interval.graph lo hi digits) := by
  rcases Nat.eq_zero_or_pos digits with rfl | hpos
  · have hw : (Numeral.decimal hi).length ≤ (Numeral.decimal hi).length := Nat.le_refl _
    have hvalid := valid_boundTask h hw
    have hwf := Interval.wellFormed_treeGraph hvalid.2.2.1
    have hplaces := lt_of_mem_paddedPlaces h hw
    have heq : Interval.graph lo hi 0 =
        (Interval.skipZeros (paddedPlaces (Numeral.decimal hi).length lo hi)
          (boundGraph (Numeral.decimal hi).length lo hi)).compact := rfl
    unfold intervalGraph
    simp only [Nat.lt_irrefl, if_false]
    rw [tree_eq hvalid, ok_bind]
    dsimp only
    rw [paddedPlaces_eq h hw, ok_bind, skipZeros_eq hwf hplaces, ok_bind,
      compact_eq (wellFormed_skipZeros hwf hplaces), heq]
  · have hw := hd.resolve_left (Nat.ne_of_gt hpos)
    have hvalid := valid_boundTask h hw
    unfold intervalGraph Interval.graph
    simp only [hpos, if_true]
    rw [tree_eq hvalid, ok_bind]
    exact compact_eq (Interval.wellFormed_treeGraph hvalid.2.2.1)

omit h hw in
theorem ofInterval_eq (h : lo ≤ hi) (hd : digits = 0 ∨ (Numeral.decimal hi).length ≤ digits) :
    ofInterval lo hi digits = Automaton.ofInterval lo hi digits := by
  obtain ⟨hwf, ht, -⟩ := Interval.graph_spec h hd
  unfold ofInterval Automaton.ofInterval
  rw [intervalGraph_eq h hd, ok_bind, minimize_eq .hopcroft (a := .graph _) ⟨hwf, ht⟩]

end RegLang.Checked
