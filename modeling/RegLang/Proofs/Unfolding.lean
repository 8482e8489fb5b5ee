import RegLang.Graph.Unfold
import RegLang.Proofs.NormalForms
/-!
# Graphs of discovered items

The graph of a list of items that is closed under rows is covered by the items themselves, with
rows for steps; discovered items are such a list as soon as the fuel is enough.  The places of
discovered items are their numbers in breadth-first order.

* `covers_ofItems`: an item and its place accept the same words.
* `reachable_unfold`: the graph of the discovered items is compact as it is built.
-/

namespace RegLang

/-- The machine on items whose steps are the entries of rows. -/
def Machine.ofRows {α : Type} (accept : α → Bool) (row : α → List (Char × Char × α)) :
    Machine α where
  accept x := accept x = true
  step x c y := ∃ r ∈ row x, (r.1 ≤ c ∧ c ≤ r.2.1) ∧ r.2.2 = y

namespace Graph

variable {α : Type} [DecidableEq α] {accept : α → Bool} {row : α → List (Char × Char × α)}

/-- The list has with every item all that its row leads to. -/
def ClosedUnder (row : α → List (Char × Char × α)) (items : List α) : Prop :=
  ∀ x ∈ items, ∀ r ∈ row x, r.2.2 ∈ items

/-- No interval of a row is reversed. -/
def Ordered (row : α → List (Char × Char × α)) : Prop := ∀ x, ∀ r ∈ row x, r.1 ≤ r.2.1

variable {items : List α}

/-! ## The graph of a closed list -/

theorem state_ofItems {x : α} (hx : x ∈ items) : (ofItems accept row items).state (items.idxOf x) =
    { accept := accept x
      transitions := (row x).map fun r => Transition.between r.1 r.2.1 (items.idxOf r.2.2) } := by
  have hi : items.idxOf x < items.length := List.idxOf_lt_length_of_mem hx
  simp [ofItems, state, Array.getD, hi, List.getElem_idxOf hi]

theorem targets_ofItems {x : α} (hx : x ∈ items) :
    ((ofItems accept row items).state (items.idxOf x)).targets =
      ((row x).map (·.2.2)).map items.idxOf := by
  rw [state_ofItems hx]
  simp [State.targets]

theorem between_contains_of_le {c d e : Char} (h : c ≤ d) {q : Nat} :
    (Transition.between c d q).contains e = true ↔ c ≤ e ∧ e ≤ d := by
  rw [Transition.between_of_le h, Transition.contains_iff]

/-- An item stands at its place. -/
theorem covers_ofItems (hord : Ordered row) (hclosed : ClosedUnder row items) :
    Machine.Covering items.idxOf (· ∈ items) (.ofRows accept row)
      (ofItems accept row items).machine where
  closed {x c y} hx := by
    rintro ⟨r, hr, _, rfl⟩
    exact hclosed x hx r hr
  accept {x} hx := by
    show ((ofItems accept row items).state (items.idxOf x)).accept = true ↔ _
    rw [state_ofItems hx]
    exact Iff.rfl
  step {x c q} hx := by
    show q ∈ ((ofItems accept row items).state (items.idxOf x)).stepAll c ↔ _
    rw [state_ofItems hx, State.mem_stepAll]
    constructor
    · rintro ⟨t, ht, hc, rfl⟩
      obtain ⟨r, hr, rfl⟩ := List.mem_map.1 ht
      rw [between_contains_of_le (hord x r hr)] at hc
      exact ⟨r.2.2, ⟨r, hr, hc, rfl⟩, (Transition.between_target _ _ _).symm⟩
    · rintro ⟨y, ⟨r, hr, hc, rfl⟩, rfl⟩
      exact ⟨_, List.mem_map_of_mem hr, (between_contains_of_le (hord x r hr)).2 hc,
        Transition.between_target _ _ _⟩

theorem acceptsFrom_ofItems (hord : Ordered row) (hclosed : ClosedUnder row items) {x : α}
    (hx : x ∈ items) {w : Word} :
    (ofItems accept row items).AcceptsFrom (items.idxOf x) w ↔
      (Machine.ofRows accept row).Accepts x w := by
  rw [← accepts_machine_iff]
  exact (covers_ofItems hord hclosed).accepts_iff hx

theorem exists_idxOf_items (q : Nat) (hq : q < items.length) (hn : items.Nodup) :
    ∃ x ∈ items, items.idxOf x = q :=
  ⟨items[q], List.getElem_mem hq, hn.idxOf_getElem q hq⟩

/-- Rows without common letters make a deterministic graph. -/
theorem disjoint_ofItems (hord : Ordered row) {x : α} (hx : x ∈ items)
    (hrow : (row x).Pairwise fun r s => r.2.1 < s.1 ∨ s.2.1 < r.1) :
    ((ofItems accept row items).state (items.idxOf x)).Disjoint := by
  rw [state_ofItems hx]
  apply List.pairwise_map.2
  apply hrow.imp_of_mem
  rintro r s hr hs hlt c ⟨h1, h2⟩
  rw [between_contains_of_le (hord x r hr)] at h1
  rw [between_contains_of_le (hord x s hs)] at h2
  simp only [Alphabet.le_iff_rank, Alphabet.lt_iff_rank] at h1 h2 hlt
  omega

theorem wellFormed_ofItems (hclosed : ClosedUnder row items) (hn : items.Nodup)
    (hne : items ≠ []) : (ofItems accept row items).WellFormed where
  initial_lt := by
    rw [size_ofItems]
    exact List.length_pos_iff.2 hne
  target_lt q hq t ht := by
    rw [size_ofItems] at hq ⊢
    obtain ⟨x, hx, rfl⟩ := exists_idxOf_items q hq hn
    have hmem : t.target ∈ ((ofItems accept row items).state (items.idxOf x)).targets :=
      State.mem_targets.2 ⟨t, ht, rfl⟩
    rw [targets_ofItems hx, List.mem_map] at hmem
    obtain ⟨y, hy, he⟩ := hmem
    obtain ⟨r, hr, rfl⟩ := List.mem_map.1 hy
    rw [← he]
    exact List.idxOf_lt_length_of_mem (hclosed x hx r hr)

/-! ## Discovered items -/

variable {fuel : Nat} {start : α} {all : List α}

theorem exists_discover_eq_cons (row : α → List (Char × Char × α)) (fuel : Nat) (start : α) :
    ∃ l, discover row fuel start = start :: l :=
  exists_explore_eq_cons _ _ _

theorem start_mem_discover : start ∈ discover row fuel start := by
  obtain ⟨l, hl⟩ := exists_discover_eq_cons row fuel start
  rw [hl]
  exact List.mem_cons_self

theorem idxOf_start : (discover row fuel start).idxOf start = 0 := by
  obtain ⟨l, hl⟩ := exists_discover_eq_cons row fuel start
  rw [hl, List.idxOf_cons_self]

theorem closedUnder_discover (hs : start ∈ all) (hc : ClosedUnder row all)
    (hf : all.length ≤ fuel) : ClosedUnder row (discover row fuel start) := by
  have hsub : [start] ⊆ all := by simpa using hs
  have hclosed : ∀ x ∈ all, ((row x).map fun r : Char × Char × α => r.2.2) ⊆ all := by
    intro x hx y hy
    obtain ⟨r, hr, rfl⟩ := List.mem_map.1 hy
    exact hc x hx r hr
  intro x hx r hr
  apply (mem_explore_iff hsub hclosed hf).2
  exact (discovered_of_mem_explore hx).step (List.mem_map.2 ⟨r, hr, rfl⟩)

/-- The graph of discovered items accepts what the start item accepts. -/
theorem accepts_unfold (hord : Ordered row) (hs : start ∈ all) (hc : ClosedUnder row all)
    (hf : all.length ≤ fuel) {w : Word} :
    (unfold accept row fuel start).Accepts w ↔ (Machine.ofRows accept row).Accepts start w := by
  rw [← acceptsFrom_ofItems hord (closedUnder_discover hs hc hf) start_mem_discover, idxOf_start]
  exact Iff.rfl

theorem isDeterministic_unfold (hord : Ordered row) (hs : start ∈ all) (hc : ClosedUnder row all)
    (hf : all.length ≤ fuel)
    (hrow : ∀ x ∈ discover row fuel start,
      (row x).Pairwise fun r s => r.2.1 < s.1 ∨ s.2.1 < r.1) :
    (unfold accept row fuel start).IsDeterministic := by
  intro q hq
  have hwf : (unfold accept row fuel start).WellFormed :=
    wellFormed_ofItems (closedUnder_discover hs hc hf) (nodup_discover _ _ _)
      (List.ne_nil_of_mem start_mem_discover)
  have hlt := hwf.lt_of_isReachable hq
  rw [unfold, size_ofItems] at hlt
  obtain ⟨x, hx, rfl⟩ := exists_idxOf_items q hlt (nodup_discover _ _ _)
  exact disjoint_ofItems hord hx (hrow x hx)

/-- Discovered items are numbered breadth first. -/
theorem reachable_unfold (hs : start ∈ all) (hc : ClosedUnder row all) (hf : all.length ≤ fuel) :
    (unfold accept row fuel start).reachable =
      List.range (unfold accept row fuel start).size := by
  have hsub : [start] ⊆ all := by simpa using hs
  have hclosed : ∀ x ∈ all, ((row x).map fun r : Char × Char × α => r.2.2) ⊆ all := by
    intro x hx y hy
    obtain ⟨r, hr, rfl⟩ := List.mem_map.1 hy
    exact hc x hx r hr
  have hmentioned : [(unfold accept row fuel start).initial] ⊆
      (unfold accept row fuel start).mentioned :=
    List.cons_subset_cons _ (List.nil_subset _)
  have hrange : (unfold accept row fuel start).size = (discover row fuel start).length :=
    size_ofItems _ _ _
  -- with the larger of the two fuels both explorations run in lockstep
  have hitems := explore_eq_of_le hsub hclosed hf
    (Nat.le_max_left fuel ((unfold accept row fuel start).edgeCount + 1))
  have hplaces := explore_eq_of_le hmentioned
    (fun p _ => (unfold accept row fuel start).targets_subset_mentioned p)
    (Nat.le_of_eq (unfold accept row fuel start).length_mentioned)
    (Nat.le_max_right fuel ((unfold accept row fuel start).edgeCount + 1))
  have hstart : ∀ x ∈ [start], x ∈ discover row fuel start := fun x hx =>
    List.mem_singleton.1 hx ▸ start_mem_discover
  have hlock := explore_map (f := (discover row fuel start).idxOf)
    (P := (· ∈ discover row fuel start)) (fun x => (row x).map fun r : Char × Char × α => r.2.2)
    (fun q => ((unfold accept row fuel start).state q).targets)
    (fun x y hx _ he => (List.idxOf_inj hx).1 he)
    (fun x y hx hy => by
      obtain ⟨r, hr, rfl⟩ := List.mem_map.1 hy
      exact closedUnder_discover hs hc hf x hx r hr)
    (fun x hx => congrArg List.eraseDups (targets_ofItems hx))
    (max fuel ((unfold accept row fuel start).edgeCount + 1)) hstart
  rw [hitems] at hlock
  rw [List.map_singleton, idxOf_start] at hlock
  rw [hrange, ← map_idxOf_of_nodup (nodup_discover row fuel start), reachable, ← hplaces]
  exact hlock

end Graph

end RegLang
