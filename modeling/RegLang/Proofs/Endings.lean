import RegLang.Proofs.Distinguishing
import RegLang.Proofs.Exploration
import RegLang.Proofs.RefinedClasses
/-!
# Minimization ends

Each loop of a minimization comes to an end within the bound that it has where it is defined, and a
loop has one end only.  So what a minimization makes is what it makes without bounds, and the one
graph that it ends with:

    g.minimize m = .ok h → ∀ k, g.MinimizesTo m k ↔ k = h               (minimizesTo_iff)

* `Loop.Ends.unique`: a loop has one end.
* `Graph.queue_drain_sets`: as many turns as there are sets are enough for a worklist of sets.
* `Graph.MinimizesTo.unique`, `Graph.minimizesTo_of_minimize`: the two halves.
-/

namespace RegLang

/-! ## Loops -/

theorem Loop.Ends.unique {σ : Type} {step : σ → Option σ} {s t u : σ} (h : Ends step s t)
    (h' : Ends step s u) : t = u := by
  induction h with
  | done hs =>
    cases h' with
    | done => rfl
    | next hs' => cases hs.symm.trans hs'
  | next hs _ ih =>
    cases h' with
    | done hs' => cases hs.symm.trans hs'
    | next hs' rest =>
      cases hs.symm.trans hs'
      exact ih rest

/-- A worklist is worked off for as long as an item waits. -/
theorem Worklist.ends_drain {α : Type} [DecidableEq α] {succ : α → List α} (fuel : Nat)
    {w : Worklist α} (h : (w.drain succ fuel).queue = []) :
    Loop.Ends (turn succ) w (w.drain succ fuel) := by
  induction fuel generalizing w with
  | zero =>
    have hw : w.queue = [] := h
    exact .done (by rw [turn, pop?, hw]; rfl)
  | succ fuel ih =>
    obtain ⟨_ | ⟨x, queue⟩, seen⟩ := w
    · exact .done rfl
    · exact .next rfl (ih h)

/-! ## Marks -/

namespace Marking

variable {table : Array (List Transition)} {m k k' : Marks} {p : StatePair} {ps : List StatePair}

theorem Examines.unique (h : Examines table m p k) (h' : Examines table m p k') : k = k' := by
  cases h with
  | known hm =>
    cases h' with
    | known => rfl
    | noted hm' => exact absurd (hm.symm.trans hm') Bool.noConfusion
    | told hm' => exact absurd (hm.symm.trans hm') Bool.noConfusion
  | noted hm hapart =>
    cases h' with
    | known hm' => exact absurd (hm.symm.trans hm') Bool.noConfusion
    | noted => rfl
    | told _ hq hmarked => exact absurd (hmarked.symm.trans (hapart _ hq)) Bool.noConfusion
  | told hm hq hmarked hends =>
    cases h' with
    | known hm' => exact absurd (hm.symm.trans hm') Bool.noConfusion
    | noted _ hapart => exact absurd (hmarked.symm.trans (hapart _ hq)) Bool.noConfusion
    | told _ _ _ hends' => exact congrArg Prod.snd (hends.unique hends')

theorem ExaminesAll.unique (h : ExaminesAll table ps m k) (h' : ExaminesAll table ps m k') :
    k = k' := by
  induction h with
  | nil =>
    cases h' with
    | nil => rfl
  | cons hfirst _ ih =>
    cases h' with
    | cons hfirst' hrest =>
      cases hfirst.unique hfirst'
      exact ih hrest

end Marking

namespace Graph

variable {g h k : Graph} {m : Minimization}

/-! ## Subset construction -/

theorem nextSets_subset (g : Graph) :
    ∀ s ∈ StateSet.all g.size, g.nextSets s ⊆ StateSet.all g.size := by
  intro s hs t ht
  obtain ⟨r, hr, rfl⟩ := List.mem_map.1 ht
  exact closedUnder_subsetRow g _ s hs r hr

/-- After as many turns as there are sets nothing waits. -/
theorem queue_drain_sets (g : Graph) (xs : List Nat) {n : Nat}
    (hn : 1 <<< (StateSet.ofList g.size xs).capacity ≤ n) :
    ((({} : Worklist StateSet).offerAll [.ofList g.size xs]).drain g.nextSets n).queue = [] := by
  apply Worklist.queue_drain_eq_nil g.nextSets_subset n (Worklist.split_start _)
  · intro s hs
    rw [List.mem_singleton.1 (Worklist.mem_seen_start.1 hs)]
    exact StateSet.ofList_mem_all _ _
  · exact ((length_all_le _ _).trans hn).trans (Nat.le_add_left _ _)

theorem constructsTo_subsetConstruction (g : Graph) (xs : List Nat) :
    g.ConstructsTo (.ofList g.size xs) (g.subsetConstruction (.ofList g.size xs)) :=
  ⟨_, Worklist.ends_drain _ (g.queue_drain_sets xs (Nat.le_refl _)), rfl⟩

theorem ConstructsTo.unique {start : StateSet} (h₁ : g.ConstructsTo start h)
    (h₂ : g.ConstructsTo start k) : h = k := by
  obtain ⟨w, hw, rfl⟩ := h₁
  obtain ⟨v, hv, rfl⟩ := h₂
  rw [hw.unique hv]

theorem determinizesTo_determinize (g : Graph) : g.DeterminizesTo g.determinize := by
  unfold DeterminizesTo determinize
  split
  · rfl
  · exact g.constructsTo_subsetConstruction [g.initial]

theorem DeterminizesTo.unique (h₁ : g.DeterminizesTo h) (h₂ : g.DeterminizesTo k) : h = k := by
  unfold DeterminizesTo at h₁ h₂
  split at h₁
  · next hd => rw [h₁, (if_pos hd).mp h₂]
  · next hd => exact h₁.unique ((if_neg hd).mp h₂)

theorem reversesTo_reverseDeterminize (g : Graph) : g.ReversesTo g.reverseDeterminize :=
  g.reverse.constructsTo_subsetConstruction g.acceptStates

/-! ## Minimization -/

theorem MinimizesTo.unique (h₁ : g.MinimizesTo m h) (h₂ : g.MinimizesTo m k) : h = k := by
  cases h₁ with
  | alone hd hl =>
    cases h₂ with
    | alone hd' => exact hd.unique hd'
    | refined hd' hl' =>
      cases hd.unique hd'
      exact absurd (hl.symm.trans hl') Bool.noConfusion
  | refined hd hl ht hc hp =>
    cases h₂ with
    | alone hd' hl' =>
      cases hd.unique hd'
      exact absurd (hl.symm.trans hl') Bool.noConfusion
    | refined hd' _ ht' hc' hp' =>
      cases hd.unique hd'
      cases ht.trans ht'.symm
      cases hc.symm.trans hc'
      rw [hp.unique hp']
  | reversed hr hh =>
    cases h₂ with
    | reversed hr' hh' =>
      cases hr.unique hr'
      exact hh.unique hh'
  | marked hd ht hm =>
    cases h₂ with
    | marked hd' ht' hm' =>
      cases hd.unique hd'
      cases ht.trans ht'.symm
      rw [hm.unique hm']

/-- Preparing a graph that is determinized prepares the graph. -/
theorem prepareTotal_determinize (g : Graph) : g.determinize.prepareTotal = g.prepareTotal := by
  unfold prepareTotal
  rw [determinize_of_deterministic g.deterministic_determinize]

/-- What a minimization makes is what it ends with if nothing bounds its loops. -/
theorem minimizesTo_of_minimize (hg : g.WellFormed) (ht : g.Truthful) (h₁ : g.minimize m = .ok h) :
    g.MinimizesTo m h := by
  have hprep := prepared_prepareTotal hg ht
  have hd := g.determinizesTo_determinize
  cases m with
  | hopcroft =>
    change Refinement.minimize g = .ok h at h₁
    unfold Refinement.minimize at h₁
    dsimp only at h₁
    split at h₁
    · next hl =>
      cases h₁
      exact .alone hd hl
    · next hl =>
      rw [prepareTotal_determinize, Refinement.partition_eq_ok hprep] at h₁
      cases h₁
      exact .refined hd (Bool.eq_false_iff.2 hl) rfl (Refinement.mapM_column hprep)
        (Refinement.ends_refine _ (Refinement.refined hprep).2)
  | brzozowski =>
    cases h₁
    exact .reversed g.reversesTo_reverseDeterminize
      g.reverseDeterminize.reversesTo_reverseDeterminize
  | huffman =>
    have hmade : h = g.prepareTotal.quotient
        (Marking.classes g.prepareTotal (Marking.marks g.prepareTotal)) := (Except.ok.inj h₁).symm
    rw [hmade]
    exact .marked hd rfl (Marking.progress_marks hprep).2

/-- A minimization ends with what it makes, and with nothing else. -/
theorem minimizesTo_iff (hg : g.WellFormed) (ht : g.Truthful) (h₁ : g.minimize m = .ok h) :
    g.MinimizesTo m k ↔ k = h := by
  have hends := minimizesTo_of_minimize hg ht h₁
  constructor
  · exact fun hk => hk.unique hends
  · rintro rfl
    exact hends

end Graph

end RegLang
