import RegLang.Checked.Operations
import RegLang.Proofs.CheckedMarking
import RegLang.Proofs.CheckedQuotients
import RegLang.Proofs.Iteration
import RegLang.Proofs.Minimization
import RegLang.Proofs.Product
import RegLang.Proofs.TabledClasses
/-!
# Operations with checks that succeed

On proper automata every operation with checks does what the operation without checks does, which
is proper again.  So no check fails as long as automata are made by operations from proper ones.

* `minimize_eq`: minimal automata, whatever the way.
* `union_eq`, `concatenate_eq`, `optional_eq`, `star_eq`, `atLeast_eq`, `repeated_eq`,
  `intersection_eq`, `complement_eq`: the operations of expressions.
* `minus_eq`: the difference.
-/

namespace RegLang.Checked

open Table

open RegLang.Automaton (Prefix Opened Rooted)

variable {a b : Automaton} {as : List Automaton} {g h : Graph} {p : Prefix}
  {l : Language Char} {q : Nat} {qs : List Nat} {w : Word}

theorem WellFormed.setDeterministic (hg : g.WellFormed) (d : Bool) :
    (g.setDeterministic d).WellFormed := ⟨hg.initial_lt, hg.target_lt⟩

/-! ## Forms -/

theorem chain_eq (w : Word) : chain w = .ok (.ofWord w) := by
  refine Succeeds.eq_ok ((succeeds_foldlM (I := fun (done : Word) (g : Graph) =>
    g.size = done.length + 1 ∧
      (∀ i, g.state i = { transitions := done[i]?.toList.map (.single · (i + 1)) }) ∧
        g.initial = 0 ∧ g.deterministic = true ∧ g.hashCode = none) ?_ ?_).bind
          fun g ⟨hsize, hstate, hi, hd, hc⟩ => ?_)
  · refine ⟨rfl, fun i => ?_, rfl, rfl, rfl⟩
    cases i <;> rfl
  · rintro done c - - g ⟨hsize, hstate, hi, hd, -⟩
    have hlt : g.size - 1 < g.addState.size := by
      rw [Graph.size_addState]
      omega
    refine .of_eq (update_eq hlt _) ⟨?_, fun i => ?_, hi, hd, rfl⟩
    · rw [Graph.size_modify, Graph.size_addState, hsize, List.length_append]
      rfl
    · rw [Graph.state_modify, Graph.state_addState, hstate]
      by_cases hlast : i = done.length
      · rw [if_pos ⟨by omega, hlt⟩]
        simp [hlast, hsize, State.push]
      · rw [if_neg fun he => hlast (by omega)]
        rcases Nat.lt_or_gt_of_ne hlast with hlt | hgt
        · rw [List.getElem?_append_left hlt]
        · rw [List.getElem?_append_right (Nat.le_of_lt hgt),
            List.getElem?_eq_none (Nat.le_of_lt hgt), List.getElem?_eq_none (by simp; omega)]
  · refine .of_eq (update_eq (by omega) _) (Graph.ext_state ?_ (fun i hlt => ?_) hi hd rfl)
    · rw [Graph.size_modify, Graph.size_ofWord, hsize]
    · rw [Graph.size_modify, hsize] at hlt
      rw [Graph.state_modify, hstate, hsize]
      rcases Nat.lt_or_eq_of_le (Nat.le_of_lt_succ hlt) with hlt | rfl
      · rw [if_neg (by omega), Graph.state_ofWord_of_lt hlt, List.getElem?_eq_getElem hlt]
        rfl
      · simp [Graph.state_ofWord_length]

theorem toGraph_eq (a : Automaton) : toGraph a = .ok a.toGraph := by
  cases a with
  | singleton w => exact chain_eq w
  | graph g => rfl

theorem acceptsNothing_eq (ha : a.Proper) : acceptsNothing a = a.isEmpty := by
  cases a with
  | singleton w => rfl
  | graph g =>
    have hg : g.WellFormed := ha.wellFormed
    show isEmpty g = g.ensureIntact.map fun _ => g.isEmpty
    rw [isEmpty_eq hg, hg.ensureIntact]
    rfl

theorem ofRange_eq (c d : Char) : ofRange c d = .ok (Automaton.ofRange c d) := by
  unfold ofRange Automaton.ofRange
  split <;> rfl

theorem anyWord_eq : anyWord = .ok Automaton.anyWord := rfl

/-! ## Minimal automata -/

/-- The quotient by any faithful classes is the one by the classes that marking finds. -/
theorem quotient_of_faithful {k : Classes} (hg : g.WellFormed) (ht : g.Truthful)
    (hk : k.Faithful g.prepareTotal) :
    quotient g.prepareTotal k = .ok (g.prepareTotal.quotient g.markedClasses) := by
  have hprep := Graph.prepared_prepareTotal hg ht
  rw [quotient_eq hprep.wellFormed hk.size_eq hk.get_lt,
    hk.unique (Graph.faithful_markedClasses hg ht)]

theorem minimizeGraph_eq (m : Minimization) (hg : g.WellFormed) (ht : g.Truthful) :
    minimizeGraph m g = g.minimize m := by
  have hprep := Graph.prepared_prepareTotal hg ht
  cases m with
  | hopcroft =>
    unfold minimizeGraph
    dsimp only
    rw [determinize_eq hg, ok_bind, loopsOnAny_eq hg.determinize, ok_bind]
    cases hl : g.determinize.loopsOnAny with
    | true =>
      show _ = Refinement.minimize g
      unfold Refinement.minimize
      dsimp only
      rw [if_pos hl]
      rfl
    | false =>
      rw [Graph.minimize_hopcroft hg ht hl, if_neg Bool.false_ne_true,
        prepareTotal_eq hg.determinize, ok_bind, Graph.prepareTotal_determinize]
      exact Succeeds.eq_ok ((refinedClasses_spec hprep).bind fun k hk =>
        .of_eq (quotient_of_faithful hg ht hk) rfl)
  | brzozowski =>
    unfold minimizeGraph
    dsimp only
    rw [reverseDeterminize_eq hg, ok_bind]
    exact reverseDeterminize_eq (Graph.trimmed_trim _).wellFormed
  | huffman =>
    unfold minimizeGraph
    dsimp only
    rw [prepareTotal_eq hg, ok_bind]
    exact Succeeds.eq_ok ((markedClasses_spec hprep).bind fun k hk =>
      .of_eq (quotient_of_faithful hg ht hk) rfl)

theorem minimize_eq (m : Minimization) (ha : a.Proper) : minimize m a = a.minimize m := by
  cases a with
  | singleton w => rfl
  | graph g =>
    have hg : g.WellFormed := ha.wellFormed
    rw [Automaton.minimize_graph m hg, ← minimizeGraph_eq m hg ha.truthful]
    rfl

/-! ## Union -/

theorem branch_eq (hg : g.WellFormed) (hh : h.WellFormed) :
    branch g h = .ok (Automaton.branch g h) := by
  have hlt := Graph.add_initial_lt_append hh g
  refine absorb_eq ?_ ?_
  · exact (hg.append hh).initial_lt
  · rwa [Graph.shift_of_lt hh.initial_lt]

open Classical in
theorem union_eq (has : ∀ a ∈ as, a.Proper) : union as = Automaton.union as := by
  have hfilter : (as.filterM fun a => do return !(← a.isEmpty)) =
      .ok (as.filter fun a => !decide (a.language = 0)) :=
    filterM_eq_ok fun a ha => by rw [(has a ha).isEmpty_eq]; rfl
  have hfilter' : (as.filterM fun a => do return !(← acceptsNothing a)) =
      .ok (as.filter fun a => !decide (a.language = 0)) :=
    filterM_eq_ok fun a ha => by rw [acceptsNothing_eq (has a ha), (has a ha).isEmpty_eq]; rfl
  have hproper : ∀ a ∈ as.filter fun a => !decide (a.language = 0), a.Proper :=
    fun a ha => has a (List.mem_filter.1 ha).1
  unfold union Automaton.union
  rw [hfilter, hfilter', ok_bind, ok_bind]
  generalize as.filter (fun a => !decide (a.language = 0)) = live at hproper
  cases live with
  | nil =>
    have hstart : (({} : Graph).setDeterministic false).WellFormed :=
      WellFormed.setDeterministic Automaton.rooted_default.wellFormed false
    dsimp only
    rw [compact_eq hstart]
    rfl
  | cons a rest =>
    dsimp only
    cases rest.isEmpty || (a.isSingleton && rest.all (· = a)) with
    | true => rfl
    | false =>
      have hwf := Automaton.wellFormed_of_mem_map_toGraph hproper
      obtain ⟨hfold, l, hrooted⟩ := foldlM_eq_ok (f := branch)
        (I := fun g : Graph => ∃ l, Rooted g l) ⟨0, Automaton.rooted_default⟩
        fun g ⟨l, hg⟩ h hh => ⟨branch_eq hg.wellFormed (hwf h hh), _, hg.branch (hwf h hh)⟩
      rw [if_neg Bool.false_ne_true, if_neg Bool.false_ne_true, mapM_eq_ok fun a _ => toGraph_eq a,
        ok_bind, hfold, ok_bind, compact_eq (WellFormed.setDeterministic hrooted.wellFormed false)]
      rfl

/-! ## Concatenation -/

theorem continueIn_eq {init : Nat} (hinit : init < p.graph.size)
    (hqs : ∀ q ∈ qs, q < p.graph.size) :
    continueIn init qs p = .ok (Automaton.continueIn init qs p) := by
  induction qs generalizing p with
  | nil => rfl
  | cons q qs ih =>
    have hq := hqs q List.mem_cons_self
    have hsize : (p.graph.setAccept q false).size = p.graph.size := Graph.size_setAccept _ _ _
    unfold continueIn Automaton.continueIn
    rw [update_eq hq, ok_bind]
    show (absorb (p.graph.setAccept q false) q init >>= _) = _
    rw [absorb_eq (hsize ▸ hq) (hsize ▸ hinit), ok_bind,
      look_eq (by rwa [Graph.size_absorb, hsize]), ok_bind]
    refine ih ?_ fun r hr => ?_
    · rwa [Graph.size_absorb, hsize]
    · rw [Graph.size_absorb, hsize]
      exact hqs r (List.mem_cons_of_mem q hr)

theorem followBy_eq (hp : Opened p l) (hh : h.WellFormed) :
    followBy p h = .ok (Automaton.followBy p h) := by
  unfold followBy Automaton.followBy
  rw [acceptsOnlyEmptyWord_eq hh, ok_bind]
  cases h.acceptsOnlyEmptyWord with
  | true => rfl
  | false =>
    rw [if_neg Bool.false_ne_true, if_neg Bool.false_ne_true]
    dsimp only
    rw [acceptStates_eq hh, ok_bind]
    refine continueIn_eq ?_ (hp.lt_append h)
    rw [Graph.shift_of_lt hh.initial_lt]
    exact Graph.add_initial_lt_append hh p.graph

open Classical in
theorem concatenate_eq (has : ∀ a ∈ as, a.Proper) :
    concatenate as = Automaton.concatenate as := by
  have hany : as.anyM acceptsNothing = as.anyM Automaton.isEmpty := by
    rw [anyM_eq_ok fun a ha => (acceptsNothing_eq (has a ha)).trans (has a ha).isEmpty_eq,
      anyM_eq_ok fun a ha => (has a ha).isEmpty_eq]
  unfold concatenate Automaton.concatenate
  rw [hany, anyM_eq_ok fun a ha => (has a ha).isEmpty_eq]
  cases as.all Automaton.isSingleton with
  | true => rfl
  | false =>
    rw [if_neg Bool.false_ne_true, if_neg Bool.false_ne_true, ok_bind, ok_bind]
    cases as.any fun a => decide (a.language = 0) with
    | true => rfl
    | false =>
      rw [if_neg Bool.false_ne_true, if_neg Bool.false_ne_true, mapM_eq_ok fun a _ => toGraph_eq a,
        ok_bind]
      have hwf := Automaton.wellFormed_of_mem_map_toGraph has
      generalize as.map Automaton.toGraph = gs at hwf
      cases gs with
      | nil => rfl
      | cons g gs =>
        have hg := hwf g List.mem_cons_self
        obtain ⟨hfold, l, hopened⟩ := foldlM_eq_ok (f := followBy)
          (I := fun p : Prefix => ∃ l, Opened p l) ⟨_, Automaton.opened_start hg⟩
          fun p ⟨l, hp⟩ h hh =>
            have hh := hwf h (List.mem_cons_of_mem g hh)
            have hone : ∀ k ∈ [h], k.WellFormed := fun k hk => List.mem_singleton.1 hk ▸ hh
            ⟨followBy_eq hp hh, _, hp.foldl hone⟩
        dsimp only
        rw [acceptStates_eq hg, ok_bind, hfold, ok_bind,
          compact_eq (WellFormed.setDeterministic hopened.wellFormed false)]
        rfl

/-! ## Iteration -/

theorem acceptFirst_eq (hg : g.WellFormed) : acceptFirst g = .ok (Automaton.acceptFirst g) := by
  have hlt : g.size < g.addState.size := by
    rw [Graph.size_addState]
    omega
  rw [acceptFirst, absorb_eq hlt (Nat.lt_trans hg.initial_lt hlt), ok_bind,
    update_eq (by rwa [Graph.size_absorb])]
  rfl

theorem optional_eq (ha : a.Proper) : optional a = a.optional := by
  have hg := ha.toGraph_wellFormed
  unfold optional Automaton.optional
  dsimp only
  rw [toGraph_eq, ok_bind, acceptFirst_eq hg, ok_bind, Automaton.ensureInside_addState hg]
  rfl

theorem star_eq (ha : a.Proper) : star a = a.star := by
  have hg := ha.toGraph_wellFormed
  have hopened := Automaton.wellFormed_acceptFirst hg
  have hlooped := Automaton.wellFormed_looped hg
  rw [Automaton.star_eq ha, star, toGraph_eq, ok_bind, acceptFirst_eq hg, ok_bind,
    acceptStates_eq hopened, ok_bind, absorbInto_eq hopened.lt_of_mem_acceptStates (by simp),
    ok_bind]
  show (compact ((Automaton.looped a.toGraph).setDeterministic false) >>= _) = _
  rw [compact_eq (WellFormed.setDeterministic hlooped false)]
  rfl

theorem atLeast_eq (ha : a.Proper) (n : Nat) : atLeast a n = a.atLeast n := by
  obtain ⟨rest, hrest, hproper, -⟩ := Automaton.computes_star ha
  unfold atLeast Automaton.atLeast
  rw [star_eq ha, hrest, ok_bind, ok_bind, concatenate_eq (ha.replicate_append hproper n)]

theorem mayContinue_eq (hg : g.WellFormed) (hh : h.WellFormed) :
    mayContinue g h = Automaton.mayContinue g h := by
  rw [Automaton.mayContinue_eq hg hh, mayContinue, acceptStates_eq hg, ok_bind,
    Graph.shift_of_lt hh.initial_lt]
  exact absorbInto_eq (Automaton.lt_append_of_mem_acceptStates hg h)
    (Graph.add_initial_lt_append hh g)

theorem upTo_eq (hg : g.WellFormed) (n : Nat) : upTo g n = Automaton.upTo g n := by
  induction n with
  | zero => rfl
  | succ n ih =>
    obtain ⟨h, hh, hwf, -⟩ := Automaton.exists_upTo hg n
    unfold upTo Automaton.upTo
    rw [ih, hh]
    exact mayContinue_eq hg hwf

theorem required_eq (ha : a.Proper) (lo : Nat) : required a lo = a.required lo := by
  match lo with
  | 0 => rfl
  | 1 => rfl
  | lo + 2 => exact concatenate_eq fun b hb => List.eq_of_mem_replicate hb ▸ ha

theorem repeated_eq (ha : a.Proper) (lo hi : Nat) : repeated a lo hi = a.repeated lo hi := by
  obtain ⟨first, hfirst, hproper, -⟩ := Automaton.computes_required ha lo
  obtain ⟨rest, hrest, hwf, -⟩ := Automaton.exists_upTo ha.toGraph_wellFormed (hi - lo - 1)
  have hr := hproper.toGraph_wellFormed
  have hwhole := Automaton.wellFormed_mayFollow hr hwf
  rw [Automaton.repeated_eq, repeated, required_eq ha, hfirst]
  by_cases hlt : hi < lo
  · rw [if_pos hlt, if_pos hlt]
    rfl
  rw [if_neg hlt, if_neg hlt, ok_bind]
  show _ = if hi = lo then Except.ok first else _
  by_cases heq : hi = lo
  · rw [if_pos heq, if_pos heq]
    rfl
  · rw [if_neg heq, if_neg heq, toGraph_eq, ok_bind, upTo_eq ha.toGraph_wellFormed, hrest, ok_bind,
      toGraph_eq, ok_bind, mayContinue_eq hr hwf]
    show _ = (Automaton.mayContinue first.toGraph rest).bind _
    rw [Automaton.mayContinue_eq hr hwf]
    generalize Automaton.mayFollow first.toGraph rest = whole at hwhole
    rw [ok_bind, compact_eq (WellFormed.setDeterministic hwhole false)]
    show _ = whole.ensureIntact.bind _
    rw [hwhole.ensureIntact]
    rfl

/-! ## Intersection and complement -/

theorem meetsAt_eq {x : StatePair} (hx : x.1 < g.size ∧ x.2 < h.size) :
    meetsAt g.sortedTable h.sortedTable x = .ok (g.pairRow h x) := by
  have hread : ∀ {g : Graph} {q : Nat}, q < g.size →
      g.sortedTable[q]? = some (g.sortedTable.getD q []) := by
    intro g q hq
    have hq : q < g.states.size := hq
    simp [Graph.sortedTable, hq]
  rw [meetsAt, read_eq_ok (hread hx.1), ok_bind, read_eq_ok (hread hx.2)]
  rfl

theorem product_eq (hg : g.WellFormed) (hh : h.WellFormed) :
    product g h = .ok (g.productOn h (g.productPairs h)) := by
  have hunder : Graph.ClosedUnder (g.pairRow h) (g.productPairs h) :=
    Graph.closedUnder_discover (Graph.initial_mem_mentioned g h) (Graph.closedUnder_mentioned g h)
      (Graph.length_mentioned_product g h)
  have haccept : ∀ x : StatePair, x.1 < g.size ∧ x.2 < h.size →
      acceptsBoth g h x = .ok (g.acceptsBoth h x) := fun x hx => by
    rw [acceptsBoth, look_eq hx.1, ok_bind, look_eq hx.2]
    rfl
  have hunfold := unfold_eq (P := fun x : StatePair => x.1 < g.size ∧ x.2 < h.size)
    ⟨hg.initial_lt, hh.initial_lt⟩ (fun x hx => meetsAt_eq hx) (fun x hx e he => by
      obtain ⟨t, ht, u, hu, _, rfl⟩ := Graph.mem_pairRow.1 he
      exact ⟨hg.target_lt x.1 hx.1 t ht, hh.target_lt x.2 hx.2 u hu⟩) haccept hunder
  rw [product, sortedTable_eq, ok_bind, sortedTable_eq, ok_bind]
  show (unfold (acceptsBoth g h) (meetsAt g.sortedTable h.sortedTable) _ _ >>= _) = _
  rw [hunfold, ok_bind, Graph.productOn_eq]
  refine trim_eq (WellFormed.setDeterministic ?_ _)
  exact Graph.wellFormed_ofItems hunder (Graph.nodup_discover _ _ _)
    (List.ne_nil_of_mem Graph.start_mem_discover)

theorem intersection_eq (ha : a.Proper) (hb : b.Proper) : intersection a b = a.intersection b := by
  match a, b, ha, hb with
  | .singleton w, b, _, _ => rfl
  | .graph g, .singleton w, _, _ => rfl
  | .graph g, .graph h, ha, hb =>
    unfold intersection Automaton.intersection
    dsimp only
    rw [product_eq ha.wellFormed hb.wellFormed,
      if_pos (Graph.inside_productPairs ha.wellFormed hb.wellFormed)]
    rfl

theorem flipAccept_eq (hg : g.WellFormed) : flipAccept g = .ok g.flipAccept := by
  rw [flipAccept, reachable_eq hg, ok_bind]
  exact updateAll_reachable_eq hg _

theorem wellFormed_flipAccept (hg : g.WellFormed) : g.flipAccept.WellFormed :=
  wellFormed_modifyAll hg fun s => List.Subset.refl s.transitions

theorem complement_eq (ha : a.Proper) : complement a = a.complement := by
  have hg := ha.toGraph_wellFormed
  have htotal := hg.determinize.totalize
  rw [Automaton.complement_eq ha.wellFormed, complement, toGraph_eq, ok_bind, determinize_eq hg,
    ok_bind, totalize_eq hg.determinize, ok_bind, flipAccept_eq htotal, ok_bind,
    trim_eq (wellFormed_flipAccept htotal)]
  rfl

theorem minus_eq (ha : a.Proper) (hb : b.Proper) : minus a b = a.minus b := by
  unfold minus Automaton.minus
  rw [acceptsNothing_eq ha, acceptsNothing_eq hb]
  cases a with
  | singleton w => rfl
  | graph g =>
    obtain ⟨c, hc, hproper, -⟩ := Automaton.computes_complement hb
    dsimp only
    rw [complement_eq hb, hc, ok_bind, ok_bind, intersection_eq ha hproper]

end RegLang.Checked
