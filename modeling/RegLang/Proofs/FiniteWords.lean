import RegLang.Proofs.Cycles
import RegLang.Proofs.Letters
/-!
# The words of a finite language

A visit yields the words that begin with what was read on its path and go on from its state to
acceptance: the word that was read, if the state accepts, and what the visits of the live targets
yield.  So throughout the walk all words are those that were found and those that the visits to be
made will yield.  The depth of the walk is bounded, but a path that has not met itself has no more
states than there are.

* `ends_visit`: the bound on the depth is not met.
* `Ends.mem_iff`: if the walk ends with words, it has found all that the visits yield.
* `Ends.failure`: if it ends without, there is a cycle or there are too many words.
* `Automaton.finiteWords_spec`: the words are listed exactly if they are finitely many and not more
  than allowed.
-/

namespace RegLang

open RegLang.Graph (Trail Acyclic)

namespace FiniteWords

variable {g : Graph} {live : List Nat} {limit : Option Nat} {v : Visit} {vs : List Visit}
  {found more : List Word} {r : Option (List Word)} {w : Word}

/-! ## The walk ends -/

/-- What has come of some visits goes on with others, unless it was a failure. -/
def Continues (g : Graph) (live : List Nat) (limit : Option Nat) (vs : List Visit) :
    Option (List Word) → Option (List Word) → Prop
  | none, r => r = none
  | some found, r => Ends g live limit vs found r

theorem Continues.bind {us : List Visit} {x : Option (List Word)}
    {f : List Word → Option (List Word)} (h : Continues g live limit vs (x.bind f) r)
    (hf : ∀ found, Continues g live limit vs (f found) r → Ends g live limit us found r) :
    Continues g live limit us x r := by
  cases x with
  | none => exact h
  | some found => exact hf found h

/-- The visits along an interval are made letter by letter. -/
theorem ends_eachLetter {visit : Char → List Word → Option (List Word)} {next : Char → Visit}
    (hvisit : ∀ c us found, Continues g live limit us (visit c found) r →
      Ends g live limit (next c :: us) found r)
    (count n : Nat) {found : List Word}
    (h : Continues g live limit vs (eachLetter visit count n found) r) :
    Ends g live limit (((List.range' n count).map fun i => next (Alphabet.ofRank i)) ++ vs)
      found r := by
  induction count generalizing n found with
  | zero => exact h
  | succ count ih =>
    rw [List.range'_succ, List.map_cons, List.cons_append]
    exact hvisit _ _ _ (h.bind fun found hrest => ih (n + 1) hrest)

/-- What comes of the words found along one transition. -/
def follow (g : Graph) (live : List Nat) (limit : Option Nat) (depth : Nat) (v : Visit)
    (found : List Word) (t : Transition) : Option (List Word) :=
  if (v.state :: v.path).contains t.target then none
  else
    eachLetter
      (fun c found => visit g live limit depth (v.state :: v.path) (c :: v.read) t.target found)
      (Alphabet.count t.lo t.hi) (Alphabet.rank t.lo) found

theorem visit_succ (g : Graph) (live : List Nat) (limit : Option Nat) (depth : Nat) (v : Visit)
    (found : List Word) : visit g live limit (depth + 1) v.path v.read v.state found =
      (v.collect g limit found).bind fun found =>
        ((g.state v.state).transitions.filter fun t => live.contains t.target).foldlM
          (follow g live limit depth v) found := rfl

theorem ends_follow {depth : Nat} {t : Transition}
    (hvisit : t.target ∉ v.state :: v.path → ∀ c us found,
      Continues g live limit us
        (visit g live limit depth (v.state :: v.path) (c :: v.read) t.target found) r →
      Ends g live limit (⟨v.state :: v.path, c :: v.read, t.target⟩ :: us) found r)
    (h : Continues g live limit vs (follow g live limit depth v found t) r) :
    Ends g live limit (v.along t ++ vs) found r := by
  unfold follow at h
  split at h
  · next hmet =>
    -- the first letter of the transition leads back to the path already
    have hne : Alphabet.between t.lo t.hi ≠ [] :=
      List.ne_nil_of_mem (Alphabet.mem_between.2 ⟨Char.le_refl _, t.lo_le_hi⟩)
    obtain ⟨c, cs, hcs⟩ := List.exists_cons_of_ne_nil hne
    have hr : r = none := h
    rw [Visit.along, hcs, List.map_cons, List.cons_append, hr]
    exact .met (List.contains_iff_mem.1 hmet)
  · next hmet =>
    rw [Visit.along, Alphabet.between, List.map_map]
    exact ends_eachLetter (hvisit fun hm => hmet (List.contains_iff_mem.2 hm)) _ _ h

/-- A path does not pass a state twice, so a depth of as many states as there are is enough. -/
theorem ends_visit (g : Graph) (limit : Option Nat) (depth : Nat) {v : Visit} {vs : List Visit}
    {found : List Word} (hnodup : (v.state :: v.path).Nodup) (hlive : v.state :: v.path ⊆ live)
    (hdepth : live.length < v.path.length + depth)
    (h : Continues g live limit vs (visit g live limit depth v.path v.read v.state found) r) :
    Ends g live limit (v :: vs) found r := by
  induction depth generalizing v vs found with
  | zero =>
    have hle := (hnodup.subperm hlive).length_le
    rw [List.length_cons] at hle
    omega
  | succ depth ih =>
    have hoff : v.state ∉ v.path := (List.nodup_cons.1 hnodup).1
    -- one transition after the other
    have hfold : ∀ (ts : List Transition), (∀ t ∈ ts, t.target ∈ live) → ∀ found,
        Continues g live limit vs (ts.foldlM (follow g live limit depth v) found) r →
        Ends g live limit (ts.flatMap v.along ++ vs) found r := by
      intro ts hts
      induction ts with
      | nil => exact fun _ h => h
      | cons t ts ihts =>
        intro found h
        obtain ⟨ht, hts⟩ := List.forall_mem_cons.1 hts
        rw [List.foldlM_cons] at h
        rw [List.flatMap_cons, List.append_assoc]
        refine ends_follow (fun htarget c us found hc => ?_) (h.bind (ihts hts))
        refine ih (List.nodup_cons.2 ⟨htarget, hnodup⟩) (List.cons_subset.2 ⟨ht, hlive⟩) ?_ hc
        rw [List.length_cons]
        omega
    have hts : ∀ t ∈ (g.state v.state).transitions.filter fun t => live.contains t.target,
        t.target ∈ live := fun t ht => List.contains_iff_mem.1 (List.mem_filter.1 ht).2
    rw [visit_succ] at h
    cases hcollect : v.collect g limit found with
    | none =>
      rw [hcollect] at h
      have hr : r = none := h
      exact hr ▸ .full hoff hcollect
    | some more =>
      rw [hcollect] at h
      exact .visit hoff hcollect (hfold _ hts more h)

/-- The walk has one answer. -/
theorem Ends.unique {r' : Option (List Word)} (h : Ends g live limit vs found r)
    (h' : Ends g live limit vs found r') : r = r' := by
  induction h with
  | finished =>
    cases h' with
    | finished => rfl
  | met hmem =>
    cases h' with
    | met => rfl
    | full => rfl
    | visit hoff => exact absurd hmem hoff
  | full _ hover =>
    cases h' with
    | met => rfl
    | full => rfl
    | visit _ hcollect =>
      rw [hover] at hcollect
      cases hcollect
  | visit hoff hcollect _ ih =>
    cases h' with
    | met hmem => exact absurd hmem hoff
    | full _ hover =>
      rw [hover] at hcollect
      cases hcollect
    | visit _ hcollect' hrest =>
      cases hcollect.symm.trans hcollect'
      exact ih hrest

/-! ## What is found -/

/-- A visit along a path of live states from the initial one. -/
structure Visit.Valid (g : Graph) (v : Visit) : Prop where
  trail : g.Trail (v.state :: v.path)
  reads : g.Path g.initial v.read.reverse v.state
  live : v.state ∈ g.live

theorem valid_start (h : g.initial ∈ g.live) : (Visit.start g).Valid g :=
  ⟨.singleton _, .nil _, h⟩

theorem mem_next {u : Visit} : u ∈ v.next g live ↔ ∃ t ∈ (g.state v.state).transitions,
    t.target ∈ live ∧ ∃ c, t.contains c = true ∧
      ⟨v.state :: v.path, c :: v.read, t.target⟩ = u := by
  simp only [Visit.next, Visit.along, List.mem_flatMap, List.mem_filter, List.contains_iff_mem,
    List.mem_map, Graph.mem_between_iff_contains, and_assoc]

theorem Visit.Valid.next (hv : v.Valid g) {u : Visit} (hu : u ∈ v.next g g.live) : u.Valid g := by
  obtain ⟨t, ht, hlive, c, hc, rfl⟩ := mem_next.1 hu
  refine ⟨List.isChain_cons_cons.2 ⟨State.mem_targets.2 ⟨t, ht, rfl⟩, hv.trail⟩, ?_, hlive⟩
  rw [List.reverse_cons]
  exact Graph.path_append_iff.2 ⟨v.state, hv.reads, .cons ht hc (.nil _)⟩

/-- A path that comes back to one of its states closes a cycle. -/
theorem Visit.Valid.exists_cycle (hv : v.Valid g) (hmem : v.state ∈ v.path) :
    ∃ w, w ≠ [] ∧ g.Path v.state w v.state := by
  have htrail := hv.trail
  cases hpath : v.path with
  | nil =>
    rw [hpath] at hmem
    cases hmem
  | cons q path =>
    rw [hpath] at hmem htrail
    obtain ⟨htarget, htail⟩ := List.isChain_cons_cons.1 htrail
    exact Trail.exists_cycle htail hmem htarget

/-- The words that begin with what was read and go on from the state to acceptance. -/
def Visit.Yields (g : Graph) (v : Visit) (w : Word) : Prop :=
  ∃ u, g.AcceptsFrom v.state u ∧ w = v.read.reverse ++ u

theorem Visit.Valid.accepts (hv : v.Valid g) (h : v.Yields g w) : g.Accepts w := by
  obtain ⟨u, ⟨q, hq, ha⟩, rfl⟩ := h
  exact ⟨q, Graph.path_append_iff.2 ⟨v.state, hv.reads, hq⟩, ha⟩

/-- A word either ends where it was read, or goes on along a transition to a live state. -/
theorem Visit.Valid.yields_iff (hv : v.Valid g) : v.Yields g w ↔
    ((g.state v.state).accept = true ∧ w = v.read.reverse) ∨
      ∃ u ∈ v.next g g.live, u.Yields g w := by
  constructor
  · rintro ⟨u, hu, rfl⟩
    cases u with
    | nil => exact .inl ⟨Graph.acceptsFrom_nil_iff.1 hu, List.append_nil _⟩
    | cons c u =>
      obtain ⟨p, hp, hw⟩ := Graph.acceptsFrom_cons_iff.1 hu
      obtain ⟨t, ht, hc, rfl⟩ := State.mem_stepAll.1 hp
      have hreach := (Graph.mem_live_iff.1 hv.live).1.stepAll hp
      refine .inr ⟨_, mem_next.2 ⟨t, ht, Graph.mem_live_iff.2 ⟨hreach, u, hw⟩,
        c, hc, rfl⟩, u, hw, ?_⟩
      simp
  · rintro (⟨ha, rfl⟩ | ⟨u, hu, x, hx, rfl⟩)
    · exact ⟨[], Graph.acceptsFrom_nil_iff.2 ha, (List.append_nil _).symm⟩
    · obtain ⟨t, ht, -, c, hc, rfl⟩ := mem_next.1 hu
      have hstep : t.target ∈ (g.state v.state).stepAll c := State.mem_stepAll.2 ⟨t, ht, hc, rfl⟩
      refine ⟨c :: x, Graph.acceptsFrom_cons_iff.2 ⟨t.target, hstep, hx⟩, ?_⟩
      simp

/-! ## The words that were found -/

/-- Accepted words in ascending order, at most as many as allowed. -/
structure Collected (g : Graph) (limit : Option Nat) (found : List Word) : Prop where
  ascending : found.Pairwise (· < ·)
  accepted : ∀ w ∈ found, g.Accepts w
  length_le : ∀ l, limit = some l → found.length ≤ l

/-- More words are accepted than allowed. -/
def Exceeds (g : Graph) (limit : Option Nat) : Prop :=
  ∃ l, limit = some l ∧ ∃ ws : List Word, ws.Nodup ∧ (∀ w ∈ ws, g.Accepts w) ∧ l < ws.length

theorem pairwise_insert (w : Word) (h : found.Pairwise (· < ·)) :
    (SortedList.insert w found).Pairwise (· < ·) := by
  refine SortedList.pairwise_insert (fun a b c => List.lt_trans) (fun a b hne hlt => ?_) h
  obtain hab | hab | hab := Std.lt_trichotomy a b
  · exact absurd hab hlt
  · exact absurd hab hne
  · exact hab

theorem nodup_of_ascending (h : found.Pairwise (· < ·)) : found.Nodup := by
  refine h.imp fun {a b} hab heq => ?_
  rw [heq] at hab
  exact List.lt_irrefl b hab

/-- An accepted word that is added is one more word, unless that is one too many. -/
theorem collected_add (hf : Collected g limit found) (hw : g.Accepts w) :
    (add limit w found = none ∧ Exceeds g limit) ∨
      ∃ more, add limit w found = some more ∧ Collected g limit more ∧
        ∀ v, v ∈ more ↔ v ∈ found ∨ v = w := by
  have hasc := pairwise_insert w hf.ascending
  have hacc : ∀ v ∈ SortedList.insert w found, g.Accepts v := by
    intro v hv
    rcases SortedList.mem_insert.1 hv with rfl | hv
    · exact hw
    · exact hf.accepted v hv
  have hmem : ∀ v, v ∈ SortedList.insert w found ↔ v ∈ found ∨ v = w := fun v =>
    SortedList.mem_insert.trans or_comm
  cases limit with
  | none => exact .inr ⟨_, rfl, ⟨hasc, hacc, fun l hl => by cases hl⟩, hmem⟩
  | some l =>
    unfold add
    dsimp only
    split
    · next hover => exact .inl ⟨rfl, l, rfl, _, nodup_of_ascending hasc, hacc, hover⟩
    · next hover =>
      refine .inr ⟨_, rfl, ⟨hasc, hacc, fun m hm => ?_⟩, hmem⟩
      cases hm
      exact Nat.le_of_not_lt hover

/-- What a visit does to the words found. -/
theorem collected_visit (hv : v.Valid g) (hf : Collected g limit found) :
    (v.collect g limit found = none ∧ Exceeds g limit) ∨
      ∃ more, v.collect g limit found = some more ∧ Collected g limit more ∧
        ∀ w, w ∈ more ↔ w ∈ found ∨ ((g.state v.state).accept = true ∧ w = v.read.reverse) := by
  unfold Visit.collect
  cases ha : (g.state v.state).accept with
  | false => exact .inr ⟨found, rfl, hf, fun w => by simp⟩
  | true =>
    simp only [true_and]
    exact collected_add hf ⟨v.state, hv.reads, ha⟩

/-! ## What the walk answers -/

/-- If the walk ends with words, these are the words found before and those of all visits. -/
theorem Ends.mem_iff (h : Ends g g.live limit vs found r) (hvs : ∀ v ∈ vs, v.Valid g)
    (hf : Collected g limit found) (hr : r = some more) :
    Collected g limit more ∧ ∀ w, w ∈ more ↔ w ∈ found ∨ ∃ v ∈ vs, v.Yields g w := by
  induction h with
  | finished =>
    cases hr
    exact ⟨hf, fun w => by simp⟩
  | met => cases hr
  | full => cases hr
  | @visit v vs found found' r _ hcollect _ ih =>
    obtain ⟨hv, hvs⟩ := List.forall_mem_cons.1 hvs
    obtain ⟨hnone, -⟩ | ⟨found₂, hfound, hf', hmem⟩ := collected_visit hv hf
    · rw [hnone] at hcollect
      cases hcollect
    · cases hfound.symm.trans hcollect
      have hnext : ∀ u ∈ v.next g g.live ++ vs, u.Valid g := by
        intro u hu
        exact (List.mem_append.1 hu).elim hv.next (hvs u)
      obtain ⟨hmore, hiff⟩ := ih hnext hf' hr
      refine ⟨hmore, fun w => ?_⟩
      have hsplit : (∃ u ∈ v.next g g.live ++ vs, u.Yields g w) ↔
          (∃ u ∈ v.next g g.live, u.Yields g w) ∨ ∃ u ∈ vs, u.Yields g w := by
        simp only [List.mem_append, or_and_right, exists_or]
      rw [hiff, hsplit, hmem, List.exists_mem_cons_iff, hv.yields_iff]
      simp only [or_assoc]

/-- If the walk ends with a failure, it met a cycle or found too many words. -/
theorem Ends.failure (h : Ends g g.live limit vs found r) (hvs : ∀ v ∈ vs, v.Valid g)
    (hf : Collected g limit found) (hr : r = none) : ¬ g.Acyclic ∨ Exceeds g limit := by
  induction h with
  | finished => cases hr
  | @met v vs found hmem =>
    obtain ⟨hv, -⟩ := List.forall_mem_cons.1 hvs
    obtain ⟨w, hne, hw⟩ := hv.exists_cycle hmem
    exact .inl fun hacyclic => hne (hacyclic v.state w (Graph.mem_live_iff.1 hv.live) hw)
  | @full v vs found _ hcollect =>
    obtain ⟨hv, -⟩ := List.forall_mem_cons.1 hvs
    obtain ⟨-, hover⟩ | ⟨more, hmore, -⟩ := collected_visit hv hf
    · exact .inr hover
    · rw [hmore] at hcollect
      cases hcollect
  | @visit v vs found found' r _ hcollect _ ih =>
    obtain ⟨hv, hvs⟩ := List.forall_mem_cons.1 hvs
    obtain ⟨hnone, -⟩ | ⟨found₂, hfound, hf', -⟩ := collected_visit hv hf
    · rw [hnone] at hcollect
      cases hcollect
    · cases hfound.symm.trans hcollect
      refine ih (fun u hu => ?_) hf' hr
      exact (List.mem_append.1 hu).elim hv.next (hvs u)

end FiniteWords

namespace Graph

open FiniteWords (Ends Visit Exceeds)

variable {g : Graph} {limit : Option Nat}

theorem finiteWords_eq (g : Graph) (limit : Option Nat) : g.finiteWords limit =
    if g.live.contains g.initial then
      FiniteWords.visit g g.live limit (g.size + 1) [] [] g.initial []
    else some [] := rfl

/-- The walk ends within its depth. -/
theorem ends_finiteWords (hg : g.WellFormed) (limit : Option Nat) (hlive : g.IsLive g.initial) :
    Ends g g.live limit [.start g] [] (g.finiteWords limit) := by
  have hmem := mem_live_iff.2 hlive
  have hlt : g.live ⊆ List.range g.size := fun p hp =>
    List.mem_range.2 (hg.lt_of_isReachable (mem_live_iff.1 hp).1)
  have hlen := (g.nodup_live.subperm hlt).length_le
  rw [List.length_range] at hlen
  apply FiniteWords.ends_visit g limit (g.size + 1) (v := .start g)
  · exact List.nodup_singleton g.initial
  · exact List.cons_subset.2 ⟨hmem, List.nil_subset _⟩
  · show g.live.length < 0 + (g.size + 1)
    omega
  · rw [finiteWords_eq, if_pos (List.contains_iff_mem.2 hmem)]
    show FiniteWords.Continues g g.live limit [] (FiniteWords.visit _ _ _ _ [] [] g.initial []) _
    cases FiniteWords.visit g g.live limit (g.size + 1) [] [] g.initial [] with
    | none => rfl
    | some found => exact .finished

theorem not_finite_of_exceeds (h : Exceeds g limit) : ¬ ({w | g.Accepts w}.Finite ∧
    ∀ l, limit = some l → {w | g.Accepts w}.ncard ≤ l) := by
  rintro ⟨hfin, hcard⟩
  obtain ⟨l, hl, ws, hnodup, hacc, hlt⟩ := h
  have hsub : (ws.toFinset : Set Word) ⊆ {w | g.Accepts w} := fun w hw =>
    hacc w (List.mem_toFinset.1 hw)
  have hle := Set.ncard_le_ncard hsub hfin
  rw [Set.ncard_coe_finset, List.toFinset_card_of_nodup hnodup] at hle
  have := hcard l hl
  omega

end Graph

namespace Automaton

variable {a : Automaton}

/-- An answer to the question for all words: they are listed if they are finitely many and not more
than allowed, and only then. -/
structure Lists (P : Word → Prop) (limit : Option Nat) (r : Option (List Word)) : Prop where
  isSome_iff : r.isSome = true ↔
    {w | P w}.Finite ∧ ∀ l, limit = some l → {w | P w}.ncard ≤ l
  ascending : ∀ ws, r = some ws → ws.Pairwise (· < ·)
  mem_iff : ∀ ws, r = some ws → ∀ w, w ∈ ws ↔ P w

theorem lists_some {P : Word → Prop} {limit : Option Nat} {ws : List Word}
    (hasc : ws.Pairwise (· < ·)) (hmem : ∀ w, w ∈ ws ↔ P w)
    (hle : ∀ l, limit = some l → ws.length ≤ l) : Lists P limit (some ws) := by
  obtain ⟨hfin, hcard⟩ := ncard_eq_length (FiniteWords.nodup_of_ascending hasc) hmem
  refine ⟨iff_of_true rfl ⟨hfin, fun l hl => hcard ▸ hle l hl⟩, fun ws' h => ?_, fun ws' h => ?_⟩
  · cases h
    exact hasc
  · cases h
    exact hmem

theorem lists_none {P : Word → Prop} {limit : Option Nat}
    (h : ¬ ({w | P w}.Finite ∧ ∀ l, limit = some l → {w | P w}.ncard ≤ l)) : Lists P limit none :=
  ⟨iff_of_false Bool.false_ne_true h, fun _ h => (nomatch h), fun _ h => (nomatch h)⟩

theorem lists_finiteWords {g : Graph} (hg : g.WellFormed) (limit : Option Nat) :
    Lists g.Accepts limit (g.finiteWords limit) := by
  by_cases hlive : g.IsLive g.initial
  · have hends := Graph.ends_finiteWords hg limit hlive
    have hvalid : ∀ v ∈ [FiniteWords.Visit.start g], v.Valid g :=
      List.forall_mem_singleton.2 (FiniteWords.valid_start (Graph.mem_live_iff.2 hlive))
    have hnil : FiniteWords.Collected g limit [] :=
      ⟨.nil, fun _ h => absurd h List.not_mem_nil, fun _ _ => Nat.zero_le _⟩
    cases hr : g.finiteWords limit with
    | some ws =>
      obtain ⟨hws, hmem⟩ := hends.mem_iff hvalid hnil hr
      refine lists_some hws.ascending (fun w => (hmem w).trans ?_) hws.length_le
      constructor
      · rintro (h | ⟨v, hv, h⟩)
        · cases h
        · exact (hvalid v hv).accepts h
      · intro h
        exact .inr ⟨_, List.mem_singleton_self _, w, h, rfl⟩
    | none =>
      refine lists_none ?_
      obtain hcycle | hover := hends.failure hvalid hnil hr
      · exact fun h => hcycle (Graph.acyclic_of_finite h.1)
      · exact Graph.not_finite_of_exceeds hover
  · have hmem : ¬ g.live.contains g.initial = true := fun h =>
      hlive (Graph.mem_live_iff.1 (List.contains_iff_mem.1 h))
    rw [Graph.finiteWords_eq, if_neg hmem]
    refine lists_some .nil (fun w => ?_) fun l _ => Nat.zero_le l
    exact iff_of_false List.not_mem_nil fun h => hlive ⟨g.isReachable_initial, w, h⟩

/-- All words are listed in ascending order if they are finitely many and not more than allowed;
in every other case there is no list.  The walk along all paths ends. -/
theorem finiteWords_spec (ha : a.WellFormed) (limit : Option Nat) :
    ∃ r, a.finiteWords limit = .ok r ∧ Lists a.Accepts limit r ∧
      ∀ g, a = graph g → g.IsLive g.initial → ∀ r',
        FiniteWords.Ends g g.live limit [.start g] [] r' ↔ r' = r := by
  cases a with
  | singleton v =>
    refine ⟨_, rfl, ?_, fun g h => by cases h⟩
    have hmem : ∀ w, w ∈ [v] ↔ (singleton v).Accepts w := fun w => List.mem_singleton
    split
    · next hzero =>
      refine lists_none fun h => ?_
      have hcard := (ncard_eq_length (List.nodup_singleton v) hmem).2
      have hle := h.2 0 hzero
      rw [hcard] at hle
      cases hle
    · next hzero =>
      refine lists_some (List.pairwise_singleton _ _) hmem fun l hl => ?_
      have hpos : l ≠ 0 := fun h => hzero (by rw [hl, h])
      exact Nat.pos_of_ne_zero hpos
  | graph g =>
    have hg : g.WellFormed := ha
    refine ⟨g.finiteWords limit, ?_, lists_finiteWords hg limit, fun h hgh hlive r => ?_⟩
    · rw [finiteWords, hg.ensureIntact]
      rfl
    · cases hgh
      have hends := Graph.ends_finiteWords hg limit hlive
      exact ⟨fun h => h.unique hends, fun h => h ▸ hends⟩

/-- A word that is read along two paths, and a loop without acceptance. -/
def braided : Graph where
  states := #[{ transitions := [.between 'a' 'b' 1, .between 'b' 'c' 1, .single 'a' 2] },
    { accept := true }, { transitions := [.onAny 2] }]
  deterministic := false

theorem finiteWords_spec_braided : (graph braided).WellFormed ∧
    (graph braided).finiteWords (some 3) = .ok (some [['a'], ['b'], ['c']]) ∧
    ∀ w, w ∈ [['a'], ['b'], ['c']] ↔ braided.Accepts w := by
  have hwf : (graph braided).WellFormed := ⟨by decide, by decide⟩
  obtain ⟨r, hr, hlists, _⟩ := finiteWords_spec hwf (some 3)
  have hthree : (graph braided).finiteWords (some 3) = .ok (some [['a'], ['b'], ['c']]) := by
    decide
  cases Except.ok.inj (hr.symm.trans hthree)
  exact ⟨hwf, hthree, hlists.mem_iff _ rfl⟩

end Automaton

end RegLang
