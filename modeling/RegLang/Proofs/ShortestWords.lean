import RegLang.Proofs.Levels
import RegLang.Proofs.Product
/-!
# Shortest words

From level to level the search comes to its end, and the best word it has met is the least of all
words that lead to a state looked for.  Which words are rejected shows at a state only where every
letter leads on to exactly one state; so that question is put to the determinized and total graph.

* `Progress.report`, `Progress.expand`: what one step of the search keeps.
* `succeeds_search`, `succeeds_inGraph`: the search comes to its end, with the least word.
* `Automaton.shortest_spec`: the least word that is accepted, and the least that is rejected.
-/

namespace RegLang

namespace Shortest

open Word (AtMost)

variable {g : Graph} {accepted : Bool} {s s' : Search} {q : Nat} {v w : Word} {n : Nat}
  {done near far : List Nat}

/-! ## A run of the search -/

/-- The words of the states looked for that were searched. -/
def Found (g : Graph) (accepted : Bool) (done : List Nat) (s : Search) (w : Word) : Prop :=
  ∃ q ∈ done, (g.state q).accept = accepted ∧ s.word? q = some w

theorem found_concat : Found g accepted (done ++ [q]) s w ↔
    Found g accepted done s w ∨ ((g.state q).accept = accepted ∧ s.word? q = some w) := by
  simp only [Found, List.mem_append, List.mem_singleton, or_and_right, exists_or, exists_eq_left]

theorem found_congr (h : ∀ q ∈ done, s'.word? q = s.word? q) :
    Found g accepted done s w ↔ Found g accepted done s' w :=
  exists_congr fun q => and_congr_right fun hq => by rw [h q hq]

/-- The search amid a level: what was searched is closed, and the best word is the least of those
that were looked for. -/
structure Progress (g : Graph) (accepted : Bool) (n : Nat) (done near far : List Nat) (s : Search) :
    Prop extends Level g accepted n done near far s where
  closed : Closed g accepted done s
  best : Least (Found g accepted done s) s.best

/-- Searching a state that is not looked for. -/
theorem Progress.expand (h : Progress g accepted n done (q :: near) far s)
    (hq : (g.state q).accept ≠ accepted) (hw : s.word? q = some w) :
    ∃ far', Progress g accepted n (done ++ [q]) near far' ((g.state q).transitions.foldl
      (fun s t => learn s t.target (w ++ [t.lo])) { s with queue := near ++ far }) := by
  obtain ⟨u, hu, hlen⟩ := h.wordNear q List.mem_cons_self
  obtain rfl : w = u := Option.some.inj (hw.symm.trans hu)
  have hlead := (h.leads q w hw).1
  obtain ⟨s', hs', ⟨far', hlevel⟩, hrefines, hall⟩ :=
    h.pop.learnAll hlen (g.state q).transitions fun t mem =>
      hlead.step hq mem (Transition.contains_iff.2 ⟨Char.le_refl _, t.lo_le_hi⟩)
  have hkept : ∀ p ∈ done ++ [q], s'.word? p = s.word? p := by
    intro p hp
    obtain ⟨x, hx, hn⟩ := h.pop.wordDone p hp
    exact (hrefines.kept p x hx hn).trans hx.symm
  have hdone : ∀ p ∈ done, s'.word? p = s.word? p := fun p hp =>
    hkept p (List.mem_append_left [q] hp)
  have hword : s'.word? q = some w :=
    (hkept q (List.mem_append_right done (List.mem_singleton_self q))).trans hw
  have hclosed : Closed g accepted done { s with queue := near ++ far } := h.closed
  rw [hs']
  refine ⟨far', hlevel, (hclosed.refines hrefines hdone).concat ?_, ?_⟩
  · intro _ v hv t mem
    obtain rfl : w = v := Option.some.inj (hword.symm.trans hv)
    exact hall t mem
  · rw [hrefines.best]
    refine h.best.congr fun x => ?_
    calc Found g accepted done s x
        ↔ Found g accepted (done ++ [q]) s x :=
          (found_concat.trans (or_iff_left fun hx => hq hx.1)).symm
      _ ↔ Found g accepted (done ++ [q]) s' x := found_congr hkept

/-- The best word is the least of those that were reported. -/
theorem best_report {P : Word → Prop} (h : Least P s.best) (w : Word) :
    Least (fun v => P v ∨ v = w) (report s w).best := by
  unfold report
  split
  · next hbest =>
    rw [hbest] at h
    exact ⟨.inr rfl, fun v hv => (hv.resolve_left (h v)) ▸ .refl v⟩
  · next v hbest =>
    rw [hbest] at h
    split
    · next hbetter =>
      refine ⟨.inr rfl, fun u hu => ?_⟩
      rcases hu with hu | rfl
      · exact (atMost_of_better hbetter).trans (h.2 u hu)
      · exact .refl u
    · next hbetter =>
      rw [hbest]
      refine ⟨.inl h.1, fun u hu => ?_⟩
      rcases hu with hu | rfl
      · exact h.2 u hu
      · exact atMost_of_not_better hbetter

theorem exists_report_eq (s : Search) (w : Word) : ∃ best, report s w = { s with best := best } := by
  unfold report
  split
  · exact ⟨_, rfl⟩
  · split
    · exact ⟨_, rfl⟩
    · exact ⟨_, rfl⟩

/-- Searching a state that is looked for. -/
theorem Progress.report (h : Progress g accepted n done (q :: near) far s)
    (hq : (g.state q).accept = accepted) (hw : s.word? q = some w) :
    Progress g accepted n (done ++ [q]) near far
      (report { s with queue := near ++ far } w) := by
  have hbest := best_report (s := { s with queue := near ++ far }) h.best w
  obtain ⟨best, hreport⟩ := exists_report_eq { s with queue := near ++ far } w
  rw [hreport] at hbest ⊢
  refine ⟨h.pop.withBest best, Closed.concat h.closed fun hne => absurd hq hne, ?_⟩
  refine hbest.congr fun v => (found_concat.trans (or_congr_right ?_)).symm
  constructor
  · rintro ⟨-, hv⟩
    exact Option.some.inj (hv.symm.trans hw)
  · rintro rfl
    exact ⟨hq, hw⟩

theorem Progress.next (h : Progress g accepted n done [] far s) :
    Progress g accepted (n + 1) done far [] s := ⟨h.toLevel.next h.closed, h.closed, h.best⟩

/-- When nothing waits, the best word is the least of all that lead to a state looked for. -/
theorem Progress.finished (h : Progress g accepted n done [] [] s) :
    Least (g.Meets accepted) s.best := by
  -- Levels without states follow one after the other, so the words of every length are known.
  have hall : ∀ k, Progress g accepted (n + k) done [] [] s := by
    intro k
    induction k with
    | zero => exact h
    | succ k ih => exact ih.next
  refine h.best.of_imp ?_ ?_
  · rintro w ⟨q, -, hq, hw⟩
    exact ⟨q, (h.leads q w hw).1, hq⟩
  · rintro v ⟨q, hv, hq⟩
    obtain ⟨hmem, w, hw, hle⟩ := (hall v.length).complete q v hv (Nat.le_add_left _ n)
    rw [List.append_nil] at hmem
    exact ⟨w, ⟨q, hmem, hq, hw⟩, hle⟩

theorem search_succ {fuel : Nat} {rest : List Nat} (hqueue : s.queue = q :: rest) (hq : q < g.size)
    (hw : s.word? q = some w) : search g accepted (fuel + 1) s =
      if (g.state q).accept = accepted then
        search g accepted fuel (report { s with queue := rest } w)
      else search g accepted fuel ((g.state q).transitions.foldl
        (fun s t => learn s t.target (w ++ [t.lo])) { s with queue := rest }) := by
  have hword : (s.paths.lookup q).getD [] = w := by
    rw [show s.paths.lookup q = some w from hw, Option.getD_some]
  rw [search, hqueue]
  dsimp only
  rw [Graph.fetch_of_lt hq, hword]
  rfl

/-- The search finds the least word that leads to a state looked for, whatever waits, if enough
states may still be searched. -/
theorem succeeds_search (hg : g.WellFormed) (fuel : Nat)
    (h : Progress g accepted n done near far s) (hfuel : g.edgeCount + 1 ≤ done.length + fuel) :
    Succeeds (search g accepted fuel s) (Least (g.Meets accepted)) := by
  induction fuel generalizing n done near far s with
  | zero =>
    have hlen := h.length_le
    rw [List.length_append, List.length_append] at hlen
    obtain rfl : near = [] := List.length_eq_zero_iff.1 (by omega)
    obtain rfl : far = [] := List.length_eq_zero_iff.1 (by omega)
    exact .pure h.finished
  | succ fuel ih =>
    have hstep : ∀ {n q near far}, Progress g accepted n done (q :: near) far s →
        Succeeds (search g accepted (fuel + 1) s) (Least (g.Meets accepted)) := by
      intro n q near far h
      obtain ⟨w, hw, -⟩ := h.wordNear q List.mem_cons_self
      have hlt := hg.lt_of_isReachable ⟨w, (h.leads q w hw).1.path⟩
      have hfuel' : g.edgeCount + 1 ≤ (done ++ [q]).length + fuel := by
        rw [List.length_append, List.length_singleton]
        omega
      rw [search_succ h.queue hlt hw]
      split
      · next hq => exact ih (h.report hq hw) hfuel'
      · next hq =>
        obtain ⟨far', hnext⟩ := h.expand hq hw
        exact ih hnext hfuel'
    cases near with
    | cons q near => exact hstep h
    | nil =>
      cases far with
      | cons q far => exact hstep h.next
      | nil =>
        have hqueue : s.queue = [] := h.queue
        refine .of_eq ?_ h.finished
        rw [search, hqueue]

/-- At the beginning the empty word is known for the initial state. -/
theorem progress_start (g : Graph) (accepted : Bool) : Progress g accepted 0 [] [g.initial] []
    { queue := [g.initial], paths := [(g.initial, [])] } := by
  have hword : ∀ q, Search.word? { queue := [g.initial], paths := [(g.initial, [])] } q =
      if q = g.initial then some [] else none := fun q => lookup_cons_eq_ite _ [] q
  refine ⟨⟨rfl, List.nodup_singleton _, ?_, nofun, ?_, nofun, ?_⟩, nofun, ?_⟩
  · intro q w hw
    rw [hword] at hw
    split at hw
    · next hq =>
      cases hw
      subst hq
      exact ⟨.start, List.mem_singleton_self _⟩
    · cases hw
  · intro q hq
    exact ⟨[], by rw [hword, if_pos (List.mem_singleton.1 hq)], rfl⟩
  · intro q v hv hn
    cases hv with
    | start => exact ⟨List.mem_singleton_self _, [], by rw [hword, if_pos rfl], .refl []⟩
    | step => simp at hn
  · rintro w ⟨q, hq, -⟩
    cases hq

/-- The least word that leads to a state looked for is found. -/
theorem succeeds_inGraph (hg : g.WellFormed) (accepted : Bool) : Succeeds (inGraph g accepted)
    (Least fun w => ∃ q, g.Path g.initial w q ∧ (g.state q).accept = accepted) := by
  have hrun := succeeds_search hg (g.edgeCount + 1) (progress_start g accepted)
    (Nat.le_add_left _ _)
  refine hrun.mono fun r hr => hr.of_imp ?_ ?_
  · rintro w ⟨q, hw, hq⟩
    exact ⟨q, hw.path, hq⟩
  · rintro w ⟨q, hw, hq⟩
    rcases Graph.leads_or_met hw with hlead | ⟨v, hv, hmet⟩
    · exact ⟨w, ⟨q, hlead, hq⟩, .refl w⟩
    · exact ⟨v, hmet, .of_isPrefix hv⟩

end Shortest

/-! ## Words that are rejected -/

namespace Graph

variable {g : Graph} {w : Word} {p : Nat}

theorem exists_path_of_total (htotal : ∀ q, g.IsReachable q → ∀ c, ∃ r, r ∈ (g.state q).stepAll c)
    (hp : g.IsReachable p) (w : Word) : ∃ q, g.Path p w q := by
  induction w generalizing p with
  | nil => exact ⟨p, .nil p⟩
  | cons c w ih =>
    obtain ⟨r, hr⟩ := htotal p hp c
    obtain ⟨q, hq⟩ := ih (hp.stepAll hr)
    exact ⟨q, path_cons_iff.2 ⟨r, hr, hq⟩⟩

/-- Rejection shows at a state where every letter leads on to exactly one state. -/
theorem exists_rejecting_iff (hd : g.IsDeterministic)
    (htotal : ∀ q, g.IsReachable q → ∀ c, ∃ r, r ∈ (g.state q).stepAll c) :
    (∃ q, g.Path g.initial w q ∧ (g.state q).accept = false) ↔ ¬ g.Accepts w := by
  have haccept : ∀ q, g.Path g.initial w q → ((g.state q).accept = true ↔ g.Accepts w) := by
    intro q hq
    rw [← acceptsFrom_nil_iff, hd.acceptsFrom_iff hq, List.append_nil]
  obtain ⟨q, hq⟩ := exists_path_of_total htotal g.isReachable_initial w
  constructor
  · rintro ⟨p, hp, hreject⟩
    rw [← haccept p hp, hreject]
    exact Bool.false_ne_true
  · intro hreject
    rw [← haccept q hq, Bool.not_eq_true] at hreject
    exact ⟨q, hq, hreject⟩

end Graph

namespace Automaton

variable {a : Automaton}

theorem least_accepted_singleton (v : Word) : Least (singleton v).Accepts (some v) :=
  ⟨rfl, fun w hw => (show w = v from hw) ▸ .refl w⟩

/-- All words but the empty one are rejected by it, and the empty one by all others. -/
theorem least_rejected_singleton (v : Word) : Least (fun w => ¬ (singleton v).Accepts w)
    (some (if v.isEmpty then [Alphabet.first] else [])) := by
  cases v with
  | nil =>
    refine ⟨List.cons_ne_nil _ _, fun w hw => ?_⟩
    cases w with
    | nil => exact absurd rfl hw
    | cons c w =>
      have hfirst : Word.AtMost [Alphabet.first] [c] :=
        (Word.AtMost.refl []).concat (Alphabet.first_le c)
      exact hfirst.trans (.of_isPrefix (List.prefix_append [c] w))
  | cons c v => exact ⟨fun h => List.cons_ne_nil c v h.symm, fun w _ => .of_isPrefix List.nil_prefix⟩

/-- The shortest word that is accepted is found, and so is the shortest that is rejected; of words
of one length it is the smallest, and there is none only if there are no such words. -/
theorem shortest_spec (ha : a.WellFormed) (ht : a.Truthful) :
    (∃ r, a.shortestAccepted = .ok r ∧ Least a.Accepts r) ∧
    ∃ r, a.shortestRejected = .ok r ∧ Least (fun w => ¬ a.Accepts w) r := by
  cases a with
  | singleton v =>
    exact ⟨⟨_, rfl, least_accepted_singleton v⟩, _, rfl, least_rejected_singleton v⟩
  | graph g =>
    have hg : g.WellFormed := ha
    have hd := hg.determinize
    have hdet := (Graph.isDeterministic_determinize ht).totalize hd
    refine ⟨Shortest.succeeds_inGraph hg true, ?_⟩
    obtain ⟨r, hr, hleast⟩ := Shortest.succeeds_inGraph hd.totalize false
    refine ⟨r, ?_, hleast.congr fun w => ?_⟩
    · rw [← hr, shortestRejected, determinize_graph hg]
      show (graph g.determinize).totalize.bind _ = _
      rw [totalize_eq_ok (a := graph g.determinize) hd]
      rfl
    · calc _ ↔ ¬ g.determinize.totalize.Accepts w :=
            Graph.exists_rejecting_iff hdet fun q hq c => Graph.exists_step_totalize hd hq c
        _ ↔ ¬ g.determinize.Accepts w :=
            not_congr (Graph.acceptsFrom_totalize hd g.determinize.isReachable_initial)
        _ ↔ ¬ g.Accepts w := not_congr (Graph.accepts_determinize hg)

/-- The state that is met first has the larger letter, so the word of the state behind both is
replaced while it waits; another accepting state has a larger word of the same length. -/
def overtaken : Graph where
  states := #[{ transitions := [.between 'b' 'c' 1, .between 'a' 'c' 2] },
    { transitions := [.single 'a' 3, .single 'b' 4] }, { transitions := [.single 'z' 3] },
    { accept := true, transitions := [.onAny 0] }, { accept := true }]
  deterministic := false

/-- Every letter but `z` leads back to the initial state; some lead to another state as well. -/
def gapped : Graph where
  states := #[{ accept := true, transitions := [.between Alphabet.first 'y' 0, .between 'b' 'y' 1,
      .between '\x7b' Alphabet.last 0] },
    { accept := true, transitions := [.onAny 0] }]
  deterministic := false

theorem accepts_gapped {c : Char} (h : c < 'z') : gapped.Accepts [c] := by
  have hy : c ≤ 'y' := Nat.le_of_lt_succ (Alphabet.lt_iff_toNat.1 h)
  have hcontains : (Transition.between Alphabet.first 'y' 0).contains c = true :=
    Transition.contains_iff.2 ⟨Alphabet.first_le c, hy⟩
  exact Graph.acceptsFrom_cons_iff.2
    ⟨0, State.mem_stepAll.2 ⟨_, List.mem_cons_self, hcontains, rfl⟩, 0, .nil 0, rfl⟩

theorem not_accepts_gapped : ¬ gapped.Accepts ['z'] := fun h => by
  have hnone : (gapped.state gapped.initial).stepAll 'z' = [] := by decide
  obtain ⟨p, hp, -⟩ := Graph.acceptsFrom_cons_iff.1 h
  rw [hnone] at hp
  cases hp

/-- The empty word and every letter below `z` are accepted, so `z` is the least word that is not. -/
theorem eq_of_least_gapped {r : Option Word} (h : Least (fun w => ¬ gapped.Accepts w) r) :
    r = some ['z'] := by
  match r, h with
  | none, hnone => exact absurd not_accepts_gapped (hnone ['z'])
  | some v, ⟨hv, hle⟩ =>
    obtain hlt | ⟨hlen, rfl | hlt⟩ := hle ['z'] not_accepts_gapped
    · obtain rfl := List.length_eq_zero_iff.1 (Nat.lt_one_iff.1 hlt)
      exact absurd (Graph.acceptsFrom_nil_iff.2 rfl) hv
    · rfl
    · obtain ⟨c, rfl⟩ := List.length_eq_one_iff.1 hlen
      exact absurd (accepts_gapped ((List.cons_lt_cons_iff.1 hlt).resolve_right (by simp))) hv

theorem shortest_spec_overtaken_gapped :
    ((graph overtaken).WellFormed ∧ (graph overtaken).Truthful ∧
      (graph overtaken).shortestAccepted = .ok (some ['a', 'z']) ∧
      Least overtaken.Accepts (some ['a', 'z'])) ∧
    (graph gapped).WellFormed ∧ (graph gapped).Truthful ∧
      (graph gapped).shortestRejected = .ok (some ['z']) ∧
      Least (fun w => ¬ gapped.Accepts w) (some ['z']) := by
  have hwf : (graph overtaken).WellFormed := ⟨by decide, by decide⟩
  have ht : (graph overtaken).Truthful := fun h => by cases h
  have hwf' : (graph gapped).WellFormed := ⟨by decide, by decide⟩
  have ht' : (graph gapped).Truthful := fun h => by cases h
  have haccepted : (graph overtaken).shortestAccepted = .ok (some ['a', 'z']) := by decide
  obtain ⟨r, hr, hleast⟩ := (shortest_spec hwf ht).1
  obtain ⟨r', hr', hleast'⟩ := (shortest_spec hwf' ht').2
  cases Except.ok.inj (hr.symm.trans haccepted)
  obtain rfl := eq_of_least_gapped hleast'
  exact ⟨⟨hwf, ht, haccepted, hleast⟩, hwf', ht', hr', hleast'⟩

end Automaton

end RegLang
