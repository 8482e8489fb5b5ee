import Mathlib.Data.List.Induction
import Mathlib.Data.List.Nodup
import RegLang.Query.Shortest
import RegLang.Semantics.Path
import RegLang.Semantics.Shortlex
/-!
# Levels of the search for a shortest word

The search keeps one word for each state, and a better word for a state that waits already takes the
place of the first one where it stands.  So the words of the queue need not ascend.  What holds is
that the search goes from level to level: while it is amid the words of `n` letters, every state
that has a word of at most `n` letters, past no state that is looked for, has been searched or waits
in the front of the queue, and its word is the best of all.  What is learned there has `n + 1`
letters and can only replace words of the back of the queue.

* `Graph.leads_or_met`: words past a state that is looked for are no better than the one that led
  there.
* `Level.learnAll`: what searching a state keeps, and what is known behind it then.
* `Level.next`: at the end of a level all words of the next one are the best.
-/

namespace RegLang

namespace Graph

/-! ## Words that lead to a state -/

/-- The word leads to the state, past no state that is looked for. -/
inductive Leads (g : Graph) (accepted : Bool) : Word → Nat → Prop
  | start : Leads g accepted [] g.initial
  | step {w : Word} {q : Nat} {t : Transition} {c : Char} (before : Leads g accepted w q)
      (unsought : (g.state q).accept ≠ accepted) (mem : t ∈ (g.state q).transitions)
      (reads : t.contains c = true) : Leads g accepted (w ++ [c]) t.target

/-- The word leads to a state that is looked for, and past no such state before. -/
def Meets (g : Graph) (accepted : Bool) (w : Word) : Prop :=
  ∃ q, g.Leads accepted w q ∧ (g.state q).accept = accepted

variable {g : Graph} {accepted : Bool} {w : Word} {q : Nat}

theorem Leads.path (h : g.Leads accepted w q) : g.Path g.initial w q := by
  induction h with
  | start => exact .nil _
  | step _ _ mem reads ih => exact path_append_iff.2 ⟨_, ih, .cons mem reads (.nil _)⟩

/-- A path either is past no state that is looked for, or has met one before its end. -/
theorem leads_or_met (h : g.Path g.initial w q) :
    g.Leads accepted w q ∨ ∃ v, v <+: w ∧ g.Meets accepted v := by
  induction w using List.reverseRecOn generalizing q with
  | nil =>
    obtain rfl := path_nil_iff.1 h
    exact .inl .start
  | append_singleton w c ih =>
    obtain ⟨p, hp, hlast⟩ := path_append_iff.1 h
    rcases ih hp with hw | ⟨v, hv, hmet⟩
    · by_cases hsought : (g.state p).accept = accepted
      · exact .inr ⟨w, List.prefix_append w [c], p, hw, hsought⟩
      · obtain ⟨r, hr, hrest⟩ := path_cons_iff.1 hlast
        obtain rfl := path_nil_iff.1 hrest
        obtain ⟨t, mem, reads, rfl⟩ := State.mem_stepAll.1 hr
        exact .inl (.step hw hsought mem reads)
    · exact .inr ⟨v, hv.trans (List.prefix_append w [c]), hmet⟩

end Graph

namespace Shortest

open Word (AtMost)

variable {g : Graph} {accepted : Bool} {s s' s'' : Search} {p q : Nat} {v w : Word} {n : Nat}
  {done near far : List Nat}

/-! ## Better words -/

theorem atMost_of_better (h : Word.better v w = true) : AtMost v w := by
  simp only [Word.better, Bool.or_eq_true, Bool.and_eq_true, decide_eq_true_eq] at h
  exact h.imp_right fun h => ⟨h.1, .inr h.2⟩

theorem atMost_of_not_better (h : ¬ Word.better v w = true) : AtMost w v := by
  simp only [Word.better, Bool.or_eq_true, Bool.and_eq_true, decide_eq_true_eq, not_or, not_and] at h
  rcases Nat.lt_or_eq_of_le (Nat.le_of_not_lt h.1) with hlen | hlen
  · exact .inl hlen
  · refine .inr ⟨hlen, ?_⟩
    rcases Std.lt_trichotomy w v with hlt | heq | hlt
    · exact .inr hlt
    · exact .inl heq
    · exact absurd hlt (h.2 hlen.symm)

/-! ## Words that are known -/

/-- The best word that is known for a state. -/
def Search.word? (s : Search) (q : Nat) : Option Word := s.paths.lookup q

theorem lookup_cons_eq_ite (e : Nat × Word) (paths : List (Nat × Word)) (q : Nat) :
    (e :: paths).lookup q = if q = e.1 then some e.2 else paths.lookup q := by
  rw [List.lookup_cons]
  by_cases h : q = e.1
  · rw [if_pos h, beq_iff_eq.2 h]
  · rw [if_neg h, beq_false_of_ne h]

theorem lookup_map_replace (paths : List (Nat × Word)) (p : Nat) (w : Word) (q : Nat) :
    (paths.map fun e => if e.1 = p then (p, w) else e).lookup q =
      if q = p then (paths.lookup q).map fun _ => w else paths.lookup q := by
  induction paths with
  | nil => simp
  | cons e paths ih =>
    rw [List.map_cons, lookup_cons_eq_ite, lookup_cons_eq_ite, ih]
    by_cases hq : q = p
    · subst hq
      by_cases he : e.1 = q
      · simp [he]
      · simp [he, Ne.symm he]
    · by_cases he : e.1 = p
      · simp [he, hq]
      · simp [he, hq]

/-- A word is kept for its state if it is at most the one known before; else that one stays. -/
theorem learn_cases (s : Search) (p : Nat) (w : Word) :
    ((∀ q, (learn s p w).word? q = if q = p then some w else s.word? q) ∧
      ∀ v, s.word? p = some v → AtMost w v) ∨
    (learn s p w = s ∧ ∃ v, s.word? p = some v ∧ AtMost v w) := by
  unfold learn
  split
  · next hnone =>
    refine .inl ⟨lookup_cons_eq_ite _ _, fun v hv => ?_⟩
    cases hnone.symm.trans hv
  · next u hu =>
    split
    · next hbetter =>
      refine .inl ⟨fun q => (lookup_map_replace _ _ _ _).trans ?_, fun v hv => ?_⟩
      · by_cases hq : q = p
        · rw [if_pos hq, if_pos hq, hq, hu]
          rfl
        · rw [if_neg hq, if_neg hq]
          rfl
      · cases hu.symm.trans hv
        exact atMost_of_better hbetter
    · next hbetter => exact .inr ⟨rfl, u, hu, atMost_of_not_better hbetter⟩

/-- The state, unless a word is known for it. -/
def Search.joining (s : Search) (p : Nat) : List Nat := if (s.word? p).isSome then [] else [p]

theorem mem_joining : q ∈ s.joining p ↔ q = p ∧ s.word? p = none := by
  unfold Search.joining
  cases s.word? p with
  | none => simp
  | some v => simp

/-- A new state waits behind all others; one that is known keeps its place. -/
theorem queue_learn (s : Search) (p : Nat) (w : Word) :
    (learn s p w).queue = s.queue ++ s.joining p := by
  unfold learn Search.joining Search.word?
  split
  · next h => simp [h]
  · next v h =>
    rw [h]
    split <;> simp

theorem best_learn (s : Search) (p : Nat) (w : Word) : (learn s p w).best = s.best := by
  unfold learn
  split
  · rfl
  · split <;> rfl

/-- What is known stays or gets better, and words of at most `n` letters stay. -/
structure Refines (n : Nat) (s s' : Search) : Prop where
  best : s'.best = s.best
  kept : ∀ q w, s.word? q = some w → w.length ≤ n → s'.word? q = some w
  better : ∀ q w, s.word? q = some w → ∃ v, s'.word? q = some v ∧ v.AtMost w

theorem Refines.refl (n : Nat) (s : Search) : Refines n s s :=
  ⟨rfl, fun _ _ h _ => h, fun _ w h => ⟨w, h, .refl w⟩⟩

theorem Refines.trans (h : Refines n s s') (h' : Refines n s' s'') : Refines n s s'' where
  best := h'.best.trans h.best
  kept q w hw hn := h'.kept q w (h.kept q w hw hn) hn
  better q w hw := by
    obtain ⟨v, hv, hle⟩ := h.better q w hw
    obtain ⟨u, hu, hle'⟩ := h'.better q v hv
    exact ⟨u, hu, hle'.trans hle⟩

/-- Learning a word of more than `n` letters leaves a word for its state that is at least as
good. -/
theorem refines_learn (hw : n < w.length) : Refines n s (learn s p w) ∧
    ∃ v, (learn s p w).word? p = some v ∧ v.AtMost w := by
  rcases learn_cases s p w with ⟨hword, hle⟩ | ⟨hsame, v, hv, hle⟩
  · refine ⟨⟨best_learn s p w, fun q v hv hn => ?_, fun q v hv => ?_⟩, w, ?_, .refl w⟩
    · -- The new word is longer, so it is not that of the same state.
      rw [hword, if_neg, hv]
      rintro rfl
      have hlen := (hle v hv).length_le
      omega
    · rw [hword]
      split
      · next hq =>
        subst hq
        exact ⟨w, rfl, hle v hv⟩
      · exact ⟨v, hv, .refl v⟩
    · rw [hword, if_pos rfl]
  · rw [hsame]
    exact ⟨.refl n s, v, hv, hle⟩

/-! ## A level of the search -/

/-- Behind each of these states, unless it is looked for, every transition leads to a state whose
known word is at least as good as the one along that transition. -/
def Closed (g : Graph) (accepted : Bool) (done : List Nat) (s : Search) : Prop :=
  ∀ q ∈ done, (g.state q).accept ≠ accepted → ∀ w, s.word? q = some w →
    ∀ t ∈ (g.state q).transitions, ∃ v, s.word? t.target = some v ∧ AtMost v (w ++ [t.lo])

theorem Closed.concat (h : Closed g accepted done s)
    (hq : (g.state q).accept ≠ accepted → ∀ w, s.word? q = some w → ∀ t ∈ (g.state q).transitions,
      ∃ v, s.word? t.target = some v ∧ AtMost v (w ++ [t.lo])) :
    Closed g accepted (done ++ [q]) s := by
  intro p hp
  rcases List.mem_append.1 hp with hp | hp
  · exact h p hp
  · rwa [List.mem_singleton.1 hp]

/-- Better words behind it leave what was searched closed. -/
theorem Closed.refines (h : Closed g accepted done s) (hs : Refines n s s')
    (hdone : ∀ q ∈ done, s'.word? q = s.word? q) : Closed g accepted done s' := by
  intro q hq hne w hw t mem
  rw [hdone q hq] at hw
  obtain ⟨v, hv, hle⟩ := h q hq hne w hw t mem
  obtain ⟨u, hu, hle'⟩ := hs.better t.target v hv
  exact ⟨u, hu, hle'.trans hle⟩

/-- The search amid the words of `n` letters.  The states of `done` were searched, those of `near`
wait with a word of `n` letters, and those of `far` wait with a word of one letter more.  A state to
which some word of at most `n` letters leads is among the first two, and its word is the best. -/
structure Level (g : Graph) (accepted : Bool) (n : Nat) (done near far : List Nat) (s : Search) :
    Prop where
  queue : s.queue = near ++ far
  nodup : (done ++ near ++ far).Nodup
  leads : ∀ q w, s.word? q = some w → g.Leads accepted w q ∧ q ∈ done ++ near ++ far
  wordDone : ∀ q ∈ done, ∃ w, s.word? q = some w ∧ w.length ≤ n
  wordNear : ∀ q ∈ near, ∃ w, s.word? q = some w ∧ w.length = n
  wordFar : ∀ q ∈ far, ∃ w, s.word? q = some w ∧ w.length = n + 1
  complete : ∀ q v, g.Leads accepted v q → v.length ≤ n →
    q ∈ done ++ near ∧ ∃ w, s.word? q = some w ∧ w.AtMost v

theorem Level.exists_word (h : Level g accepted n done near far s)
    (hq : q ∈ done ++ near ++ far) : ∃ w, s.word? q = some w := by
  rw [List.mem_append, List.mem_append] at hq
  rcases hq with (hq | hq) | hq
  · exact (h.wordDone q hq).imp fun _ => And.left
  · exact (h.wordNear q hq).imp fun _ => And.left
  · exact (h.wordFar q hq).imp fun _ => And.left

/-- A state that joins the queue was not met before. -/
theorem Level.nodup_joining (h : Level g accepted n done near far s) (p : Nat) :
    (done ++ near ++ (far ++ s.joining p)).Nodup := by
  rw [← List.append_assoc]
  refine h.nodup.append ?_ fun q hq hjoin => ?_
  · unfold Search.joining
    split
    · exact List.nodup_nil
    · exact List.nodup_singleton p
  · obtain ⟨rfl, hnone⟩ := mem_joining.1 hjoin
    obtain ⟨v, hv⟩ := h.exists_word hq
    rw [hnone] at hv
    cases hv

theorem Level.mem_joined (h : Level g accepted n done near far s) (p : Nat) :
    p ∈ done ++ near ++ (far ++ s.joining p) := by
  rw [← List.append_assoc, List.mem_append]
  cases hp : s.word? p with
  | none => exact .inr (mem_joining.2 ⟨rfl, hp⟩)
  | some v => exact .inl (h.leads p v hp).2

/-- Learning a word of one letter more than the level has. -/
theorem Level.learn (h : Level g accepted n done near far s) (hlead : g.Leads accepted w p)
    (hw : w.length = n + 1) : ∃ far', Level g accepted n done near far' (learn s p w) := by
  obtain ⟨hrefines, -⟩ := refines_learn (s := s) (p := p) (w := w) (n := n) (by omega)
  rcases learn_cases s p w with ⟨hword, -⟩ | ⟨hsame, -⟩
  · exact ⟨far ++ s.joining p,
      { queue := by rw [queue_learn, h.queue, List.append_assoc]
        nodup := h.nodup_joining p
        leads := by
          intro q v hv
          rw [hword] at hv
          split at hv
          · next hq =>
            subst hq
            cases hv
            exact ⟨hlead, h.mem_joined q⟩
          · rw [← List.append_assoc]
            exact (h.leads q v hv).imp_right (List.mem_append_left _)
        wordDone := by
          intro q hq
          obtain ⟨v, hv, hn⟩ := h.wordDone q hq
          exact ⟨v, hrefines.kept q v hv hn, hn⟩
        wordNear := by
          intro q hq
          obtain ⟨v, hv, hn⟩ := h.wordNear q hq
          exact ⟨v, hrefines.kept q v hv (Nat.le_of_eq hn), hn⟩
        wordFar := by
          intro q hq
          rw [hword]
          split
          · exact ⟨w, rfl, hw⟩
          · next hqp =>
            rcases List.mem_append.1 hq with hq | hq
            · exact h.wordFar q hq
            · exact absurd (mem_joining.1 hq).1 hqp
        complete := by
          intro q v hv hn
          obtain ⟨hq, u, hu, hle⟩ := h.complete q v hv hn
          exact ⟨hq, u, hrefines.kept q u hu (Nat.le_trans hle.length_le hn), hle⟩ }⟩
  · rw [hsame]
    exact ⟨far, h⟩

/-- Learning the words along some transitions of a state with a word of `n` letters. -/
theorem Level.learnAll (h : Level g accepted n done near far s) (hw : w.length = n)
    (ts : List Transition) (hts : ∀ t ∈ ts, g.Leads accepted (w ++ [t.lo]) t.target) :
    ∃ s', ts.foldl (fun s t => Shortest.learn s t.target (w ++ [t.lo])) s = s' ∧
      (∃ far', Level g accepted n done near far' s') ∧ Refines n s s' ∧
      ∀ t ∈ ts, ∃ v, s'.word? t.target = some v ∧ AtMost v (w ++ [t.lo]) := by
  induction ts generalizing s far with
  | nil => exact ⟨s, rfl, ⟨far, h⟩, .refl n s, nofun⟩
  | cons t ts ih =>
    obtain ⟨hlead, hrest⟩ := List.forall_mem_cons.1 hts
    have hlen : (w ++ [t.lo]).length = n + 1 := by rw [List.length_append, hw]; rfl
    obtain ⟨far', hlevel⟩ := h.learn hlead hlen
    obtain ⟨hfirst, v, hv, hle⟩ :=
      refines_learn (s := s) (p := t.target) (w := w ++ [t.lo]) (n := n) (by omega)
    obtain ⟨s', hs', hlevel', hthen, hall⟩ := ih hlevel hrest
    refine ⟨s', hs', hlevel', hfirst.trans hthen, List.forall_mem_cons.2 ⟨?_, hall⟩⟩
    obtain ⟨u, hu, hle'⟩ := hthen.better _ v hv
    exact ⟨u, hu, hle'.trans hle⟩

/-- Taking the next state out of the queue. -/
theorem Level.pop (h : Level g accepted n done (q :: near) far s) :
    Level g accepted n (done ++ [q]) near far { s with queue := near ++ far } where
  queue := rfl
  nodup := by
    rw [List.append_assoc done]
    exact h.nodup
  leads p w hw := by
    rw [List.append_assoc done]
    exact h.leads p w hw
  wordDone p hp := by
    rcases List.mem_append.1 hp with hp | hp
    · exact h.wordDone p hp
    · obtain ⟨w, hw, hn⟩ := h.wordNear p (List.mem_cons.2 (.inl (List.mem_singleton.1 hp)))
      exact ⟨w, hw, Nat.le_of_eq hn⟩
  wordNear p hp := h.wordNear p (List.mem_cons_of_mem q hp)
  wordFar := h.wordFar
  complete p v hv hn := by
    rw [List.append_assoc]
    exact h.complete p v hv hn

theorem Level.withBest (h : Level g accepted n done near far s) (best : Option Word) :
    Level g accepted n done near far { s with best := best } :=
  ⟨h.queue, h.nodup, h.leads, h.wordDone, h.wordNear, h.wordFar, h.complete⟩

/-- When no state of the level waits, the next level begins. -/
theorem Level.next (h : Level g accepted n done [] far s) (hclosed : Closed g accepted done s) :
    Level g accepted (n + 1) done far [] s where
  queue := by rw [h.queue, List.append_nil, List.nil_append]
  nodup := by
    rw [List.append_nil]
    simpa using h.nodup
  leads q w hw := by simpa using h.leads q w hw
  wordDone q hq := (h.wordDone q hq).imp fun w hw => ⟨hw.1, Nat.le_succ_of_le hw.2⟩
  wordNear := h.wordFar
  wordFar := nofun
  complete q v hv hn := by
    have hdone : ∀ q v, g.Leads accepted v q → v.length ≤ n →
        q ∈ done ∧ ∃ w, s.word? q = some w ∧ w.AtMost v := by
      simpa using h.complete
    cases hv with
    | start =>
      obtain ⟨hq, hw⟩ := hdone _ _ .start (Nat.zero_le n)
      exact ⟨List.mem_append_left far hq, hw⟩
    | @step w p t c hlead hne mem reads =>
      -- The word without its last letter belongs to the level that ends, and that is closed.
      rw [List.length_append] at hn
      obtain ⟨hp, x, hx, hle⟩ := hdone p w hlead (Nat.le_of_succ_le_succ hn)
      obtain ⟨y, hy, hle'⟩ := hclosed p hp hne x hx t mem
      have hc : t.lo ≤ c := (Transition.contains_iff.1 reads).1
      refine ⟨?_, y, hy, hle'.trans (hle.concat hc)⟩
      simpa using (h.leads _ y hy).2

/-- Only states that can be reached are met. -/
theorem Level.length_le (h : Level g accepted n done near far s) :
    (done ++ near ++ far).length ≤ g.edgeCount + 1 := by
  refine Nat.le_trans (h.nodup.subperm fun q hq => ?_).length_le g.length_reachable_le
  obtain ⟨w, hw⟩ := h.exists_word hq
  exact Graph.mem_reachable_iff.2 ⟨w, (h.leads q w hw).1.path⟩

end Shortest

end RegLang
