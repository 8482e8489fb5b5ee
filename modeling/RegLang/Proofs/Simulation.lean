import RegLang.Checked.Runs
import RegLang.Proofs.Proper
/-!
# One meaning of a run

The path of first transitions and the simulation by sets of states are two ways to one answer, and
so are a word and its chain: the flag of a graph and the form of an automaton decide how a run goes
and not how it ends.  Nor does it matter that the simulation works on two sets that change places
instead of making a new one for every letter.

    run g w = g.run w                                                    (Checked.run_eq)

* `Automaton.run_same`: all ways to run an automaton answer whether it accepts.
-/

namespace RegLang

/-! ## Sets that are used again -/

namespace StateSet

variable {s t : StateSet}

theorem capacity_insert {i : Nat} {b : Bool} (h : s.insert i = .ok (b, t)) :
    t.capacity = s.capacity := by
  unfold insert at h
  split at h
  · cases h
    exact capacity_add s i
  · cases h

theorem capacity_insertAll {is : List Nat} (h : s.insertAll is = .ok t) :
    t.capacity = s.capacity := by
  induction is generalizing s with
  | nil =>
    cases h
    rfl
  | cons i is ih =>
    unfold insertAll extend at h
    cases hi : s.insert i with
    | error e =>
      rw [hi] at h
      cases h
    | ok r =>
      rw [hi] at h
      rw [ih h, capacity_insert hi]

/-- A cleared set is as good as a new one of its capacity. -/
theorem clear_eq {n : Nat} (h : s.capacity = (ofCapacity n).capacity) :
    s.clear = ofCapacity n := by
  have hsize : s.blocks.size = (n + 63) / 64 := by
    simp only [capacity, ofCapacity, Array.size_replicate] at h
    omega
  rw [clear, ofCapacity, Array.map_const', hsize]

end StateSet

namespace Checked

variable {g : Graph} {current next : StateSet} {c : Char} {w : Word}

/-! ## Two sets that change places -/

theorem collect_eq (h : next.capacity = (StateSet.ofCapacity g.size).capacity) :
    collect g current next c = g.advance current c := by
  unfold collect Graph.advance
  rw [StateSet.clear_eq h]
  congr 1
  funext next q
  unfold look
  cases g.fetch q <;> rfl

theorem capacity_advance (h : g.advance current c = .ok next) :
    next.capacity = (StateSet.ofCapacity g.size).capacity := by
  have aux : ∀ (qs : List Nat) (s : StateSet),
      qs.foldlM (fun next q => (g.fetch q).bind fun s => next.insertAll (s.stepAll c)) s =
        .ok next → next.capacity = s.capacity := by
    intro qs
    induction qs with
    | nil =>
      intro s h
      cases h
      rfl
    | cons q qs ih =>
      intro s h
      rw [List.foldlM_cons] at h
      obtain ⟨t, ht, h⟩ := bind_eq_ok.1 h
      obtain ⟨state, _, ht⟩ := bind_eq_ok.1 ht
      rw [ih t h, StateSet.capacity_insertAll ht]
  exact aux _ _ h

/-- Two sets that change places are as good as a new set for every letter. -/
theorem alternate_eq (hc : current.capacity = (StateSet.ofCapacity g.size).capacity)
    (hn : next.capacity = (StateSet.ofCapacity g.size).capacity) :
    alternate g current next w = g.simulate current w := by
  induction w generalizing current next with
  | nil => rfl
  | cons c w ih =>
    unfold alternate Graph.simulate
    rw [collect_eq hn]
    cases h : g.advance current c with
    | error e => rfl
    | ok t =>
      show (if t.isEmpty then _ else alternate g t current w) = if t.isEmpty then _ else _
      rw [ih (capacity_advance h) hc]
      rfl

theorem run_eq (g : Graph) (w : Word) : run g w = g.run w := by
  unfold run Graph.run
  split
  · rfl
  · cases h : (StateSet.ofCapacity g.size).insert g.initial with
    | error e => rfl
    | ok r => exact alternate_eq (StateSet.capacity_insert h) rfl

end Checked

namespace Automaton

variable {a : Automaton} {w : Word}

/-! ## Flags and forms -/

/-- The automaton without its claim to be deterministic. -/
def unflag : Automaton → Automaton
  | singleton w => singleton w
  | graph g => graph (g.setDeterministic false)

theorem Proper.unflag (ha : a.Proper) : a.unflag.Proper := by
  cases a with
  | singleton w => exact ha
  | graph g =>
    have hg : g.WellFormed := ha.wellFormed
    exact proper_of_flag_false ⟨hg.initial_lt, hg.target_lt⟩ rfl

theorem Proper.expand (ha : a.Proper) : a.expand.Proper :=
  ⟨ha.wellFormed.toGraph, ha.truthful.toGraph⟩

theorem accepts_unflag : a.unflag.Accepts w ↔ a.Accepts w := by
  cases a with
  | singleton v => exact Iff.rfl
  | graph g => exact Graph.acceptsFrom_congr fun q => Graph.state_setDeterministic g false q

/-- A run of a proper automaton gives whatever answer says if the word is accepted. -/
theorem Proper.run_eq (ha : a.Proper) {r : Bool} (h : r = true ↔ a.Accepts w) :
    a.run w = .ok r := by
  obtain ⟨s, hs, hiff⟩ := run_spec ha.wellFormed ha.truthful w
  have hsr : s = r := by rw [Bool.eq_iff_iff, hiff, h]
  rw [hs, hsr]

theorem Proper.run_eq_true_iff (ha : a.Proper) : a.run w = .ok true ↔ a.Accepts w := by
  obtain ⟨r, hr, hiff⟩ := run_spec ha.wellFormed ha.truthful w
  rw [hr, Except.ok.injEq, hiff]

/-- Proper automata that accept the same words answer alike. -/
theorem Proper.run_congr {b : Automaton} (ha : a.Proper) (hb : b.Proper)
    (h : b.Accepts w ↔ a.Accepts w) : b.run w = a.run w := by
  obtain ⟨r, hr, hiff⟩ := run_spec ha.wellFormed ha.truthful w
  rw [hr, hb.run_eq (hiff.trans h.symm)]

/-- What computes a language answers by acceptance and by runs alike. -/
theorem Computes.answers {l : Language Char} {r : Except Fault Automaton} (h : Computes r l)
    {P Q : Word → Prop} (hP : ∀ w, w ∈ l ↔ P w) (hQ : ∀ w, Q w ↔ P w) :
    ∃ c, r = .ok c ∧ c.WellFormed ∧ c.Truthful ∧ (∀ w, c.Accepts w ↔ P w) ∧
      ∀ w, ∃ b, c.run w = .ok b ∧ (b = true ↔ Q w) := by
  obtain ⟨c, hc, hpc, hl⟩ := h
  have haccepts : ∀ w, c.Accepts w ↔ P w := by
    intro w
    rw [← mem_language, hl, hP]
  refine ⟨c, hc, hpc.wellFormed, hpc.truthful, haccepts, fun w => ?_⟩
  obtain ⟨b, hb, hiff⟩ := run_spec hpc.wellFormed hpc.truthful w
  exact ⟨b, hb, hiff.trans ((haccepts w).trans (hQ w).symm)⟩

/-! ## Runs -/

/-- A run of a well-formed automaton with a truthful flag answers whether some path of transitions
that read the word leads from the initial state to an accepting one, or for a single word, whether
it is that word.  The answer stays the same when the flag is cleared, when the automaton is
expanded, and when the simulation works on two sets. -/
theorem run_same (ha : a.WellFormed) (ht : a.Truthful) (w : Word) :
    ∃ b, a.run w = .ok b ∧ (b = true ↔ a.Accepts w) ∧ a.unflag.run w = .ok b ∧
      a.expand.run w = .ok b ∧ a.expand.unflag.run w = .ok b ∧
      Checked.run a.toGraph w = .ok b ∧ Checked.run a.unflag.toGraph w = .ok b := by
  have hp : a.Proper := ⟨ha, ht⟩
  obtain ⟨b, hb, hiff⟩ := run_spec ha ht w
  have hunflag := (hp.run_congr hp.unflag accepts_unflag).trans hb
  have hexpand := (hp.run_congr hp.expand accepts_toGraph).trans hb
  have hboth := (hp.run_congr hp.expand.unflag (accepts_unflag.trans accepts_toGraph)).trans hb
  have hcleared := (hp.unflag.run_congr hp.unflag.expand accepts_toGraph).trans hunflag
  exact ⟨b, hb, hiff, hunflag, hexpand, hboth, (Checked.run_eq _ w).trans hexpand,
    (Checked.run_eq _ w).trans hcleared⟩

/-- A state that nothing leads to has two transitions on one letter. -/
def lopsided : Graph where
  states := #[{ transitions := [.single 'a' 1] }, { accept := true },
    { transitions := [.single 'b' 0, .single 'b' 1] }]

theorem wellFormed_lopsided : lopsided.WellFormed := ⟨by decide, by decide⟩

theorem truthful_lopsided : lopsided.Truthful := by
  intro _ q hq
  have hreachable : lopsided.reachable = [0, 1] := by decide
  rw [← Graph.mem_reachable_iff, hreachable] at hq
  rcases List.mem_cons.1 hq with rfl | hq
  · exact List.pairwise_singleton _ _
  · rw [List.mem_singleton.1 hq]
    exact List.Pairwise.nil

theorem run_same_lopsided : (graph lopsided).WellFormed ∧ (graph lopsided).Truthful ∧
    ∃ b, (graph lopsided).run ['a'] = .ok b ∧ (b = true ↔ (graph lopsided).Accepts ['a']) ∧
      (graph lopsided).unflag.run ['a'] = .ok b := by
  have hg : (graph lopsided).WellFormed := ⟨by decide, by decide⟩
  obtain ⟨b, hb, hiff, hunflag, _⟩ := run_same hg truthful_lopsided ['a']
  exact ⟨hg, truthful_lopsided, b, hb, hiff, hunflag⟩

end Automaton

end RegLang
