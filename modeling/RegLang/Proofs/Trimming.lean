import RegLang.Proofs.BreadthFirst
import RegLang.Proofs.CheckedGraphs
import RegLang.Proofs.Minimality
import RegLang.Proofs.Simulation
/-!
# Trimming

Trimming filters transitions, numbers what is left breadth first, and then sorts and merges the
transitions of every state.  The last of these does not disturb the numbers: states that are met for
the first time have larger numbers than all those met before, in the order in which they are met, so
they are met in the same order if targets are sorted first.

A trimmed graph has nothing left to filter, its places are numbered already, and its transitions are
in normal form; so nothing changes if it is trimmed again.

* `Trimmed.prune_eq`, `Trimmed.reduce_eq`: filtering and reducing leave a trimmed graph alone.
* `trimming_trim`: what trimming makes.
* `trim_spec`: trimming twice is trimming once.
-/

namespace RegLang

/-- Between two letters there is another one if they are more than one place apart. -/
theorem Alphabet.exists_between {c d : Char} (h : rank c + 1 < rank d) : ∃ e, c < e ∧ e < d := by
  have hd := rank_lt_size d
  refine ⟨ofRank (rank c + 1), ?_, ?_⟩ <;> rw [lt_iff_rank, rank_ofRank (by omega)]
  · exact Nat.lt_succ_self _
  · exact h

namespace Graph

variable {g m : Graph} {q : Nat}

/-! ## Trimmed graphs stay as they are -/

/-- All transitions of a trimmed graph lead to live states. -/
theorem Trimmed.prune_eq (hm : m.Trimmed) (hc : m.hashCode = none) : m.prune = m := by
  have hsize : m.prune.size = m.size := by simp [prune, size]
  refine ext_state hsize (fun q hq => ?_) rfl rfl hc.symm
  rw [hsize] at hq
  have hlive : ∀ t ∈ (m.state q).transitions, m.live.contains t.target = true := by
    intro t ht
    have hreach := (hm.reachable q hq).target (State.mem_targets.2 ⟨t, ht, rfl⟩)
    exact List.contains_iff_mem.2 (mem_live_iff.2 ⟨hreach, hm.live q hq t ht⟩)
  rw [state_prune, restrict, List.filter_eq_self.2 hlive]

/-- The transitions of a trimmed graph are in normal form. -/
theorem Trimmed.reduce_eq (hm : m.Trimmed) (hc : m.hashCode = none) : m.reduce = m := by
  refine ext_state m.size_reduce (fun q hq => ?_) rfl rfl hc.symm
  rw [size_reduce] at hq
  rw [state_reduce (hm.reachable q hq), State.reduce_eq_self (hm.normal q hq)]

theorem trim_trim (g : Graph) : g.trim.trim = g.trim := by
  have hm := g.trimmed_trim
  rw [trim_eq g.trim, hm.prune_eq rfl, compact_eq_self g.reachable_trim, hm.reduce_eq rfl]

/-! ## What trimming makes -/

/-- A graph of the language of `g` with the flag of `g`, truthful as before.  The arena holds what
is reachable, numbered breadth first from `0`, and all of it leads to acceptance; only if there is
no word at all, an initial state without transitions stays.  Between two transitions of a state
with one target some letter is left out. -/
structure Trimming (g h : Graph) : Prop where
  accepts_iff : ∀ w, h.Accepts w ↔ g.Accepts w
  flag : h.deterministic = g.deterministic
  truthful : h.Truthful
  wellFormed : h.WellFormed
  initial_eq : h.initial = 0
  isReachable_iff : ∀ q, h.IsReachable q ↔ q < h.size
  numbered : h.reachable = List.range h.size
  /-- No state is further from the initial one than a later state. -/
  order : ∀ p q w, p ≤ q → q < h.size → h.Path h.initial w q →
    ∃ v : Word, v.length ≤ w.length ∧ h.Path h.initial v p
  live : (∃ w, g.Accepts w) → ∀ q < h.size, ∃ w, h.AcceptsFrom q w
  barren : (∀ w, ¬ g.Accepts w) → h.size = 1 ∧ h.state 0 = {}
  separate : ∀ q < h.size, (h.state q).transitions.Pairwise fun t u =>
    t.target = u.target → ∃ c, t.hi < c ∧ c < u.lo

theorem trimming_trim (ht : g.Truthful) : Trimming g g.trim := by
  have hm := g.trimmed_trim
  have hnumbered := g.reachable_trim
  exact {
    accepts_iff := fun _ => accepts_trim
    flag := g.deterministic_trim
    truthful := fun hf => (ht (g.deterministic_trim ▸ hf)).trim
    wellFormed := hm.wellFormed
    initial_eq := hm.initial_eq
    isReachable_iff := fun q => ⟨hm.wellFormed.lt_of_isReachable, hm.reachable q⟩
    numbered := hnumbered
    order := fun p q w hpq hq hw => exists_path_le hnumbered hpq hq hw
    live := fun ⟨w, hw⟩ q hq =>
      live_of_accepts ⟨w, accepts_trim.2 hw⟩ (hm.noDeadEnds.eq_initial_or (hm.reachable q hq))
    barren := fun hl => hm.lone fun w hw => hl w (accepts_trim.1 hw)
    separate := fun q hq => (hm.normal q hq).imp fun {t u} htu he => by
      obtain hlt | ⟨-, hlt⟩ := htu
      · omega
      · exact Alphabet.exists_between hlt }

open Automaton in
/-- Trimming a well-formed graph whose flag is truthful succeeds, with no access to the arena out of
bounds.  It keeps the language and the flag, leaves the reachable states alone, numbered breadth
first, of which all lead to acceptance, with transitions merged; and it changes nothing the second
time. -/
theorem trim_spec (hg : g.WellFormed) (ht : g.Truthful) :
    ∃ h : Graph, g.apply .trim = .ok h ∧ Checked.trim g = .ok h ∧ Trimming g h ∧
      (∀ w, (graph h).run w = (graph g).run w) ∧ h.apply .trim = .ok h := by
  have hspec := trimming_trim ht
  have happly : ∀ {k : Graph}, k.WellFormed → k.apply .trim = .ok k.trim := fun hk => by
    rw [apply, hk.ensureIntact]
    rfl
  have hproper : (graph g).Proper := ⟨hg, ht⟩
  have hproper' : (graph g.trim).Proper := ⟨hspec.wellFormed, hspec.truthful⟩
  refine ⟨g.trim, happly hg, Checked.trim_eq hg, hspec,
    fun w => hproper.run_congr hproper' (hspec.accepts_iff w), ?_⟩
  rw [happly hspec.wellFormed, trim_trim]

/-- The initial state stands last, a state is out of reach, another one is a dead end, and two
intervals touch. -/
def cluttered : Graph where
  states := #[{ transitions := [.single 'z' 2, .onAny 1] }, { transitions := [.onAny 1] },
    { accept := true },
    { transitions := [.between 'd' 'f' 2, .single 'x' 1, .between 'a' 'c' 2] }]
  initial := 3

theorem trim_spec_cluttered : cluttered.WellFormed ∧ cluttered.Truthful ∧
    ∃ h : Graph, cluttered.apply .trim = .ok h ∧ Trimming cluttered h ∧ h.apply .trim = .ok h := by
  have hg : cluttered.WellFormed := ⟨by decide, by decide⟩
  have ht : cluttered.Truthful := by decide
  obtain ⟨h, hh, -, hspec, -, hagain⟩ := trim_spec hg ht
  exact ⟨hg, ht, h, hh, hspec, hagain⟩

end Graph

end RegLang
