import RegLang.Proofs.HashCodes
import RegLang.Proofs.Operations
import RegLang.Result
/-!
# Remembered hash codes

A graph that is changed forgets its hash code.  Operations and edits either make a graph that
remembers nothing, or answer with an operand as it is, up to its flag; so a remembered hash code is
always that of the language, as long as hash codes are asked of proper automata alone.  Then two
automata of one language have one hash code, whatever was done to make them, unless one of them is
stuck.

* `Operation.nothingNew`, `Graph.nothingNew_apply`: what operations and edits do to hash codes.
* `History.remembers`: remembered hash codes are right throughout every history.
* `History.hashCode_eq`: the hash code follows the language.
-/

namespace RegLang

/-- A filter that succeeds adds nothing. -/
theorem subset_of_filterM {α : Type} {f : α → Except Fault Bool} {xs ys : List α}
    (h : xs.filterM f = .ok ys) : ys ⊆ xs := by
  have aux : ∀ acc zs, xs.filterAuxM f acc = .ok zs → zs ⊆ xs ++ acc := by
    clear h
    induction xs with
    | nil =>
      intro acc zs hz
      cases hz
      exact fun _ hx => hx
    | cons x xs ih =>
      intro acc zs hz
      unfold List.filterAuxM at hz
      obtain ⟨b, -, hz⟩ := bind_eq_ok.1 hz
      intro z hmem
      have hz := ih _ _ hz hmem
      cases b with
      | true => simpa [or_left_comm, or_assoc] using hz
      | false => exact List.mem_cons_of_mem _ hz
  unfold List.filterM at h
  obtain ⟨zs, hz, hy⟩ := bind_eq_ok.1 h
  cases hy
  intro y hy
  simpa using aux [] zs hz (List.mem_reverse.1 hy)

namespace Graph

variable {g h : Graph} {q : Nat}

/-! ## What forgets the hash code -/

@[simp] theorem hashCode_setDeterministic (g : Graph) (flag : Bool) :
    (g.setDeterministic flag).hashCode = g.hashCode := rfl

/-- Compacting changes nothing, or makes a new graph. -/
theorem compact_eq_or (g : Graph) : g.compact = g ∨ g.compact.hashCode = none := by
  unfold compact
  dsimp only
  split
  · exact .inl rfl
  · exact .inr rfl

theorem hashCode_compact (h : g.hashCode = none) : g.compact.hashCode = none := by
  rcases g.compact_eq_or with hg | hg
  · rw [hg, h]
  · exact hg

/-- Determinizing changes nothing, or makes a new graph. -/
theorem determinize_eq_or (g : Graph) : g.determinize = g ∨ g.determinize.hashCode = none := by
  unfold determinize
  split
  · exact .inl rfl
  · exact .inr rfl

/-- Minimizing changes nothing, or makes a new graph. -/
theorem minimize_eq_or {m : Minimization} (hm : g.minimize m = .ok h) :
    h = g ∨ h.hashCode = none := by
  cases m with
  | hopcroft =>
    change (if g.determinize.loopsOnAny then .ok g.determinize
      else (Refinement.partition g.determinize.prepareTotal).map _) = .ok h at hm
    split at hm
    · cases hm
      exact g.determinize_eq_or
    · obtain ⟨p, -, rfl⟩ := map_eq_ok.1 hm
      exact .inr rfl
  | brzozowski =>
    cases hm
    exact .inr rfl
  | huffman =>
    cases hm
    exact .inr rfl

/-- Absorbing along no edge changes nothing. -/
theorem foldl_absorb_eq_or (g : Graph) (pairs : List StatePair) :
    pairs.foldl (fun g p => g.absorb p.1 p.2) g = g ∨
      (pairs.foldl (fun g p => g.absorb p.1 p.2) g).hashCode = none := by
  have hnone : ∀ (ps : List StatePair) (g : Graph), g.hashCode = none →
      (ps.foldl (fun g p => g.absorb p.1 p.2) g).hashCode = none := by
    intro ps
    induction ps with
    | nil => exact fun g hg => hg
    | cons p ps ih => exact fun g _ => ih _ rfl
  cases pairs with
  | nil => exact .inl rfl
  | cons p ps => exact .inr (hnone ps _ rfl)

theorem eq_of_ensureInside {ps : List Nat} (hp : g.ensureInside ps = .ok h) : g = h := by
  unfold ensureInside at hp
  split at hp
  · cases hp
    rfl
  · cases hp

theorem hashCode_absorbInto {ps : List Nat} (h : g.hashCode = none) :
    (g.absorbInto ps q).hashCode = none := by
  unfold absorbInto
  induction ps generalizing g with
  | nil => exact h
  | cons p ps ih => exact ih rfl

end Graph

namespace Automaton

open RegLang.Graph

variable {a b : Automaton} {as : List Automaton} {g h : Graph}

/-! ## Nothing new -/

/-- The second automaton is the first, or differs from it in its flag alone. -/
def Reflags (a b : Automaton) : Prop :=
  b = a ∨ ∃ g flag, a = graph g ∧ b = graph (g.setDeterministic flag)

/-- An automaton remembers nothing, or is one of the given ones up to its flag. -/
def NothingNew (as : List Automaton) (b : Automaton) : Prop :=
  b.remembered? = none ∨ ∃ a ∈ as, Reflags a b

theorem Reflags.trans {c : Automaton} (hab : Reflags a b) (hbc : Reflags b c) : Reflags a c := by
  rcases hbc with rfl | ⟨g, flag, rfl, rfl⟩
  · exact hab
  · rcases hab with rfl | ⟨h, flag', rfl, hb⟩
    · exact .inr ⟨g, flag, rfl, rfl⟩
    · cases hb
      exact .inr ⟨h, flag, rfl, rfl⟩

theorem Reflags.remembered?_eq (h : Reflags a b) : b.remembered? = a.remembered? := by
  rcases h with rfl | ⟨g, flag, rfl, rfl⟩ <;> rfl

/-- The flag has no part in the language, nor in whether the graph is stuck. -/
theorem Reflags.remembers (h : Reflags a b) (ha : a.Remembers) : b.Remembers := by
  rcases h with rfl | ⟨g, flag, rfl, rfl⟩
  · exact ha
  · have hl : (graph (g.setDeterministic flag)).language = (graph g).language :=
      language_graph_congr (fun _ => rfl) rfl
    intro code hcode
    rw [hl]
    exact ha code hcode

theorem nothingNew_of_mem (ha : a ∈ as) : NothingNew as a := .inr ⟨a, ha, .inl rfl⟩

theorem NothingNew.trans {bs : List Automaton} (h : NothingNew bs b)
    (hbs : ∀ c ∈ bs, NothingNew as c) : NothingNew as b := by
  rcases h with h | ⟨c, hc, hcb⟩
  · exact .inl h
  · rcases hbs c hc with hnone | ⟨a, ha, hac⟩
    · exact .inl (hcb.remembered?_eq.trans hnone)
    · exact .inr ⟨a, ha, hac.trans hcb⟩

theorem NothingNew.remembers (h : NothingNew as b) (has : ∀ a ∈ as, a.Remembers) :
    b.Remembers := by
  rcases h with h | ⟨a, ha, hab⟩
  · exact remembers_of_none h
  · exact hab.remembers (has a ha)

theorem NothingNew.setDeterministic (hg : NothingNew as (graph g)) (flag : Bool) :
    NothingNew as (graph (g.setDeterministic flag)) := by
  rcases hg with hg | ⟨a, ha, hag⟩
  · exact .inl hg
  · exact .inr ⟨a, ha, hag.trans (.inr ⟨g, flag, rfl, rfl⟩)⟩

/-- What comes of a graph that is left alone or made anew. -/
theorem NothingNew.of_eq_or (hg : NothingNew as (graph g)) (hh : h = g ∨ h.hashCode = none) :
    NothingNew as (graph h) := by
  rcases hh with rfl | hh
  · exact hg
  · exact .inl hh

theorem NothingNew.compact (hg : NothingNew as (graph g)) : NothingNew as (graph g.compact) :=
  hg.of_eq_or g.compact_eq_or

/-- The chain of a word is new. -/
theorem nothingNew_toGraph (ha : a ∈ as) : NothingNew as (graph a.toGraph) := by
  cases a with
  | singleton w => exact .inl rfl
  | graph g => exact nothingNew_of_mem ha

/-- Changes of form change nothing, or make a new graph. -/
theorem nothingNew_mapGraph {f : Graph → Graph}
    (hf : ∀ g, f g = g ∨ (f g).hashCode = none) (h : mapGraph f a = .ok b) :
    NothingNew [a] b := by
  cases a with
  | singleton w =>
    cases h
    exact .inl rfl
  | graph g =>
    obtain ⟨_, -, rfl⟩ := map_eq_ok.1 h
    exact (nothingNew_of_mem List.mem_cons_self).of_eq_or (hf g)

/-! ## Operations -/

theorem hashCode_branch {hs : List Graph} (hg : g.hashCode = none) :
    (hs.foldl branch g).hashCode = none := by
  induction hs generalizing g with
  | nil => exact hg
  | cons h hs ih => exact ih rfl

theorem nothingNew_union (h : union as = .ok b) : NothingNew as b := by
  obtain ⟨live, hlive, h⟩ := bind_eq_ok.1 h
  match live, hlive, h with
  | [], _, h =>
    cases h
    exact .inl (hashCode_compact rfl)
  | a :: rest, hlive, h =>
    dsimp only at h
    split at h
    · cases h
      exact nothingNew_of_mem (subset_of_filterM hlive List.mem_cons_self)
    · cases h
      exact .inl (hashCode_compact (hashCode_branch rfl))

theorem hashCode_continueIn {init : Nat} {qs : List Nat} {p : Prefix}
    (hp : p.graph.hashCode = none) : (continueIn init qs p).graph.hashCode = none := by
  induction qs generalizing p with
  | nil => exact hp
  | cons q qs ih => exact ih rfl

theorem followBy_eq_or {p : Prefix} (h : Graph) :
    followBy p h = p ∨ (followBy p h).graph.hashCode = none := by
  unfold followBy
  split
  · exact .inl rfl
  · exact .inr (hashCode_continueIn rfl)

theorem foldl_followBy_eq_or {hs : List Graph} {p : Prefix} :
    hs.foldl followBy p = p ∨ (hs.foldl followBy p).graph.hashCode = none := by
  induction hs generalizing p with
  | nil => exact .inl rfl
  | cons h hs ih =>
    rw [List.foldl_cons]
    rcases followBy_eq_or (p := p) h with hp | hp
    · rw [hp]
      exact ih
    · rcases ih (p := followBy p h) with hq | hq
      · rw [hq]
        exact .inr hp
      · exact .inr hq

/-- Factors that add nothing are left out, so what is left may be the first factor. -/
theorem nothingNew_concatenate (h : concatenate as = .ok b) : NothingNew as b := by
  unfold concatenate at h
  split at h
  · cases h
    exact .inl rfl
  obtain ⟨isNone, -, h⟩ := bind_eq_ok.1 h
  split at h
  · cases h
    exact .inl rfl
  match as, h with
  | [], h =>
    cases h
    exact .inl rfl
  | a :: as, h =>
    cases h
    refine ((?_ : NothingNew (a :: as) (graph _)).setDeterministic false).compact
    refine (nothingNew_toGraph List.mem_cons_self).of_eq_or ?_
    exact foldl_followBy_eq_or.imp (congrArg Prefix.graph) id

theorem nothingNew_keepWord {w : Word} (h : keepWord w a = .ok b) : NothingNew as b := by
  obtain ⟨accepted, -, rfl⟩ := map_eq_ok.1 h
  cases accepted <;> exact .inl rfl

theorem nothingNew_intersection {c : Automaton} (h : a.intersection b = .ok c) :
    NothingNew as c := by
  match a, b, h with
  | .singleton w, b, h => exact nothingNew_keepWord h
  | .graph g, .singleton w, h => exact nothingNew_keepWord h
  | .graph g, .graph k, h =>
    unfold intersection at h
    dsimp only at h
    split at h
    · cases h
      exact .inl rfl
    · cases h

theorem nothingNew_minus {c : Automaton} (h : a.minus b = .ok c) : NothingNew [a, b] c := by
  obtain ⟨isNone, -, h⟩ := bind_eq_ok.1 h
  split at h
  · cases h
    exact .inl rfl
  obtain ⟨isNone', -, h⟩ := bind_eq_ok.1 h
  split at h
  · cases h
    exact nothingNew_of_mem List.mem_cons_self
  cases a with
  | singleton w =>
    obtain ⟨accepted, -, h⟩ := bind_eq_ok.1 h
    cases accepted with
    | true =>
      cases h
      exact .inl rfl
    | false =>
      cases h
      exact .inl rfl
  | graph g =>
    obtain ⟨d, -, h⟩ := bind_eq_ok.1 h
    exact nothingNew_intersection h

theorem remembered?_star (h : a.star = .ok b) : b.remembered? = none := by
  obtain ⟨_, -, h⟩ := bind_eq_ok.1 h
  obtain ⟨_, -, h⟩ := bind_eq_ok.1 h
  obtain ⟨_, -, h⟩ := bind_eq_ok.1 h
  cases h
  exact hashCode_compact rfl

theorem nothingNew_replicate {n : Nat} (h : concatenate (List.replicate n a) = .ok b) :
    NothingNew [a] b :=
  (nothingNew_concatenate h).trans fun _ hc =>
    nothingNew_of_mem (List.mem_singleton.2 (List.eq_of_mem_replicate hc))

theorem nothingNew_atLeast {n : Nat} (h : a.atLeast n = .ok b) : NothingNew [a] b := by
  unfold atLeast at h
  split at h
  · exact .inl (remembered?_star h)
  · obtain ⟨rest, hrest, h⟩ := bind_eq_ok.1 h
    refine (nothingNew_concatenate h).trans fun c hc => ?_
    rcases List.mem_append.1 hc with hc | hc
    · exact nothingNew_of_mem (List.mem_singleton.2 (List.eq_of_mem_replicate hc))
    · rw [List.mem_singleton.1 hc]
      exact .inl (remembered?_star hrest)

theorem hashCode_mayContinue {whole : Graph} (hw : mayContinue g h = .ok whole) :
    whole.hashCode = none := by
  obtain ⟨_, -, hw⟩ := bind_eq_ok.1 hw
  obtain ⟨joined, hjoined, hw⟩ := bind_eq_ok.1 hw
  cases hw
  rw [← eq_of_ensureInside hjoined]
  exact hashCode_absorbInto rfl

theorem nothingNew_required {lo : Nat} (h : a.required lo = .ok b) : NothingNew [a] b := by
  match lo, h with
  | 0, h =>
    cases h
    exact .inl rfl
  | 1, h =>
    cases h
    exact nothingNew_of_mem List.mem_cons_self
  | lo + 2, h => exact nothingNew_replicate h

theorem nothingNew_repeated {lo hi : Nat} (h : a.repeated lo hi = .ok b) : NothingNew [a] b := by
  rw [repeated_eq] at h
  split at h
  · cases h
    exact .inl rfl
  obtain ⟨first, hfirst, h⟩ := bind_eq_ok.1 h
  split at h
  · cases h
    exact nothingNew_required hfirst
  obtain ⟨rest, -, h⟩ := bind_eq_ok.1 h
  obtain ⟨whole, hwhole, h⟩ := bind_eq_ok.1 h
  obtain ⟨_, -, h⟩ := bind_eq_ok.1 h
  cases h
  have hnone : whole.hashCode = none := hashCode_mayContinue hwhole
  exact .inl (hashCode_compact (whole.hashCode_setDeterministic false ▸ hnone))

theorem nothingNew_determinize (h : a.determinize = .ok b) : NothingNew [a] b := by
  cases a with
  | singleton w =>
    cases h
    exact .inl rfl
  | graph g =>
    change (if g.deterministic then .ok (graph g)
      else mapGraph Graph.determinize (graph g)) = .ok b at h
    split at h
    · cases h
      exact nothingNew_of_mem List.mem_cons_self
    · exact nothingNew_mapGraph determinize_eq_or h

theorem nothingNew_minimize {m : Minimization} (h : a.minimize m = .ok b) : NothingNew [a] b := by
  cases a with
  | singleton w =>
    cases h
    exact .inl rfl
  | graph g =>
    obtain ⟨_, -, h⟩ := bind_eq_ok.1 h
    obtain ⟨k, hk, rfl⟩ := map_eq_ok.1 h
    exact (nothingNew_of_mem List.mem_cons_self).of_eq_or (minimize_eq_or hk)

theorem nothingNew_complement (h : a.complement = .ok b) : NothingNew as b := by
  obtain ⟨d, -, h⟩ := bind_eq_ok.1 h
  obtain ⟨total, -, h⟩ := bind_eq_ok.1 h
  cases h
  exact .inl rfl

theorem nothingNew_optional (h : a.optional = .ok b) : NothingNew as b := by
  obtain ⟨_, -, h⟩ := bind_eq_ok.1 h
  cases h
  exact .inl rfl

end Automaton

open Automaton

variable {as : List Automaton} {a b : Automaton} {g h : Graph}

/-- An operation makes an automaton that remembers nothing, or answers with an operand. -/
theorem Operation.nothingNew {op : Operation} (h : op.run = .ok b) : NothingNew op.operands b := by
  cases op with
  | union as => exact nothingNew_union h
  | concatenate as => exact nothingNew_concatenate h
  | intersection a c => exact nothingNew_intersection h
  | minus a c => exact nothingNew_minus h
  | complement a => exact nothingNew_complement h
  | optional a => exact nothingNew_optional h
  | star a => exact .inl (remembered?_star h)
  | atLeast a n => exact nothingNew_atLeast h
  | repeated a lo hi => exact nothingNew_repeated h
  | determinize a => exact nothingNew_determinize h
  | minimize m a => exact nothingNew_minimize h
  | reduce a => exact nothingNew_mapGraph (fun _ => .inr rfl) h
  | totalize a =>
    obtain ⟨_, -, rfl⟩ := map_eq_ok.1 h
    exact .inl rfl
  | trim a => exact nothingNew_mapGraph (fun _ => .inr rfl) h
  | compact a => exact nothingNew_mapGraph Graph.compact_eq_or h
  | expand a =>
    cases h
    exact nothingNew_toGraph List.mem_cons_self

/-! ## Primitive automata and edits -/

theorem Interval.hashCode_graph (lo hi digits : Nat) :
    (Interval.graph lo hi digits).hashCode = none := by
  apply Graph.hashCode_compact
  split <;> rfl

theorem Primitive.nothingNew {p : Primitive} (h : p.make = .ok a) : NothingNew [] a := by
  cases p with
  | interval lo hi digits =>
    change ofInterval lo hi digits = .ok a at h
    unfold ofInterval at h
    split at h
    · cases h
    split at h
    · cases h
    refine (nothingNew_minimize h).trans fun c hc => ?_
    rw [List.mem_singleton.1 hc]
    exact .inl (Interval.hashCode_graph lo hi digits)
  | empty =>
    cases h
    exact .inl rfl
  | word w =>
    cases h
    exact .inl rfl
  | letter c =>
    cases h
    exact .inl rfl
  | range c d =>
    cases h
    unfold ofRange
    split <;> exact .inl rfl
  | letters cs =>
    cases h
    unfold ofLetters
    split <;> exact .inl rfl
  | anyLetter =>
    cases h
    exact .inl rfl
  | anyWord =>
    cases h
    exact .inl rfl
  | containing w =>
    cases h
    exact .inl rfl

/-- An edit changes nothing but the flag, or the graph forgets its hash code. -/
theorem Graph.nothingNew_apply {e : Edit} (hg : graph g ∈ as) (he : g.apply e = .ok h) :
    NothingNew as (graph h) := by
  cases e with
  | addState =>
    cases he
    exact .inl rfl
  | setInitial q =>
    cases he
    exact .inl rfl
  | setAccept q accept =>
    obtain ⟨_, -, rfl⟩ := map_eq_ok.1 he
    exact .inl rfl
  | addTransition q t =>
    obtain ⟨_, -, rfl⟩ := map_eq_ok.1 he
    exact .inl rfl
  | addEpsilon p q =>
    obtain ⟨_, -, rfl⟩ := map_eq_ok.1 he
    exact .inl rfl
  | addEpsilons pairs =>
    obtain ⟨k, hk, rfl⟩ := map_eq_ok.1 he
    obtain rfl : g = k := eq_of_ensureInside hk
    exact ((nothingNew_of_mem hg).of_eq_or (g.foldl_absorb_eq_or _)).setDeterministic false
  | compact =>
    obtain ⟨_, -, rfl⟩ := map_eq_ok.1 he
    exact (nothingNew_of_mem hg).compact
  | reduce =>
    obtain ⟨_, -, rfl⟩ := map_eq_ok.1 he
    exact .inl rfl
  | totalize =>
    obtain ⟨_, -, rfl⟩ := map_eq_ok.1 he
    exact .inl rfl
  | trim =>
    obtain ⟨_, -, rfl⟩ := map_eq_ok.1 he
    exact .inl rfl

/-! ## Histories -/

/-- What can be made from automata in one step: a new automaton, a primitive one, the result of an
operation, what a pattern compiles to, a graph after an edit or after any change of one of its
states, and a proper automaton after it was asked for its hash code. -/
inductive Changes (as : List Automaton) : Automaton → Prop
  | new {a : Automaton} (h : a.remembered? = none) : Changes as a
  | primitive (p : Primitive) {a : Automaton} (h : p.make = .ok a) : Changes as a
  | operation (op : Operation) {a : Automaton} (hop : ∀ b ∈ op.operands, b ∈ as)
    (h : op.run = .ok a) : Changes as a
  | compiled (pattern : Word) (options : Options) (names : Names) {a : Automaton}
    (hnames : ∀ x ∈ names, x.2 ∈ as) (h : (compileWith pattern options names).1 = .ok a) :
    Changes as a
  | edit (e : Edit) {g h : Graph} (hg : graph g ∈ as) (he : g.apply e = .ok h) :
    Changes as (graph h)
  | modify (q : Nat) (f : State → State) {g : Graph} (hg : graph g ∈ as) :
    Changes as (graph (g.modify q f))
  | hashed {a b : Automaton} {code : Nat} (ha : a ∈ as) (hp : a.Proper)
    (h : a.withHashCode = .ok (code, b)) : Changes as b

theorem inherited_remembers : Inherited Remembers where
  primitive p _ h := (p.nothingNew h).remembers fun _ hb => absurd hb List.not_mem_nil
  operation op _ hop h := (op.nothingNew h).remembers hop

theorem Changes.remembers (has : ∀ b ∈ as, b.Remembers) (h : Changes as a) : a.Remembers := by
  cases h with
  | new h => exact remembers_of_none h
  | primitive p h => exact inherited_remembers.primitive p a h
  | operation op hop h => exact inherited_remembers.operation op a (fun b hb => has b (hop b hb)) h
  | compiled pattern options names hnames h =>
    exact inherited_remembers.compileWith (fun x hx => has _ (hnames x hx)) h
  | edit e hg he => exact (Graph.nothingNew_apply hg he).remembers has
  | modify q f hg => exact remembers_of_none rfl
  | hashed ha hp h =>
    obtain ⟨code, c, hc, -, -, hrem, -⟩ := exists_withHashCode hp (has _ ha)
    cases h.symm.trans hc
    exact hrem

/-- What is remembered is right throughout every history. -/
theorem History.remembers (h : History Changes as) : ∀ a ∈ as, a.Remembers :=
  h.forall fun _ _ has hstep => hstep.remembers has

/-- Proper automata of one language have one hash code, whatever was done to make them and whatever
they were asked before, as long as neither of them is stuck. -/
theorem History.hashCode_eq (h : History Changes as) (ha : a ∈ as) (hb : b ∈ as) (hpa : a.Proper)
    (hpb : b.Proper) (hsa : ¬ a.Stuck) (hsb : ¬ b.Stuck) (hl : a.language = b.language) :
    ∃ code a' b', a.withHashCode = .ok (code, a') ∧ b.withHashCode = .ok (code, b') ∧
      a'.language = a.language ∧ b'.language = a.language := by
  obtain ⟨m, a', hm, -, hla, -, hcode⟩ := exists_withHashCode hpa (h.remembers a ha)
  obtain ⟨n, b', hn, -, hlb, -, hcode'⟩ := exists_withHashCode hpb (h.remembers b hb)
  have hm' : Graph.IsCode b.language m := hl ▸ hcode.resolve_right hsa
  obtain rfl : m = n := hm'.unique (hcode'.resolve_right hsb)
  exact ⟨m, a', b', hm, hn, hla, hlb.trans hl.symm⟩

/-- A word, and its chain of states after it was asked for its hash code. -/
theorem History.hashCode_eq_ofWord :
    History Changes [graph { Graph.ofWord ['a'] with hashCode := some 7 },
      graph (Graph.ofWord ['a']), ofWord ['a']] ∧
    ∃ code a' b', (ofWord ['a']).withHashCode = .ok (code, a') ∧
      (graph { Graph.ofWord ['a'] with hashCode := some 7 }).withHashCode = .ok (code, b') := by
  have hchain : (graph (Graph.ofWord ['a'])).Proper :=
    ⟨Graph.wellFormed_ofWord _, fun _ => Graph.isDeterministic_ofWord _⟩
  have hhash : (graph (Graph.ofWord ['a'])).withHashCode =
      .ok (7, graph { Graph.ofWord ['a'] with hashCode := some 7 }) := by decide +kernel
  have h : History Changes [graph { Graph.ofWord ['a'] with hashCode := some 7 },
      graph (Graph.ofWord ['a']), ofWord ['a']] :=
    .next (.next (.next .start (.primitive (.word ['a']) rfl))
      (.operation (.expand (ofWord ['a'])) (fun _ hb => hb) rfl))
      (.hashed List.mem_cons_self hchain hhash)
  have hlast : ofWord ['a'] ∈ [graph { Graph.ofWord ['a'] with hashCode := some 7 },
      graph (Graph.ofWord ['a']), ofWord ['a']] := by simp
  have hl : (ofWord ['a']).language =
      (graph { Graph.ofWord ['a'] with hashCode := some 7 }).language :=
    (language_toGraph (ofWord ['a'])).symm.trans
      (language_graph_congr (g := .ofWord ['a']) (fun _ => rfl) rfl)
  obtain ⟨code, a', b', ha, hb, -⟩ := h.hashCode_eq hlast List.mem_cons_self (proper_singleton _)
    (hchain.remember (some 7)) not_false (fun hs => by cases hs.1) hl
  exact ⟨h, code, a', b', ha, hb⟩

end RegLang
