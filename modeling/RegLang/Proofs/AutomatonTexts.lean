import RegLang.Proofs.Digits
import RegLang.Result
import RegLang.Text.Dot
/-!
# What the text of an automaton tells

A letter in print tells where it ends: it is itself, or it runs from a backslash to a closing brace.
So an interval can be read back although the dash between its bounds may be a bound itself.  No
letter in print is a blank, a line break or a quote; hence the first blank of a transition stands
right behind its interval, and lines can be told apart.  Lines about a state and lines about a
transition start with different letters.

    Text.graph g = Text.graph h ↔ g.initial = h.initial ∧ g.listing = h.listing        (graph_eq_iff)

* `letter_append_inj`, `interval_eq_iff`: letters and intervals in print.
* `lines_inj`, `groups_inj`: from a text to its lines, and from lines to states.
* `Automaton.text_spec`: automata with the same text, and edges with the same label.
-/

namespace RegLang

open RegLang.Numeral

/-! ## Definitions -/

namespace Numeral

/-- The value of a hexadecimal digit. -/
def digitValue (c : Char) : Nat := if c.isDigit then c.toNat - 48 else c.toNat - 87

/-- The number that hexadecimal digits denote. -/
def hexValue (ds : Word) : Nat := ds.foldl (fun v c => 16 * v + digitValue c) 0

end Numeral

/-- The reachable states of a graph in breadth-first order, each with its place. -/
def Graph.listing (g : Graph) : List (Nat × State) := g.reachable.map fun q => (q, g.state q)

/-- The same word, or the same initial state and the same reachable states in breadth-first order,
which accept alike and have the same transitions in the same order. -/
inductive Automaton.Alike : Automaton → Automaton → Prop
  | word : Alike (.singleton w) (.singleton w)
  | graph {g h : Graph} (initial : g.initial = h.initial) (reachable : g.reachable = h.reachable)
      (accept : ∀ q ∈ g.reachable, (g.state q).accept = (h.state q).accept)
      (transitions : ∀ q ∈ g.reachable, (g.state q).transitions = (h.state q).transitions) :
      Alike (.graph g) (.graph h)

/-- What is written about an automaton with all its reachable states in the arena. -/
def Automaton.written : Automaton → Word
  | .singleton w => Text.line ("singleton: ".toList ++ w.flatMap Text.letter)
  | .graph g => Text.graph g

namespace Text

/-- The letter stands for itself in print. -/
def Visible (c : Char) : Prop := 0x21 ≤ c.toNat ∧ c.toNat ≤ 0x7E ∧ c ≠ '\\' ∧ c ≠ '"'

/-- The line about a state, without its transitions. -/
def stateLine (q : Nat) (accept : Bool) : Word :=
  "state ".toList ++ (stateId q ++ ' ' :: (if accept then "[accept]:" else "[reject]:").toList)

/-- The line about a transition. -/
def edgeLine (t : Transition) : Word := ' ' :: ' ' :: transition t

end Text

/-! ## Numbers -/

namespace Numeral

variable {c : Char} {ds : Word} {m n width : Nat}

theorem digitValue_digitChar : ∀ d < 16, digitValue d.digitChar = d := by decide

theorem isAlphanum_digitChar : ∀ d < 16, d.digitChar.isAlphanum = true := by decide

theorem hexValue_append_singleton (ds : Word) (c : Char) :
    hexValue (ds ++ [c]) = 16 * hexValue ds + digitValue c := by
  simp [hexValue]

theorem hexValue_zeros_append (k : Nat) (ds : Word) :
    hexValue (List.replicate k '0' ++ ds) = hexValue ds := by
  have hzero : 16 * 0 + digitValue '0' = 0 := by decide
  induction k with
  | zero => rfl
  | succ k ih =>
    rw [List.replicate_succ, List.cons_append, hexValue, List.foldl_cons, hzero]
    exact ih

theorem hexValue_toDigits (n : Nat) : hexValue (Nat.toDigits 16 n) = n := by
  induction n using Nat.strongRecOn with
  | ind n ih =>
    rw [Nat.toDigits_eq_if (by decide)]
    split
    · next hn =>
      show 16 * 0 + digitValue n.digitChar = n
      rw [digitValue_digitChar n hn, Nat.mul_zero, Nat.zero_add]
    · next hn =>
      rw [hexValue_append_singleton, ih (n / 16) (by omega),
        digitValue_digitChar _ (Nat.mod_lt n (by decide))]
      omega

/-- A number in hexadecimal can be read back. -/
theorem hexValue_padded (width n : Nat) : hexValue (padded 16 width n) = n := by
  rw [padded, hexValue_zeros_append, hexValue_toDigits]

theorem isAlphanum_of_mem_toDigits (h : c ∈ Nat.toDigits 16 n) : c.isAlphanum = true := by
  induction n using Nat.strongRecOn with
  | ind n ih =>
    rw [Nat.toDigits_eq_if (by decide)] at h
    split at h
    · next hn =>
      rw [List.mem_singleton.1 h]
      exact isAlphanum_digitChar n hn
    · next hn =>
      rcases List.mem_append.1 h with h | h
      · exact ih (n / 16) (by omega) h
      · rw [List.mem_singleton.1 h]
        exact isAlphanum_digitChar _ (Nat.mod_lt n (by decide))

theorem isAlphanum_of_mem_padded (h : c ∈ padded 16 width n) : c.isAlphanum = true := by
  rcases List.mem_append.1 h with h | h
  · rw [(List.mem_replicate.1 h).2]
    rfl
  · exact isAlphanum_of_mem_toDigits h

theorem decimal_inj (h : decimal m = decimal n) : m = n := by
  rw [← value_decimal m, h, value_decimal]

theorem notMem_decimal (hc : c.isDigit = false) : c ∉ decimal n := by
  intro hmem
  rw [List.all_eq_true.1 (allDigits_decimal n) c hmem] at hc
  cases hc

end Numeral

/-! ## Words up to a sign -/

variable {α : Type} {c d : Char} {r s v w : Word} {t u : Transition} {p q : Nat} {g h : Graph}
  {a b : Automaton}

/-- What stands before the first occurrence of a sign. -/
theorem append_cons_inj (hv : c ∉ v) (hw : c ∉ w) (h : v ++ c :: r = w ++ c :: s) :
    v = w ∧ r = s := by
  induction v generalizing w with
  | nil =>
    cases w with
    | nil => exact ⟨rfl, (List.cons.inj h).2⟩
    | cons d w => exact absurd ((List.cons.inj h).1 ▸ List.mem_cons_self) hw
  | cons d v ih =>
    cases w with
    | nil => exact absurd ((List.cons.inj h).1 ▸ List.mem_cons_self) hv
    | cons e w =>
      obtain ⟨hde, htail⟩ := List.cons.inj h
      obtain ⟨hvw, hrs⟩ := ih (fun hc => hv (List.mem_cons_of_mem d hc))
        (fun hc => hw (List.mem_cons_of_mem e hc)) htail
      exact ⟨by rw [hde, hvw], hrs⟩

namespace Text

/-! ## Letters and intervals -/

theorem letter_cases (c : Char) : Visible c ∧ letter c = [c] ∨
    letter c = '\\' :: 'u' :: '\x7b' :: (padded 16 4 c.toNat ++ ['\x7d']) := by
  unfold letter
  split
  · next hc =>
    simp only [Bool.and_eq_true, decide_eq_true_iff, bne_iff_ne] at hc
    exact .inl ⟨⟨hc.1.1.1, hc.1.1.2, hc.1.2, hc.2⟩, rfl⟩
  · exact .inr rfl

/-- A letter in print tells which it is and where it ends. -/
theorem letter_append_inj (h : letter c ++ r = letter d ++ s) : c = d ∧ r = s := by
  have hclose : ∀ n, '\x7d' ∉ padded 16 4 n := fun n hmem =>
    absurd (isAlphanum_of_mem_padded hmem) (by decide)
  rcases letter_cases c with ⟨hc, hcl⟩ | hcl <;> rcases letter_cases d with ⟨hd, hdl⟩ | hdl <;>
    rw [hcl, hdl] at h
  · exact List.cons.inj h
  · exact absurd (List.cons.inj h).1 hc.2.2.1
  · exact absurd (List.cons.inj h).1.symm hd.2.2.1
  · simp only [List.cons_append, List.append_assoc, List.nil_append, List.cons.injEq,
      true_and] at h
    obtain ⟨hdigits, hrest⟩ := append_cons_inj (hclose _) (hclose _) h
    refine ⟨Alphabet.toNat_inj ?_, hrest⟩
    rw [← hexValue_padded 4 c.toNat, hdigits, hexValue_padded]

theorem letter_inj (h : letter c = letter d) : c = d :=
  (letter_append_inj (congrArg (· ++ []) h)).1

theorem letters_inj (h : v.flatMap letter = w.flatMap letter) : v = w := by
  have hne : ∀ c, letter c ≠ [] := fun c => by
    rcases letter_cases c with ⟨-, hc⟩ | hc <;> simp [hc]
  induction v generalizing w with
  | nil =>
    cases w with
    | nil => rfl
    | cons d w => simp [hne] at h
  | cons c v ih =>
    cases w with
    | nil => simp [hne] at h
    | cons d w =>
      obtain ⟨hcd, hrest⟩ := letter_append_inj h
      rw [hcd, ih hrest]

/-- Signs that are neither visible nor part of an escape. -/
theorem notMem_letter (hd : d ∈ [' ', '\n', '"']) : d ∉ letter c := by
  have hplain : d.isAlphanum = false ∧ d ∉ ['\\', 'u', '\x7b', '\x7d'] ∧ ¬ Visible d := by
    simp only [List.mem_cons, List.not_mem_nil, or_false] at hd
    rcases hd with rfl | rfl | rfl <;> exact ⟨by decide, by decide, by unfold Visible; decide⟩
  obtain ⟨hnone, hescape, hhidden⟩ := hplain
  rcases letter_cases c with ⟨hc, hcl⟩ | hcl <;> rw [hcl] <;> intro hmem
  · exact hhidden (List.mem_singleton.1 hmem ▸ hc)
  · have hdigit : d ∉ padded 16 4 c.toNat := fun hmem => by
      rw [isAlphanum_of_mem_padded hmem] at hnone
      cases hnone
    simp_all

theorem notMem_interval (hd : d ∈ [' ', '\n', '"']) : d ∉ interval t := by
  have hdash : d ≠ '-' := by
    rintro rfl
    exact absurd hd (by decide)
  unfold interval
  split
  · exact notMem_letter hd
  · simp [notMem_letter hd, hdash]

/-- An interval in print tells its bounds, even where they are dashes. -/
theorem interval_eq_iff : interval t = interval u ↔ t.lo = u.lo ∧ t.hi = u.hi := by
  constructor
  · intro h
    unfold interval at h
    -- one letter is never the beginning of two with a dash between them
    split at h <;> split at h
    · next ht hu =>
      have hlo := letter_inj h
      exact ⟨hlo, ht ▸ hu ▸ hlo⟩
    · next ht hu =>
      rw [List.append_assoc, ← List.append_nil (letter t.lo)] at h
      cases (letter_append_inj h).2
    · next ht hu =>
      rw [List.append_assoc, ← List.append_nil (letter u.lo)] at h
      cases (letter_append_inj h).2
    · next ht hu =>
      rw [List.append_assoc, List.append_assoc] at h
      obtain ⟨hlo, hrest⟩ := letter_append_inj h
      exact ⟨hlo, letter_inj (List.cons.inj hrest).2⟩
  · rintro ⟨hlo, hhi⟩
    unfold interval
    rw [hlo, hhi]

theorem transition_inj (h : transition t = transition u) : t = u := by
  have hblank : ∀ t : Transition, transition t = interval t ++ ' ' :: ('-' :: '>' :: ' ' ::
      stateId t.target) := fun t => by simp [transition]
  rw [hblank, hblank] at h
  obtain ⟨hinterval, htarget⟩ := append_cons_inj (notMem_interval (by decide))
    (notMem_interval (by decide)) h
  obtain ⟨hlo, hhi⟩ := interval_eq_iff.1 hinterval
  have hto : stateId t.target = stateId u.target := by simpa using htarget
  have hto : t.target = u.target := decimal_inj hto
  cases t
  cases u
  simp_all

/-! ## Lines -/

theorem stateLine_inj {x y : Bool} (h : stateLine p x = stateLine q y) : p = q ∧ x = y := by
  have hdigits : ∀ n, ' ' ∉ stateId n := fun _ => notMem_decimal (by decide)
  obtain ⟨hid, hkind⟩ := append_cons_inj (hdigits _) (hdigits _) (List.append_cancel_left h)
  refine ⟨decimal_inj hid, ?_⟩
  cases x <;> cases y <;> first | rfl | exact absurd hkind (by decide)

theorem edgeLine_inj (h : edgeLine t = edgeLine u) : t = u :=
  transition_inj (List.cons.inj (List.cons.inj h).2).2

theorem break_notMem_stateId : '\n' ∉ stateId q := notMem_decimal (by decide)

theorem break_notMem_stateLine {x : Bool} : '\n' ∉ stateLine q x := by
  have hkind : '\n' ∉ (if x then "[accept]:" else "[reject]:").toList := by
    cases x <;> decide
  have hstate : '\n' ∉ "state ".toList := by decide
  unfold stateLine
  simp only [List.mem_append, List.mem_cons, not_or]
  exact ⟨hstate, break_notMem_stateId, by decide, hkind⟩

theorem break_notMem_edgeLine : '\n' ∉ edgeLine t := by
  simp [edgeLine, transition, break_notMem_stateId, notMem_interval]

/-- A text tells its lines. -/
theorem lines_inj {vs ws : List Word} (hvs : ∀ v ∈ vs, '\n' ∉ v) (hws : ∀ w ∈ ws, '\n' ∉ w)
    (h : vs.flatMap line = ws.flatMap line) : vs = ws := by
  induction vs generalizing ws with
  | nil =>
    cases ws with
    | nil => rfl
    | cons w ws => simp [line] at h
  | cons v vs ih =>
    cases ws with
    | nil => simp [line] at h
    | cons w ws =>
      obtain ⟨hv, hvs⟩ := List.forall_mem_cons.1 hvs
      obtain ⟨hw, hws⟩ := List.forall_mem_cons.1 hws
      simp only [List.flatMap_cons, line, List.append_assoc, List.cons_append,
        List.nil_append] at h
      obtain ⟨hvw, hrest⟩ := append_cons_inj hv hw h
      rw [hvw, ih hvs hws hrest]

/-- Groups of lines, each a first line with further ones behind it, can be told apart if the first
lines can. -/
theorem groups_inj {head : α → Word} {further : α → List Word} (First : Word → Bool)
    (hhead : ∀ x, First (head x) = true) (hfurther : ∀ x, ∀ v ∈ further x, First v = false)
    {xs ys : List α}
    (h : (xs.flatMap fun x => head x :: further x) = ys.flatMap fun x => head x :: further x) :
    (xs.map fun x => (head x, further x)) = ys.map fun x => (head x, further x) := by
  -- the further lines of a group are those up to the next first line
  have hcut : ∀ (x : α) (zs : List α),
      (further x ++ zs.flatMap fun x => head x :: further x).takeWhile (fun v => !First v) =
        further x := by
    intro x zs
    rw [List.takeWhile_append_of_pos fun v hv => by rw [hfurther x v hv]; rfl]
    cases zs with
    | nil => exact List.append_nil _
    | cons z zs =>
      rw [List.flatMap_cons, List.cons_append, List.takeWhile_cons_of_neg (by simp [hhead])]
      exact List.append_nil _
  induction xs generalizing ys with
  | nil =>
    cases ys with
    | nil => rfl
    | cons y ys => cases h
  | cons x xs ih =>
    cases ys with
    | nil => cases h
    | cons y ys =>
      simp only [List.flatMap_cons, List.cons_append, List.cons.injEq] at h
      obtain ⟨hxy, hrest⟩ := h
      have hsame := congrArg (List.takeWhile fun v => !First v) hrest
      rw [hcut, hcut] at hsame
      rw [hsame] at hrest
      rw [List.map_cons, List.map_cons, hxy, hsame, ih (List.append_cancel_left hrest)]

/-! ## Graphs -/

/-- The lines about a state and its transitions. -/
theorem state_eq (q : Nat) (s : State) :
    state q s = (stateLine q s.accept :: s.transitions.map edgeLine).flatMap line := by
  rw [List.flatMap_cons, List.flatMap_map]
  unfold state
  congr 1
  unfold stateLine
  cases s.accept <;> simp

theorem graph_eq (g : Graph) : graph g = (("initial state: ".toList ++ stateId g.initial) ::
    g.listing.flatMap fun x =>
      stateLine x.1 x.2.accept :: x.2.transitions.map edgeLine).flatMap line := by
  rw [List.flatMap_cons, List.flatMap_assoc]
  simp only [← state_eq]
  rw [Graph.listing, List.flatMap_map]
  rfl

/-- The text of a graph tells its initial state and its reachable states. -/
theorem graph_eq_iff : graph g = graph h ↔ g.initial = h.initial ∧ g.listing = h.listing := by
  constructor
  · intro heq
    rw [graph_eq, graph_eq] at heq
    have hbreak : ∀ g : Graph, ∀ v ∈ ("initial state: ".toList ++ stateId g.initial) ::
        g.listing.flatMap fun x => stateLine x.1 x.2.accept :: x.2.transitions.map edgeLine,
        '\n' ∉ v := by
      intro g v hv
      simp only [List.mem_cons, List.mem_flatMap, List.mem_map] at hv
      obtain rfl | ⟨x, -, rfl | ⟨t, -, rfl⟩⟩ := hv
      · simp [break_notMem_stateId]
      · exact break_notMem_stateLine
      · exact break_notMem_edgeLine
    obtain ⟨hinitial, hstates⟩ := List.cons.inj (lines_inj (hbreak g) (hbreak h) heq)
    refine ⟨decimal_inj (List.append_cancel_left hinitial), ?_⟩
    have hgroups := groups_inj (fun v => v.head? == some 's') (fun _ => rfl)
      (fun x v hv => by
        obtain ⟨t, -, rfl⟩ := List.mem_map.1 hv
        rfl) hstates
    refine List.map_injective_iff.2 (fun x y hxy => ?_) hgroups
    obtain ⟨hline, hedges⟩ := Prod.mk.inj hxy
    obtain ⟨hplace, haccept⟩ := stateLine_inj hline
    have htransitions := List.map_injective_iff.2 (fun _ _ => edgeLine_inj) hedges
    obtain ⟨p, x⟩ := x
    obtain ⟨q, y⟩ := y
    cases x
    cases y
    simp_all
  · rintro ⟨hinitial, hlisting⟩
    rw [graph_eq, graph_eq, hinitial, hlisting]

end Text

theorem Graph.listing_eq_iff : g.listing = h.listing ↔ g.reachable = h.reachable ∧
    ∀ q ∈ g.reachable, g.state q = h.state q := by
  constructor
  · intro heq
    have hreachable : g.reachable = h.reachable := by
      have hfst : ∀ g : Graph, g.listing.map Prod.fst = g.reachable := fun g => by
        rw [Graph.listing, List.map_map]
        exact List.map_id _
      rw [← hfst g, heq, hfst]
    refine ⟨hreachable, fun q hq => ?_⟩
    rw [Graph.listing, Graph.listing, ← hreachable] at heq
    exact (Prod.mk.inj (List.map_inj_left.1 heq q hq)).2
  · rintro ⟨hreachable, hstates⟩
    rw [Graph.listing, Graph.listing, ← hreachable]
    exact List.map_congr_left fun q hq => by rw [hstates q hq]

/-! ## Labels of edges -/

namespace Dot

theorem quoted_inj (h : quoted v = quoted w) : v = w := by
  induction v generalizing w with
  | nil =>
    cases w with
    | nil => rfl
    | cons d w =>
      simp only [quoted, List.flatMap_nil, List.flatMap_cons] at h
      split at h <;> cases h
  | cons c v ih =>
    cases w with
    | nil =>
      simp only [quoted, List.flatMap_nil, List.flatMap_cons] at h
      split at h <;> cases h
    | cons d w =>
      simp only [quoted, List.flatMap_cons] at h
      split at h <;> split at h
      · next hc hd => rw [hc, hd, ih (List.append_cancel_left h)]
      · next hc hd => exact absurd (List.cons.inj h).1.symm hd
      · next hc hd => exact absurd (List.cons.inj h).1 hc
      · obtain ⟨rfl, hrest⟩ := List.cons.inj h
        rw [ih hrest]

theorem label_eq_iff : label t = label u ↔ t.lo = u.lo ∧ t.hi = u.hi := by
  rw [← Text.interval_eq_iff]
  exact ⟨quoted_inj, congrArg quoted⟩

/-- The quotes around a label are its ends. -/
theorem quote_notMem_label : '"' ∉ label t := by
  intro hmem
  obtain ⟨c, hc, hquote⟩ := List.mem_flatMap.1 hmem
  split at hquote
  · exact absurd hquote (by decide)
  · rw [← List.mem_singleton.1 hquote] at hc
    exact Text.notMem_interval (by decide) hc

end Dot

/-! ## Automata -/

namespace Automaton

theorem alike_singleton_iff : Alike (.singleton v) (.singleton w) ↔ v = w := by
  constructor
  · rintro ⟨⟩
    rfl
  · rintro rfl
    exact .word

theorem alike_graph_iff :
    Alike (.graph g) (.graph h) ↔ g.initial = h.initial ∧ g.listing = h.listing := by
  rw [Graph.listing_eq_iff]
  constructor
  · rintro ⟨⟩
    next hinitial hreachable haccept htransitions =>
      refine ⟨hinitial, hreachable, fun q hq => ?_⟩
      have := haccept q hq
      have := htransitions q hq
      cases hg : g.state q
      cases hh : h.state q
      simp_all
  · rintro ⟨hinitial, hreachable, hstates⟩
    exact .graph hinitial hreachable (fun q hq => by rw [hstates q hq])
      fun q hq => by rw [hstates q hq]

/-- The two forms of an automaton are told by the beginning of its text. -/
theorem line_singleton_ne : Text.line ("singleton: ".toList ++ v) ≠ Text.graph g := by
  intro heq
  exact absurd (List.cons.inj heq).1 (by decide)

/-- Automata that are written in the same way are alike. -/
theorem written_eq_iff : a.written = b.written ↔ a.Alike b := by
  cases a with
  | singleton v =>
    cases b with
    | singleton w =>
      rw [alike_singleton_iff]
      constructor
      · intro heq
        exact Text.letters_inj (List.append_cancel_left (List.append_cancel_right heq))
      · intro heq
        rw [heq]
    | graph h => exact ⟨fun heq => absurd heq line_singleton_ne, nofun⟩
  | graph g =>
    cases b with
    | singleton w => exact ⟨fun heq => absurd heq.symm line_singleton_ne, nofun⟩
    | graph h =>
      rw [alike_graph_iff]
      exact Text.graph_eq_iff

theorem text_eq_ok_iff : a.text = .ok w ↔ a.ensureIntact = .ok () ∧ a.written = w := by
  have htext : a.text = a.ensureIntact.map fun _ => a.written := by cases a <;> rfl
  rw [htext, map_eq_ok]
  constructor
  · rintro ⟨⟨⟩, hok, hw⟩
    exact ⟨hok, hw⟩
  · rintro ⟨hok, hw⟩
    exact ⟨(), hok, hw⟩

/-- Two automata have a text in common if and only if their reachable states are in the arena and
they are alike: the same word, or graphs with the same initial state and the same reachable states.
Two edges of a drawing have the same label if and only if they have the same bounds; no label has a
quote in it, at which it would seem to end. -/
theorem text_spec (a b : Automaton) (t u : Transition) :
    ((∃ w, a.text = .ok w ∧ b.text = .ok w) ↔
      a.ensureIntact = .ok () ∧ b.ensureIntact = .ok () ∧ a.Alike b) ∧
    (Dot.label t = Dot.label u ↔ t.lo = u.lo ∧ t.hi = u.hi) ∧ '"' ∉ Dot.label t := by
  refine ⟨?_, Dot.label_eq_iff, Dot.quote_notMem_label⟩
  simp only [text_eq_ok_iff, ← written_eq_iff]
  constructor
  · rintro ⟨w, ⟨ha, rfl⟩, hb, heq⟩
    exact ⟨ha, hb, heq.symm⟩
  · rintro ⟨ha, hb, heq⟩
    exact ⟨a.written, ⟨ha, rfl⟩, hb, heq.symm⟩

end Automaton

end RegLang
