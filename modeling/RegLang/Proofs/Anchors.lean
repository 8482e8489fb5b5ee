import RegLang.Proofs.Grouping
import RegLang.Proofs.Idempotence
import RegLang.Proofs.Totality
import RegLang.Sampler
/-!
# Anchors

Anchors are taken off before a pattern is read, by a look at its last letters alone: a dollar sign
is an anchor if an even number of backslashes stands before it.  The reader looks at backslashes
from the front, and what a backslash is paired with may stand in quotes, in a name or in the
shorthand for digits.  But a pattern that can be read ends between two pairs, so both agree on the
dollar sign behind it.

    trailingBackslashes q % 2 = 0             if `q` can be read      (even_trailingBackslashes)

* `stripAnchors_anchored`, `stripAnchors_escaped`: what is left of a pattern with a dollar sign.
* `Derives.escaped`: a letter behind a backslash goes on with every pattern.
* `Holds`, `MadeOf.of_strip`: what a sampler makes of what is left.
-/

namespace RegLang

open RegLang.Parser RegLang.Grammar

variable {p q r s u w pattern : Word} {c : Char} {e : Expr} {f : Features} {options : Options}
  {rule : Rule}

/-! ## Backslashes at the end -/

namespace Sampler

/-- Backslashes are counted into the front part if there is nothing else in the back part. -/
theorem trailingBackslashes_append (u w : Word) : trailingBackslashes (u ++ w) =
    if trailingBackslashes w = w.length then w.length + trailingBackslashes u
    else trailingBackslashes w := by
  unfold trailingBackslashes
  rw [List.reverse_append, List.takeWhile_append, List.length_reverse]
  split
  · rw [List.length_append, List.length_reverse]
  · rfl

theorem trailingBackslashes_single (hc : c ≠ '\\') : trailingBackslashes [c] = 0 := by
  simp [trailingBackslashes, hc]

theorem even_trailingBackslashes_pair (c : Char) : trailingBackslashes ['\\', c] % 2 = 0 := by
  by_cases hc : c = '\\'
  · subst hc
    rfl
  · simp [trailingBackslashes, hc]

/-- A front part with an even number does not matter. -/
theorem trailingBackslashes_append_mod (hu : trailingBackslashes u % 2 = 0) (w : Word) :
    trailingBackslashes (u ++ w) % 2 = trailingBackslashes w % 2 := by
  rw [trailingBackslashes_append]
  split
  · omega
  · rfl

/-- Who pairs backslashes from the front and comes to an end between two pairs has met an even
number of backslashes at the end. -/
theorem even_of_transparent (h : Transparent (expandDigits q)) :
    trailingBackslashes q % 2 = 0 := by
  induction q using expandDigits.induct with
  | case1 q ih =>
    rw [expandDigits_shorthand] at h
    have hq := h.of_append (transparent_of_not_mem (by decide))
    have hcut := trailingBackslashes_append_mod (even_trailingBackslashes_pair 'd') q
    exact hcut.trans (ih hq)
  | case2 c q hc ih =>
    rw [expandDigits_pair hc] at h
    have hq := Transparent.of_append (x := ['\\', c]) h (transparent_pair hc)
    have hcut := trailingBackslashes_append_mod (even_trailingBackslashes_pair c) q
    exact hcut.trans (ih hq)
  | case3 c q _ hpair ih =>
    by_cases hc : c = '\\'
    · -- a single backslash at the end would make a pair with what follows
      cases q with
      | nil =>
        subst hc
        exact absurd (h ['d']) (by decide)
      | cons d q => exact (hpair d q hc rfl).elim
    · rw [expandDigits_cons hc] at h
      have hq := Transparent.of_append (x := [c]) h (transparent_single hc)
      have hnone : trailingBackslashes [c] % 2 = 0 := by rw [trailingBackslashes_single hc]
      exact (trailingBackslashes_append_mod hnone q).trans (ih hq)
  | case4 => rfl

theorem even_trailingBackslashes (h : Expr.parse q f = .ok e) :
    trailingBackslashes q % 2 = 0 := even_of_transparent (transparent_of_parse h)

/-! ## What is left of a pattern -/

theorem dropDollar_concat (w : Word) : dropDollar (w ++ ['$']) =
    if trailingBackslashes w % 2 = 0 then w else w ++ ['$'] := by
  unfold dropDollar
  simp

/-- Of a pattern between anchors, the pattern is left. -/
theorem stripAnchors_anchored (h : Expr.parse q f = .ok e) :
    stripAnchors ('^' :: (q ++ ['$'])) = q := by
  show dropDollar (q ++ ['$']) = q
  rw [dropDollar_concat, if_pos (even_trailingBackslashes h)]

theorem dropCaret_of_head? (h : w.head? ≠ some '^') : dropCaret w = w := by
  unfold dropCaret
  split
  · exact absurd rfl h
  · rfl

/-- A dollar sign behind a backslash that stands behind a pattern is no anchor. -/
theorem stripAnchors_escaped (h : Expr.parse q f = .ok e) (hfirst : q.head? ≠ some '^') :
    stripAnchors (q ++ ['\\', '$']) = q ++ ['\\', '$'] := by
  have hhead : (q ++ ['\\', '$']).head? ≠ some '^' := by
    cases q with
    | nil => decide
    | cons c q => exact hfirst
  have hodd : ¬ trailingBackslashes (q ++ ['\\']) % 2 = 0 := by
    have heven := even_trailingBackslashes h
    have hone : trailingBackslashes ['\\'] = ['\\'].length := rfl
    rw [trailingBackslashes_append, if_pos hone, List.length_singleton]
    omega
  have hsplit : q ++ ['\\', '$'] = (q ++ ['\\']) ++ ['$'] := by simp
  unfold stripAnchors
  rw [dropCaret_of_head? hhead, hsplit, dropDollar_concat, if_neg hodd]

end Sampler

/-! ## A letter behind a backslash -/

namespace Grammar

theorem derives_escaped (f : Features) (c : Char) :
    Derives f .repeats ['\\', c] (.letter c) [] :=
  .repeats (.simple (fun _ => avoids_cons.2 (by decide))
    (.atom (.letter (avoids_cons.2 (by decide)) .escaped))) (.done avoids_nil)

/-- A letter behind a backslash goes on with every pattern, and is no name. -/
theorem Derives.escaped (h : Derives f rule s e r) (hr : r = []) (hrule : rule.runsOn = true)
    (c : Char) : ∃ e', Derives f rule (s ++ ['\\', c]) e' [] ∧ e'.names = e.names := by
  have hlink : '\\' ∉ linkingSigns := by decide
  -- only the last operand goes on; the one before it does not stand at the end
  induction h with
  | union h _ _ ih =>
    obtain ⟨b', hb, hnames⟩ := ih hr rfl
    refine ⟨_, .union (h.before hlink [c] fun ht => (List.cons_ne_nil _ _ ht).elim) hb, ?_⟩
    exact congrArg (Expr.names _ ++ ·) hnames
  | interAlone _ _ ih =>
    obtain ⟨e', he, hnames⟩ := ih hr rfl
    exact ⟨e', .interAlone he avoids_nil, hnames⟩
  | inter enabled h _ _ ih =>
    obtain ⟨b', hb, hnames⟩ := ih hr rfl
    refine ⟨_, .inter enabled (h.before hlink [c] fun ht => (List.cons_ne_nil _ _ ht).elim) hb, ?_⟩
    exact congrArg (Expr.names _ ++ ·) hnames
  | concatAlone _ _ ih =>
    obtain ⟨e', he, hnames⟩ := ih hr rfl
    exact ⟨e', .concatAlone he fun _ => avoids_nil, hnames⟩
  | @concat _ _ _ _ _ h more h' _ ih =>
    obtain ⟨b', hb, hnames⟩ := ih hr rfl
    have hmore := (atEnd_append h'.ne_nil f ['\\', c]).trans more
    refine ⟨_, .concat (h.before hlink [c] fun ht => (h'.ne_nil ht).elim) hmore hb, ?_⟩
    rw [Expr.names_followedBy, Expr.names_followedBy, hnames]
  | repeatsAlone h _ =>
    subst hr
    have hmore : atEnd f ['\\', c] = false := by simp [atEnd]
    have hend := h.before hlink [c] fun _ hfalse => absurd hfalse (by decide)
    refine ⟨_, .concat hend hmore (.repeatsAlone (derives_escaped f c) rfl), ?_⟩
    rw [Expr.names_followedBy]
    exact List.append_nil _
  | repeats | compl | simple | atom | group | flags | nothing | something => cases hrule

end Grammar

/-- What is left of a pattern that can be read, with an escaped letter behind it, can be read. -/
theorem Expr.parse_escaped (h : Expr.parse q f = .ok e) (hc : c ≠ 'd') :
    ∃ e', Expr.parse (q ++ ['\\', c]) f = .ok e' ∧ e'.names = e.names := by
  have hexpand : expandDigits (q ++ ['\\', c]) = expandDigits q ++ ['\\', c] := by
    rw [expandDigits_append (transparent_of_parse h), expandDigits_pair hc]
    rfl
  rcases Expr.parse_eq_ok_iff.1 h with ⟨hnil, rfl⟩ | h
  · refine ⟨.letter c, parse_of_repeats ?_, rfl⟩
    rw [hexpand, hnil]
    exact derives_escaped f c
  · obtain ⟨e', h', hnames⟩ := h.escaped rfl rfl c
    refine ⟨e', Expr.parse_eq_ok_iff.2 (.inr ?_), hnames⟩
    rwa [hexpand]

/-! ## Samplers -/

namespace Sampler

/-- The sampler of the pattern holds this automaton, minimized; an error in its place is the
sampler's error. -/
def Holds (pattern : Word) (options : Options) : Except CompileError Automaton → Prop
  | .ok a => ∃ m, a.minimize options.minimization = .ok m ∧
      ofPattern pattern options = .ok ⟨pattern, m⟩
  | .error x => ofPattern pattern options = .error x

/-- The sampler of a pattern is made of `p`, which is read as this expression. -/
structure MadeOf (pattern p : Word) (options : Options) (e : Expr) : Prop where
  parse_eq : Expr.parse p options.features = .ok e
  holds : Holds pattern options (e.toAutomaton options []).1
  /-- Minimized once more, where compiling minimizes. -/
  holds_compile : Holds pattern options (compile p options)
  /-- Names are the only thing that can be missing. -/
  exists_iff : (∃ s, ofPattern pattern options = .ok s) ↔ e.names = []

theorem ofPattern_of_parse (h : Expr.parse (stripAnchors pattern) options.features = .ok e) :
    ofPattern pattern options = (e.toAutomaton options []).1.bind fun a =>
      ((a.minimize options.minimization).mapError .fault).map fun m => ⟨pattern, m⟩ := by
  unfold ofPattern
  rw [h]
  rfl

/-- Whether an automaton was minimized before it is minimized makes no difference. -/
theorem Holds.finished {r : Except CompileError Automaton} (h : Holds pattern options r)
    (hproper : ∀ a, r = .ok a → a.Proper) : Holds pattern options (r.bind fun a =>
      if options.minimize = true then (a.minimize options.minimization).mapError .fault
      else .ok a) := by
  cases r with
  | error x => exact h
  | ok a =>
    show Holds pattern options (if options.minimize = true then
      (a.minimize options.minimization).mapError .fault else .ok a)
    obtain ⟨m, hm, hsampler⟩ := h
    split
    · rw [hm]
      exact ⟨m, Automaton.minimize_eq_self (hproper a rfl) hm, hsampler⟩
    · exact ⟨m, hm, hsampler⟩

/-- What is left of the pattern is compiled and minimized. -/
theorem MadeOf.of_strip (hstrip : stripAnchors pattern = p)
    (h : Expr.parse p options.features = .ok e) : MadeOf pattern p options e := by
  have hsampler := ofPattern_of_parse (hstrip.symm ▸ h)
  have hcompile := Expr.compile_of_parse h
  rcases Checked.toAutomaton_cases options (Expr.spells_of_parse h).fits with
    ⟨hnames, a, ha, hproper⟩ | ⟨name, hname, hundefined⟩
  · obtain ⟨m, hm, -⟩ := Automaton.computes_minimize options.minimization hproper
    have hmade : ofPattern pattern options = .ok ⟨pattern, m⟩ := by
      rw [hsampler, ha]
      show ((a.minimize options.minimization).mapError CompileError.fault).map _ = _
      rw [hm]
      rfl
    have hholds : Holds pattern options (.ok a) := ⟨m, hm, hmade⟩
    rw [ha] at hcompile
    refine ⟨h, ha ▸ hholds, ?_, fun _ => hnames, fun _ => ⟨_, hmade⟩⟩
    rw [hcompile]
    refine hholds.finished fun b hb => ?_
    cases hb
    exact hproper
  · rw [hundefined] at hsampler hcompile
    have hholds : Holds pattern options (.error (.undefined name)) := hsampler
    refine ⟨h, hundefined ▸ hholds, hcompile ▸ hholds, ?_, fun hnames => ?_⟩
    · rintro ⟨s, hs⟩
      cases hsampler.symm.trans hs
    · rw [hnames] at hname
      cases hname

/-- A caret before a pattern that can be read and a dollar sign behind it are as good as not there:
the sampler holds the automaton of the pattern, minimized, or has the error of its compilation.  A
dollar sign behind a backslash belongs to the pattern, and if no caret is taken off the pattern's
front, the sampler is that of the pattern as it is given.  Nothing but an undefined name stands in
the way of a sampler. -/
theorem ofPattern_spec (h : Expr.parse q options.features = .ok e) :
    MadeOf ('^' :: (q ++ ['$'])) q options e ∧
      (q.head? ≠ some '^' → ∃ e', e'.names = e.names ∧
        MadeOf (q ++ ['\\', '$']) (q ++ ['\\', '$']) options e') := by
  refine ⟨.of_strip (stripAnchors_anchored h) h, fun hfirst => ?_⟩
  obtain ⟨e', h', hnames⟩ := Expr.parse_escaped h (c := '$') (by decide)
  exact ⟨e', hnames, .of_strip (stripAnchors_escaped h hfirst) h'⟩

/-- A backslash in quotes, the shorthand for digits, and a backslash behind a backslash. -/
def slashed : Word := ['"', '\\', '"', '\\', 'd', '\\', '\\']

theorem ofPattern_spec_slashed :
    ∃ e, Expr.parse slashed ({} : Options).features = .ok e ∧ slashed.head? ≠ some '^' ∧
      MadeOf ('^' :: (slashed ++ ['$'])) slashed {} e ∧
      ∃ e', e'.names = e.names ∧
        MadeOf (slashed ++ ['\\', '$']) (slashed ++ ['\\', '$']) {} e' := by
  have hparse : Expr.parse slashed ({} : Options).features =
      .ok (.concat (.literal ['\\']) (.concat (.range '0' '9') (.letter '\\'))) := by cbv
  have hfirst : slashed.head? ≠ some '^' := by decide
  obtain ⟨hanchored, hescaped⟩ := ofPattern_spec hparse
  exact ⟨_, hparse, hfirst, hanchored, hescaped hfirst⟩

end Sampler

end RegLang
