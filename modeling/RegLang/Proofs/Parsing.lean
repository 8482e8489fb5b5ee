import RegLang.Proofs.Readers
/-!
# Parsing follows the grammar

The reader of a level calls the reader of the level below on the same word, and itself on a shorter
one; so by induction on the length each of them reads what the grammar derives.  Conversely what
the grammar derives is read, by induction on the derivation.

* `reads_iff_derives`: the reader of a level and the rule of that level.
* `Expr.parse_eq_ok_iff`: which patterns are read as which expressions.
-/

namespace RegLang.Parser

open Grammar

variable {s r : Word} {e : Expr} {f : Features}

/-! ## Levels -/

/-- The reader of a level. -/
def read (f : Features) : Rule → (s : Word) → Except Failure (Reading s Expr)
  | .union => union f
  | .inter => inter f
  | .concat => concat f
  | .repeats => repeats f
  | .negated => negated f
  | .simple => simple f
  | .group => group f

/-- What the reader of a level reads at the front of `s`, the grammar derives. -/
def Follows (f : Features) (rule : Rule) (s : Word) : Prop :=
  ∀ e r, Reads (read f rule s) e r → Derives f rule s e r

theorem follows_simple (ih : ∀ t, t.length < s.length → Follows f .group t) :
    Follows f .simple s := by
  intro e r h
  rw [read] at h
  unfold simple at h
  split at h
  · obtain ⟨⟨a, t, ht⟩, ha, h⟩ := reads_bind.1 h
    obtain ⟨rfl, rfl⟩ := reads_ok.1 h
    exact .atom (.classed (reads_classBody.1 ⟨ht, ha⟩))
  · obtain ⟨rfl, rfl⟩ := reads_ok.1 h
    exact .atom .anyLetter
  · obtain ⟨⟨w, t, ht⟩, hw, h⟩ := reads_bind.1 h
    obtain ⟨rfl, rfl⟩ := reads_ok.1 h
    obtain ⟨hmem, rfl⟩ := reads_upTo.1 ⟨ht, hw⟩
    exact .atom (.quoted hmem)
  · obtain ⟨⟨_, t, ht⟩, hflags, h⟩ := reads_bind.1 h
    obtain ⟨⟨a, u, hu⟩, ha, h⟩ := reads_bind.1 h
    obtain ⟨rfl, rfl⟩ := reads_ok.1 h
    obtain ⟨flags, hall, rfl⟩ := reads_groupFlags.1 ⟨ht, hflags⟩
    refine .flags hall (ih _ ?_ _ _ ⟨hu, ha⟩)
    simp only [List.length_cons, List.length_append]
    omega
  · next hfirst =>
    obtain ⟨⟨a, t, ht⟩, ha, h⟩ := reads_bind.1 h
    obtain ⟨rfl, rfl⟩ := reads_ok.1 h
    exact .group (avoids_iff.2 hfirst) (ih _ (Nat.lt_succ_self _) _ _ ⟨ht, ha⟩)
  · obtain ⟨rfl, rfl⟩ := reads_ok.1 h
    exact .atom .hashSign
  · obtain ⟨rfl, rfl⟩ := reads_ok.1 h
    exact .atom .atSign
  · split at h
    · next enabled =>
      obtain ⟨⟨a, t, ht⟩, ha, h⟩ := reads_bind.1 h
      obtain ⟨rfl, rfl⟩ := reads_ok.1 h
      obtain ⟨body, hmem, rfl, hok⟩ := reads_angle.1 ⟨ht, ha⟩
      exact .atom (.angle enabled hmem hok)
    · next disabled =>
      obtain ⟨rfl, rfl⟩ := reads_ok.1 h
      exact .atom (.lessSign (by simpa using disabled))
  · next h1 h2 h3 _ h4 h5 h6 h7 =>
    obtain ⟨⟨c, t, ht⟩, hc, h⟩ := reads_bind.1 h
    obtain ⟨rfl, rfl⟩ := reads_ok.1 h
    refine .atom (.letter (avoids_iff_forall.2 ?_) (reads_letter.1 ⟨ht, hc⟩))
    simpa [openingSigns] using ⟨h1, h2, h3, h4, h5, h6, h7⟩

theorem follows_negated (ih : ∀ t, t.length < s.length → Follows f .negated t)
    (hsimple : Follows f .simple s) : Follows f .negated s := by
  intro e r h
  rcases eq_cons_or_avoids '~' s with ⟨s, rfl⟩ | hfirst
  · rw [read, negated] at h
    split at h
    · next enabled =>
      obtain ⟨⟨a, t, ht⟩, ha, h⟩ := reads_bind.1 h
      obtain ⟨rfl, rfl⟩ := reads_ok.1 h
      exact .compl enabled (ih s (Nat.lt_succ_self _) _ _ ⟨ht, ha⟩)
    · next disabled => exact .simple (fun enabled => (disabled enabled).elim) (hsimple e r h)
  · rw [read, negated] at h
    · exact .simple (fun _ => hfirst) (hsimple e r h)
    · exact avoids_iff.1 hfirst

theorem follows_repeats (hnegated : Follows f .negated s) : Follows f .repeats s := by
  intro e r h
  rw [read, repeats] at h
  obtain ⟨⟨a, t, ht⟩, ha, h⟩ := reads_bind.1 h
  obtain ⟨⟨b, u, hu⟩, hb, h⟩ := reads_bind.1 h
  obtain ⟨rfl, rfl⟩ := reads_ok.1 h
  exact .repeats (hnegated _ _ ⟨ht, ha⟩) (skips_repetitions.1 ⟨hu, hb⟩)

theorem follows_concat (ih : ∀ t, t.length < s.length → Follows f .concat t)
    (hrepeats : Follows f .repeats s) : Follows f .concat s := by
  intro e r h
  rw [read, concat] at h
  obtain ⟨⟨a, t, ht⟩, ha, h⟩ := reads_bind.1 h
  replace ha := hrepeats _ _ ⟨ht, ha⟩
  dsimp only at h
  split at h
  · next last =>
    obtain ⟨rfl, rfl⟩ := reads_ok.1 h
    exact .repeatsAlone ha last
  · next more =>
    obtain ⟨⟨b, u, hu⟩, hb, h⟩ := reads_bind.1 h
    obtain ⟨rfl, rfl⟩ := reads_ok.1 h
    exact .concat ha (by simpa using more) (ih t ht _ _ ⟨hu, hb⟩)

theorem follows_inter (ih : ∀ t, t.length < s.length → Follows f .inter t)
    (hconcat : Follows f .concat s) : Follows f .inter s := by
  intro e r h
  rw [read, inter] at h
  obtain ⟨⟨a, t, ht⟩, ha, h⟩ := reads_bind.1 h
  replace ha := hconcat _ _ ⟨ht, ha⟩
  by_cases enabled : f.includes .intersection = true
  · rcases eq_cons_or_avoids '&' t with ⟨t, rfl⟩ | hlast
    · simp only [enabled, if_true, skip?_cons] at h
      obtain ⟨⟨b, u, hu⟩, hb, h⟩ := reads_bind.1 h
      obtain ⟨rfl, rfl⟩ := reads_ok.1 h
      exact .inter enabled ha (ih t (Nat.lt_of_succ_lt ht) _ _ ⟨hu, hb⟩)
    · simp only [enabled, if_true, skip?_of_avoids hlast] at h
      obtain ⟨rfl, rfl⟩ := reads_ok.1 h
      exact .concatAlone ha fun _ => hlast
  · simp only [if_neg enabled] at h
    obtain ⟨rfl, rfl⟩ := reads_ok.1 h
    exact .concatAlone ha fun hon => (enabled hon).elim

theorem follows_union (ih : ∀ t, t.length < s.length → Follows f .union t)
    (hinter : Follows f .inter s) : Follows f .union s := by
  intro e r h
  rw [read, union] at h
  obtain ⟨⟨a, t, ht⟩, ha, h⟩ := reads_bind.1 h
  replace ha := hinter _ _ ⟨ht, ha⟩
  rcases eq_cons_or_avoids '|' t with ⟨t, rfl⟩ | hlast
  · simp only [skip?_cons] at h
    obtain ⟨⟨b, u, hu⟩, hb, h⟩ := reads_bind.1 h
    obtain ⟨rfl, rfl⟩ := reads_ok.1 h
    exact .union ha (ih t (Nat.lt_of_succ_lt ht) _ _ ⟨hu, hb⟩)
  · simp only [skip?_of_avoids hlast] at h
    obtain ⟨rfl, rfl⟩ := reads_ok.1 h
    exact .interAlone ha hlast

theorem follows_group (hunion : Follows f .union s) : Follows f .group s := by
  intro e r h
  rcases eq_cons_or_avoids ')' s with ⟨s, rfl⟩ | hfirst
  · rw [read, group] at h
    obtain ⟨rfl, rfl⟩ := reads_ok.1 h
    exact .nothing
  · rw [read, group] at h
    · obtain ⟨⟨a, t, ht⟩, ha, h⟩ := reads_bind.1 h
      obtain ⟨⟨_, u, hu⟩, hclose, h⟩ := reads_bind.1 h
      obtain ⟨rfl, rfl⟩ := reads_ok.1 h
      obtain rfl := reads_expect.1 ⟨hu, hclose⟩
      exact .something hfirst (hunion _ _ ⟨ht, ha⟩)
    · exact avoids_iff.1 hfirst

theorem follows (f : Features) (rule : Rule) (s : Word) : Follows f rule s := by
  -- a reader calls itself on a shorter word, and the reader of the level below on its own word
  induction hn : s.length using Nat.strongRecOn generalizing rule s with
  | _ n ih =>
    subst hn
    replace ih : ∀ rule t, t.length < s.length → Follows f rule t :=
      fun rule t ht => ih t.length ht rule t rfl
    have hsimple := follows_simple (ih .group)
    have hnegated := follows_negated (ih .negated) hsimple
    have hrepeats := follows_repeats hnegated
    have hconcat := follows_concat (ih .concat) hrepeats
    have hinter := follows_inter (ih .inter) hconcat
    have hunion := follows_union (ih .union) hinter
    cases rule with
    | union => exact hunion
    | inter => exact hinter
    | concat => exact hconcat
    | repeats => exact hrepeats
    | negated => exact hnegated
    | simple => exact hsimple
    | group => exact follows_group hunion

/-! ## The converse -/

/-- What is derived without a group is read. -/
theorem reads_of_atom (h : Atom f s e r) : Reads (simple f s) e r := by
  cases h with
  | letter first h =>
    obtain ⟨_, hc⟩ := reads_letter.2 h
    have first := avoids_iff_forall.1 first
    rw [simple]
    · exact reads_bind.2 ⟨_, hc, reads_ok.2 ⟨rfl, rfl⟩⟩
    · exact first _ (by decide)
    · exact first _ (by decide)
    · exact first _ (by decide)
    · exact fun r => first _ (by decide) ('?' :: r)
    · exact first _ (by decide)
    · exact first _ (by decide)
    · exact first _ (by decide)
    · exact first _ (by decide)
  | classed h =>
    obtain ⟨_, he⟩ := reads_classBody.2 h
    rw [simple]
    exact reads_bind.2 ⟨_, he, reads_ok.2 ⟨rfl, rfl⟩⟩
  | anyLetter =>
    rw [simple]
    exact reads_ok.2 ⟨rfl, rfl⟩
  | quoted h =>
    obtain ⟨_, hw⟩ := reads_upTo.2 ⟨h, rfl⟩
    rw [simple]
    exact reads_bind.2 ⟨_, hw, reads_ok.2 ⟨rfl, rfl⟩⟩
  | hashSign =>
    rw [simple]
    exact reads_ok.2 ⟨rfl, rfl⟩
  | atSign =>
    rw [simple]
    exact reads_ok.2 ⟨rfl, rfl⟩
  | angle enabled h h' =>
    obtain ⟨_, he⟩ := reads_angle.2 ⟨_, h, rfl, h'⟩
    rw [simple, if_pos enabled]
    exact reads_bind.2 ⟨_, he, reads_ok.2 ⟨rfl, rfl⟩⟩
  | lessSign disabled =>
    rw [simple, if_neg (by rw [disabled]; decide)]
    exact reads_ok.2 ⟨rfl, rfl⟩

/-- What is derived is read. -/
theorem reads_of_derives {rule : Rule} (h : Derives f rule s e r) : Reads (read f rule s) e r := by
  induction h with
  | union _ _ ih ih' =>
    obtain ⟨ht, ha⟩ := ih
    obtain ⟨_, hb⟩ := ih'
    simp only [read] at ha hb ⊢
    rw [union]
    refine reads_bind.2 ⟨_, ha, ?_⟩
    simp only [skip?_cons]
    exact reads_bind.2 ⟨_, hb, reads_ok.2 ⟨rfl, rfl⟩⟩
  | interAlone _ last ih =>
    obtain ⟨_, ha⟩ := ih
    simp only [read] at ha ⊢
    rw [union]
    refine reads_bind.2 ⟨_, ha, ?_⟩
    simp only [skip?_of_avoids last]
    exact reads_ok.2 ⟨rfl, rfl⟩
  | inter enabled _ _ ih ih' =>
    obtain ⟨_, ha⟩ := ih
    obtain ⟨_, hb⟩ := ih'
    simp only [read] at ha hb ⊢
    rw [inter]
    refine reads_bind.2 ⟨_, ha, ?_⟩
    simp only [enabled, if_true, skip?_cons]
    exact reads_bind.2 ⟨_, hb, reads_ok.2 ⟨rfl, rfl⟩⟩
  | concatAlone _ last ih =>
    obtain ⟨_, ha⟩ := ih
    simp only [read] at ha ⊢
    rw [inter]
    refine reads_bind.2 ⟨_, ha, ?_⟩
    by_cases enabled : f.includes .intersection = true
    · simp only [enabled, if_true, skip?_of_avoids (last enabled)]
      exact reads_ok.2 ⟨rfl, rfl⟩
    · simp only [if_neg enabled]
      exact reads_ok.2 ⟨rfl, rfl⟩
  | concat _ more _ ih ih' =>
    obtain ⟨_, ha⟩ := ih
    obtain ⟨_, hb⟩ := ih'
    simp only [read] at ha hb ⊢
    rw [concat]
    refine reads_bind.2 ⟨_, ha, ?_⟩
    simp only [more, Bool.false_eq_true, if_false]
    exact reads_bind.2 ⟨_, hb, reads_ok.2 ⟨rfl, rfl⟩⟩
  | repeatsAlone _ last ih =>
    obtain ⟨_, ha⟩ := ih
    simp only [read] at ha ⊢
    rw [concat]
    refine reads_bind.2 ⟨_, ha, ?_⟩
    simp only [last, if_true]
    exact reads_ok.2 ⟨rfl, rfl⟩
  | repeats _ h' ih =>
    obtain ⟨_, ha⟩ := ih
    obtain ⟨_, hb⟩ := skips_repetitions.2 h'
    simp only [read] at ha ⊢
    rw [repeats]
    exact reads_bind.2 ⟨_, ha, reads_bind.2 ⟨_, hb, reads_ok.2 ⟨rfl, rfl⟩⟩⟩
  | compl enabled _ ih =>
    obtain ⟨_, ha⟩ := ih
    simp only [read] at ha ⊢
    rw [negated, if_pos enabled]
    exact reads_bind.2 ⟨_, ha, reads_ok.2 ⟨rfl, rfl⟩⟩
  | @simple s _ _ first _ ih =>
    rw [read] at ih
    rcases eq_cons_or_avoids '~' s with ⟨s, rfl⟩ | hfirst
    · have disabled : ¬ f.includes .complement = true := fun on => by simpa using first on
      rw [read, negated, if_neg disabled]
      exact ih
    · rw [read, negated]
      · exact ih
      · exact avoids_iff.1 hfirst
  | atom h => exact reads_of_atom h
  | group first _ ih =>
    obtain ⟨_, ha⟩ := ih
    simp only [read] at ha ⊢
    rw [simple]
    · exact reads_bind.2 ⟨_, ha, reads_ok.2 ⟨rfl, rfl⟩⟩
    · exact avoids_iff.1 first
  | flags h _ ih =>
    obtain ⟨_, ha⟩ := ih
    obtain ⟨_, hflags⟩ := (reads_groupFlags (x := ())).2 ⟨_, h, rfl⟩
    simp only [read] at ha ⊢
    rw [simple]
    exact reads_bind.2 ⟨_, hflags, reads_bind.2 ⟨_, ha, reads_ok.2 ⟨rfl, rfl⟩⟩⟩
  | nothing =>
    rw [read, group]
    exact reads_ok.2 ⟨rfl, rfl⟩
  | something first _ ih =>
    obtain ⟨_, ha⟩ := ih
    obtain ⟨_, hclose⟩ := (reads_expect (c := ')') (x := ())).2 rfl
    simp only [read] at ha ⊢
    rw [group]
    · exact reads_bind.2 ⟨_, ha, reads_bind.2 ⟨_, hclose, reads_ok.2 ⟨rfl, rfl⟩⟩⟩
    · exact avoids_iff.1 first

theorem reads_iff_derives {rule : Rule} : Reads (read f rule s) e r ↔ Derives f rule s e r :=
  ⟨follows f rule s e r, reads_of_derives⟩

end RegLang.Parser

namespace RegLang

open RegLang.Parser RegLang.Grammar

variable {f : Features} {pattern : Word} {e : Expr}

/-- A pattern is read as an expression if the grammar derives it from all letters; no letters are
the empty word. -/
theorem Expr.parse_eq_ok_iff :
    Expr.parse pattern f = .ok e ↔
      expandDigits pattern = [] ∧ e = .literal [] ∨
      Derives f .union (expandDigits pattern) e [] := by
  unfold Expr.parse
  rw [mapError_eq_ok]
  generalize expandDigits pattern = s
  unfold whole
  cases s with
  | nil =>
    have hnot : ¬ Derives f .union [] e [] := fun h =>
      absurd (reads_of_derives h).shorter (Nat.lt_irrefl _)
    simp [hnot, eq_comm]
  | cons c s =>
    simp only [List.isEmpty_cons, Bool.false_eq_true, if_false, reduceCtorEq, false_and, false_or]
    rw [bind_eq_ok, ← reads_iff_derives]
    constructor
    · rintro ⟨⟨a, r, hr⟩, ha, h⟩
      dsimp only at h
      split at h
      · next hempty =>
        cases h
        obtain rfl := List.isEmpty_iff.1 hempty
        exact ⟨hr, ha⟩
      · cases h
    · rintro ⟨hr, he⟩
      exact ⟨_, he, rfl⟩

end RegLang
