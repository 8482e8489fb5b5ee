import Mathlib.Data.List.TakeWhile
import RegLang.Proofs.Digits
import RegLang.Result
import RegLang.Semantics.Grammar
/-!
# Readers of parts

Every reader that does not come back to itself through a group succeeds exactly where its rule of
the grammar applies, with what the rule says.

* `reads_letter`, `reads_classBody`: letters and classes.
* `skips_number`, `reads_bounds`, `skips_repetitions`: numbers and signs of repetition.
* `reads_upTo`, `reads_angle`, `reads_groupFlags`: what stands up to a closing sign.
-/

namespace RegLang.Parser

open Grammar Numeral

variable {α β : Type} {s t r u w v ds : Word} {c d close : Char} {n : Nat} {e a b : Expr}
  {f : Features}

/-! ## Results of readers -/

/-- A reader succeeds with a value and what is left. -/
def Reads (x : Except Failure (Reading s α)) (a : α) (r : Word) : Prop := ∃ h, x = .ok ⟨a, r, h⟩

/-- The same for a reader that may read nothing. -/
def Skips (x : Except Failure (Skipping s α)) (a : α) (r : Word) : Prop := ∃ h, x = .ok ⟨a, r, h⟩

theorem Reads.shorter {x : Except Failure (Reading s α)} {a : α} (h : Reads x a r) :
    r.length < s.length := h.1

theorem reads_ok {a b : α} {h : r.length < s.length} :
    Reads (.ok ⟨a, r, h⟩ : Except Failure (Reading s α)) b u ↔ b = a ∧ u = r := by
  constructor
  · rintro ⟨_, h⟩
    cases h
    exact ⟨rfl, rfl⟩
  · rintro ⟨rfl, rfl⟩
    exact ⟨h, rfl⟩

theorem skips_ok {a b : α} {h : r.length ≤ s.length} :
    Skips (.ok ⟨a, r, h⟩ : Except Failure (Skipping s α)) b u ↔ b = a ∧ u = r := by
  constructor
  · rintro ⟨_, h⟩
    cases h
    exact ⟨rfl, rfl⟩
  · rintro ⟨rfl, rfl⟩
    exact ⟨h, rfl⟩

theorem not_reads_fail {a : α} {cause : SyntaxError.Cause} :
    ¬ Reads (fail t cause : Except Failure (Reading s α)) a r := nofun

/-- One step after another; the first may be any computation. -/
theorem reads_bind {x : Except Failure α} {g : α → Except Failure (Reading s β)} {b : β} :
    Reads (x >>= g) b r ↔ ∃ y, x = .ok y ∧ Reads (g y) b r := by
  simp only [Reads, bind_eq_ok]
  exact ⟨fun ⟨h, y, hy, hg⟩ => ⟨y, hy, h, hg⟩, fun ⟨y, hy, h, hg⟩ => ⟨h, y, hy, hg⟩⟩

theorem skips_bind {x : Except Failure α} {g : α → Except Failure (Skipping s β)} {b : β} :
    Skips (x >>= g) b r ↔ ∃ y, x = .ok y ∧ Skips (g y) b r := by
  simp only [Skips, bind_eq_ok]
  exact ⟨fun ⟨h, y, hy, hg⟩ => ⟨y, hy, h, hg⟩, fun ⟨y, hy, h, hg⟩ => ⟨h, y, hy, hg⟩⟩

/-! ## Single letters -/

theorem reads_expect {x : Unit} : Reads (expect c s) x r ↔ s = c :: r := by
  cases s with
  | nil => exact ⟨fun h => (not_reads_fail h).elim, nofun⟩
  | cons d t =>
    rw [expect]
    by_cases hd : d = c
    · rw [if_pos hd, reads_ok]
      simp [hd, eq_comm]
    · rw [if_neg hd]
      exact ⟨fun h => (not_reads_fail h).elim, fun h => (hd (List.cons.inj h).1).elim⟩

theorem skip?_of_avoids (h : Avoids [c] s) : skip? c s = none := by
  cases s with
  | nil => rfl
  | cons d r => exact if_neg (by simpa using h)

theorem skip?_cons : skip? c (c :: r) = some ⟨(), r, Nat.lt_succ_self _⟩ := if_pos rfl

theorem reads_letter : Reads (letter s) c r ↔ Letter s c r := by
  constructor
  · intro h
    unfold letter at h
    split at h
    · obtain ⟨rfl, rfl⟩ := reads_ok.1 h
      exact .escaped
    · exact (not_reads_fail h).elim
    · next hpair hlast =>
      obtain ⟨rfl, rfl⟩ := reads_ok.1 h
      refine .plain fun hc => ?_
      subst hc
      cases r with
      | nil => exact hlast rfl rfl
      | cons d t => exact hpair d t rfl rfl
    · exact (not_reads_fail h).elim
  · intro h
    cases h with
    | plain hc =>
      rw [letter, reads_ok]
      · exact ⟨rfl, rfl⟩
      · exact fun _ _ h => (hc h).elim
      · exact fun h => (hc h).elim
    | escaped => exact reads_ok.2 ⟨rfl, rfl⟩

/-! ## Classes -/

theorem reads_classItem : Reads (classItem s) e r ↔ Item s e r := by
  unfold classItem
  rw [reads_bind]
  constructor
  · rintro ⟨⟨c, t, ht⟩, hc, h⟩
    replace hc := reads_letter.1 ⟨ht, hc⟩
    dsimp only at h
    split at h
    · obtain ⟨rfl, rfl⟩ := reads_ok.1 h
      exact .dash hc
    · next hmore =>
      obtain ⟨⟨d, u, hu⟩, hd, h⟩ := reads_bind.1 h
      obtain ⟨rfl, rfl⟩ := reads_ok.1 h
      refine .range hc (avoids_iff.2 ?_) (reads_letter.1 ⟨hu, hd⟩)
      rintro v rfl
      exact hmore v _ HEq.rfl rfl
    · next hlast =>
      obtain ⟨rfl, rfl⟩ := reads_ok.1 h
      refine .single hc (avoids_iff.2 ?_)
      rintro v rfl
      exact hlast v _ rfl HEq.rfl
  · intro h
    cases h with
    | single h last =>
      obtain ⟨ht, hc⟩ := reads_letter.2 h
      refine ⟨_, hc, ?_⟩
      dsimp only
      split
      · exact (avoids_iff.1 last _ rfl).elim
      · exact (avoids_iff.1 last _ rfl).elim
      · exact reads_ok.2 ⟨rfl, rfl⟩
    | range h more h' =>
      obtain ⟨ht, hc⟩ := reads_letter.2 h
      obtain ⟨hu, hd⟩ := reads_letter.2 h'
      refine ⟨_, hc, ?_⟩
      dsimp only
      split
      · next heq _ => exact (avoids_iff.1 more _ (List.cons.inj heq).2).elim
      · next heq _ =>
        cases heq
        exact reads_bind.2 ⟨_, hd, reads_ok.2 ⟨rfl, rfl⟩⟩
      · next hdash => exact (hdash _ ‹_› rfl HEq.rfl).elim
    | dash h =>
      obtain ⟨ht, hc⟩ := reads_letter.2 h
      exact ⟨_, hc, reads_ok.2 ⟨rfl, rfl⟩⟩

theorem reads_classItems : Reads (classItems e s) a r ↔ Items e s a r := by
  constructor
  · intro h
    induction e, s using classItems.induct with
    | case1 e => 
      rw [classItems] at h
      exact (not_reads_fail h).elim
    | case2 e r =>
      rw [classItems] at h
      obtain ⟨rfl, rfl⟩ := reads_ok.1 h
      exact .close
    | case3 e c t hc ih =>
      rw [classItems.eq_3 _ _ _ hc] at h
      obtain ⟨⟨b, u, hu⟩, hb, h⟩ := reads_bind.1 h
      obtain ⟨⟨g, v, hv⟩, hg, h⟩ := reads_bind.1 h
      obtain ⟨rfl, rfl⟩ := reads_ok.1 h
      exact .more (by simpa using hc) (reads_classItem.1 ⟨hu, hb⟩) (ih _ _ hu ⟨hv, hg⟩)
  · intro h
    induction h with
    | close =>
      rw [classItems]
      exact reads_ok.2 ⟨rfl, rfl⟩
    | @more s _ _ _ _ _ more h h' ih =>
      obtain ⟨hu, hb⟩ := reads_classItem.2 h
      obtain ⟨hv, hg⟩ := ih
      cases s with
      | nil => exact absurd hu (Nat.not_lt_zero _)
      | cons c s =>
        rw [classItems]
        · exact reads_bind.2 ⟨_, hb, reads_bind.2 ⟨_, hg, reads_ok.2 ⟨rfl, rfl⟩⟩⟩
        · simpa using more

theorem reads_classList :
    Reads (classList s) e r ↔ ∃ a t, Item s a t ∧ Items a t e r := by
  unfold classList
  constructor
  · intro h
    obtain ⟨⟨a, t, ht⟩, ha, h⟩ := reads_bind.1 h
    obtain ⟨⟨b, u, hu⟩, hb, h⟩ := reads_bind.1 h
    obtain ⟨rfl, rfl⟩ := reads_ok.1 h
    exact ⟨a, t, reads_classItem.1 ⟨ht, ha⟩, reads_classItems.1 ⟨hu, hb⟩⟩
  · rintro ⟨a, t, ha, hb⟩
    obtain ⟨ht, ha⟩ := reads_classItem.2 ha
    obtain ⟨hu, hb⟩ := reads_classItems.2 hb
    exact reads_bind.2 ⟨_, ha, reads_bind.2 ⟨_, hb, reads_ok.2 ⟨rfl, rfl⟩⟩⟩

theorem reads_classBody : Reads (classBody s) e r ↔ Class s e r := by
  constructor
  · intro h
    unfold classBody at h
    split at h
    · obtain ⟨⟨a, t, ht⟩, ha, h⟩ := reads_bind.1 h
      obtain ⟨rfl, rfl⟩ := reads_ok.1 h
      obtain ⟨_, _, hi, his⟩ := reads_classList.1 ⟨ht, ha⟩
      exact .others hi his
    · next hfirst =>
      obtain ⟨_, _, hi, his⟩ := reads_classList.1 h
      exact .listed (avoids_iff.2 hfirst) hi his
  · intro h
    cases h with
    | listed first h h' =>
      rw [classBody]
      · exact reads_classList.2 ⟨_, _, h, h'⟩
      · exact avoids_iff.1 first
    | others h h' =>
      obtain ⟨ht, ha⟩ := reads_classList.2 ⟨_, _, h, h'⟩
      exact reads_bind.2 ⟨_, ha, reads_ok.2 ⟨rfl, rfl⟩⟩

/-! ## Numbers and repetition -/

theorem decimal?_eq_some :
    decimal? ds = some n ↔ ds ≠ [] ∧ AllDigits ds ∧ value ds = n ∧ n < wordLimit := by
  unfold decimal? AllDigits
  cases ds with
  | nil => simp
  | cons c w =>
    by_cases hd : (c :: w).all Char.isDigit = true
    · simp only [List.isEmpty_cons, hd, Bool.not_true, Bool.or_self, Bool.false_eq_true, if_false,
        ne_eq, reduceCtorEq, not_false_eq_true, true_and]
      split
      · next h => simpa using fun hn => hn ▸ h
      · next h => simpa using fun hn => hn ▸ Nat.le_of_not_lt h
    · simp [hd]

/-- No digit stands at the front. -/
def DigitsEnd (s : Word) : Prop := ∀ c ∈ s.head?, c.isDigit = false

theorem span_digits (ds : Word) (hds : AllDigits ds) (hr : DigitsEnd r) :
    (ds ++ r).takeWhile Char.isDigit = ds ∧ (ds ++ r).dropWhile Char.isDigit = r := by
  have hall : ∀ c ∈ ds, c.isDigit = true := List.all_eq_true.1 hds
  have hrest : r.takeWhile Char.isDigit = [] ∧ r.dropWhile Char.isDigit = r := by
    cases r with
    | nil => exact ⟨rfl, rfl⟩
    | cons c t =>
      have hc : ¬ c.isDigit = true := by simpa [DigitsEnd] using hr
      exact ⟨List.takeWhile_cons_of_neg hc, List.dropWhile_cons_of_neg hc⟩
  rw [List.takeWhile_append_of_pos hall, List.dropWhile_append_of_pos hall, hrest.1, hrest.2,
    List.append_nil]
  exact ⟨rfl, rfl⟩

theorem digitsEnd_dropWhile (s : Word) : DigitsEnd (s.dropWhile Char.isDigit) := by
  intro c hc
  have := List.head?_dropWhile_not Char.isDigit s
  rw [Option.mem_def] at hc
  rw [hc] at this
  simpa using this

theorem skips_number {n? : Option Nat} :
    Skips (number s) n? r ↔
      ∃ ds, s = ds ++ r ∧ DigitsEnd r ∧
        (n? = none ∧ ds = [] ∨ ∃ n, n? = some n ∧ decimal? ds = some n) := by
  unfold number
  constructor
  · intro h
    refine ⟨s.takeWhile Char.isDigit, ?_⟩
    dsimp only at h
    split at h
    · next hempty =>
      obtain ⟨rfl, rfl⟩ := skips_ok.1 h
      exact ⟨List.takeWhile_append_dropWhile.symm, digitsEnd_dropWhile s,
        .inl ⟨rfl, List.isEmpty_iff.1 hempty⟩⟩
    · split at h
      · next hn =>
        obtain ⟨rfl, rfl⟩ := skips_ok.1 h
        exact ⟨List.takeWhile_append_dropWhile.symm, digitsEnd_dropWhile s, .inr ⟨_, rfl, hn⟩⟩
      · obtain ⟨_, h⟩ := h
        cases h
  · rintro ⟨ds, rfl, hr, ⟨rfl, rfl⟩ | ⟨n, rfl, hn⟩⟩
    · obtain ⟨htake, hdrop⟩ := span_digits [] rfl hr
      rw [List.nil_append] at htake hdrop
      simp only [List.nil_append, htake, hdrop, List.isEmpty_nil, if_true]
      exact skips_ok.2 ⟨rfl, rfl⟩
    · obtain ⟨hne, hds, -⟩ := decimal?_eq_some.1 hn
      obtain ⟨htake, hdrop⟩ := span_digits ds hds hr
      simp only [htake, hdrop, List.isEmpty_iff, hne, if_false, hn]
      exact skips_ok.2 ⟨rfl, rfl⟩

theorem reads_bounds : Reads (bounds e s) a r ↔ Bounds e s a r := by
  unfold bounds
  rw [reads_bind]
  constructor
  · rintro ⟨⟨n?, t, ht⟩, hnumber, h⟩
    obtain ⟨ds, rfl, -, ⟨rfl, rfl⟩ | ⟨n, rfl, hn⟩⟩ := skips_number.1 ⟨ht, hnumber⟩
    · exact (not_reads_fail h).elim
    dsimp only at h
    split at h
    · obtain ⟨⟨m?, u, hu⟩, hnumber', h⟩ := reads_bind.1 h
      obtain ⟨⟨_, v, hv⟩, hbrace, h⟩ := reads_bind.1 h
      obtain rfl := reads_expect.1 ⟨hv, hbrace⟩
      obtain ⟨ds', rfl, -, ⟨rfl, rfl⟩ | ⟨m, rfl, hm⟩⟩ := skips_number.1 ⟨hu, hnumber'⟩
      · obtain ⟨rfl, rfl⟩ := reads_ok.1 h
        exact .atLeast hn
      · obtain ⟨rfl, rfl⟩ := reads_ok.1 h
        exact .between hn hm
    · obtain ⟨⟨_, v, hv⟩, hbrace, h⟩ := reads_bind.1 h
      obtain rfl := reads_expect.1 ⟨hv, hbrace⟩
      obtain ⟨rfl, rfl⟩ := reads_ok.1 h
      exact .exactly hn
  · have brace : ∀ r, DigitsEnd ('}' :: r) := by simp [DigitsEnd]
    have comma : ∀ r, DigitsEnd (',' :: r) := by simp [DigitsEnd]
    intro h
    cases h with
    | exactly hn =>
      obtain ⟨_, hn⟩ := skips_number.2 ⟨_, rfl, brace _, .inr ⟨_, rfl, hn⟩⟩
      exact ⟨_, hn, reads_ok.2 ⟨rfl, rfl⟩⟩
    | atLeast hn =>
      obtain ⟨_, hn⟩ := skips_number.2 ⟨_, rfl, comma _, .inr ⟨_, rfl, hn⟩⟩
      obtain ⟨_, hm⟩ := skips_number.2 ⟨[], rfl, brace r, .inl ⟨rfl, rfl⟩⟩
      exact ⟨_, hn, reads_bind.2 ⟨_, hm, reads_ok.2 ⟨rfl, rfl⟩⟩⟩
    | between hn hm =>
      obtain ⟨_, hn⟩ := skips_number.2 ⟨_, rfl, comma _, .inr ⟨_, rfl, hn⟩⟩
      obtain ⟨_, hm⟩ := skips_number.2 ⟨_, rfl, brace _, .inr ⟨_, rfl, hm⟩⟩
      exact ⟨_, hn, reads_bind.2 ⟨_, hm, reads_ok.2 ⟨rfl, rfl⟩⟩⟩

theorem skips_repetitions : Skips (repetitions e s) a r ↔ Signs e s a r := by
  constructor
  · intro h
    induction e, s using repetitions.induct with
    | case1 e t ih =>
      rw [repetitions] at h
      obtain ⟨⟨b, u, hu⟩, hb, h⟩ := skips_bind.1 h
      obtain ⟨rfl, rfl⟩ := skips_ok.1 h
      exact .optional (ih ⟨hu, hb⟩)
    | case2 e t ih =>
      rw [repetitions] at h
      obtain ⟨⟨b, u, hu⟩, hb, h⟩ := skips_bind.1 h
      obtain ⟨rfl, rfl⟩ := skips_ok.1 h
      exact .star (ih ⟨hu, hb⟩)
    | case3 e t ih =>
      rw [repetitions] at h
      obtain ⟨⟨b, u, hu⟩, hb, h⟩ := skips_bind.1 h
      obtain ⟨rfl, rfl⟩ := skips_ok.1 h
      exact .plus (ih ⟨hu, hb⟩)
    | case4 e t ih =>
      rw [repetitions] at h
      obtain ⟨⟨b, u, hu⟩, hb, h⟩ := skips_bind.1 h
      obtain ⟨⟨g, v, hv⟩, hg, h⟩ := skips_bind.1 h
      obtain ⟨rfl, rfl⟩ := skips_ok.1 h
      exact .bounds (reads_bounds.1 ⟨hu, hb⟩) (ih _ _ hu ⟨hv, hg⟩)
    | case5 e s h1 h2 h3 h4 =>
      rw [repetitions.eq_5 e s h1 h2 h3 h4] at h
      obtain ⟨rfl, rfl⟩ := skips_ok.1 h
      exact .done (avoids_iff_forall.2 (by simpa [repetitionSigns] using ⟨h1, h2, h3, h4⟩))
  · intro h
    induction h with
    | done last =>
      have last := avoids_iff_forall.1 last
      rw [repetitions]
      · exact skips_ok.2 ⟨rfl, rfl⟩
      all_goals exact last _ (by decide)
    | optional _ ih | star _ ih | plus _ ih =>
      obtain ⟨_, h⟩ := ih
      rw [repetitions]
      exact skips_bind.2 ⟨_, h, skips_ok.2 ⟨rfl, rfl⟩⟩
    | bounds h _ ih =>
      obtain ⟨_, hb⟩ := reads_bounds.2 h
      obtain ⟨_, h⟩ := ih
      rw [repetitions]
      exact skips_bind.2 ⟨_, hb, skips_bind.2 ⟨_, h, skips_ok.2 ⟨rfl, rfl⟩⟩⟩

/-! ## Quotes, angle brackets and groups -/

theorem reads_upTo : Reads (upTo close s) w r ↔ close ∉ w ∧ s = w ++ close :: r := by
  induction s generalizing w with
  | nil =>
    rw [upTo]
    exact ⟨fun h => (not_reads_fail h).elim, fun ⟨_, h⟩ => by simp at h⟩
  | cons c t ih =>
    rw [upTo]
    by_cases hc : c = close
    · rw [if_pos hc, reads_ok]
      subst hc
      constructor
      · rintro ⟨rfl, rfl⟩
        exact ⟨List.not_mem_nil, rfl⟩
      · rintro ⟨hw, h⟩
        cases w with
        | nil => exact ⟨rfl, (List.cons.inj h).2.symm⟩
        | cons d w => exact (hw (List.mem_cons.2 (.inl (List.cons.inj h).1))).elim
    · rw [if_neg hc]
      constructor
      · intro h
        obtain ⟨⟨v, u, hu⟩, hv, h⟩ := reads_bind.1 h
        obtain ⟨rfl, rfl⟩ := reads_ok.1 h
        obtain ⟨hmem, rfl⟩ := ih.1 ⟨hu, hv⟩
        exact ⟨List.not_mem_cons_of_ne_of_not_mem (Ne.symm hc) hmem, rfl⟩
      · rintro ⟨hw, h⟩
        cases w with
        | nil => exact (hc (List.cons.inj h).1).elim
        | cons d w =>
          obtain ⟨rfl, rfl⟩ := List.cons.inj h
          obtain ⟨_, hv⟩ := ih.2 ⟨fun h => hw (List.mem_cons_of_mem _ h), rfl⟩
          exact reads_bind.2 ⟨_, hv, reads_ok.2 ⟨rfl, rfl⟩⟩

theorem reads_angle :
    Reads (angle f s) e r ↔
      ∃ body, '>' ∉ body ∧ s = body ++ '>' :: r ∧ angleBody f body = .ok e := by
  unfold angle
  rw [reads_bind]
  constructor
  · rintro ⟨⟨body, t, ht⟩, hbody, h⟩
    obtain ⟨hmem, rfl⟩ := reads_upTo.1 ⟨ht, hbody⟩
    dsimp only at h
    split at h
    · next hok =>
      obtain ⟨rfl, rfl⟩ := reads_ok.1 h
      exact ⟨body, hmem, rfl, hok⟩
    · obtain ⟨_, h⟩ := h
      cases h
  · rintro ⟨body, hmem, rfl, hok⟩
    obtain ⟨_, hbody⟩ := reads_upTo.2 ⟨hmem, rfl⟩
    refine ⟨_, hbody, ?_⟩
    simp only [hok]
    exact reads_ok.2 ⟨rfl, rfl⟩

theorem reads_groupFlags {x : Unit} :
    Reads (groupFlags s) x r ↔
      ∃ flags, (∀ c ∈ flags, c ∈ "imnsx".toList) ∧ s = flags ++ ':' :: r := by
  unfold groupFlags
  rw [reads_bind]
  constructor
  · rintro ⟨⟨_, t, ht⟩, hcolon, h⟩
    obtain ⟨-, rfl⟩ := reads_ok.1 h
    have hrest := reads_expect.1 ⟨ht, hcolon⟩
    refine ⟨s.takeWhile fun c => "imnsx".toList.contains c, fun c hc => ?_, ?_⟩
    · simpa using List.mem_takeWhile_imp hc
    · rw [← hrest, List.takeWhile_append_dropWhile]
  · rintro ⟨flags, hflags, rfl⟩
    have hall : ∀ c ∈ flags, "imnsx".toList.contains c = true := by simpa using hflags
    have hdrop : (flags ++ ':' :: r).dropWhile (fun c => "imnsx".toList.contains c) = ':' :: r := by
      rw [List.dropWhile_append_of_pos hall]
      exact List.dropWhile_cons_of_neg (by decide)
    obtain ⟨_, hcolon⟩ := (reads_expect (x := ())).2 hdrop
    exact ⟨_, hcolon, reads_ok.2 ⟨rfl, rfl⟩⟩

end RegLang.Parser
