import RegLang.Alphabet
/-!
# The order of words

Words are ordered by length and, at the same length, letter by letter.

* `Word.AtMost.concat`: the order is kept when a letter follows each word.
* `Least`: the least word with a property, or none if no word has it.
-/

namespace RegLang

/-! ## Two words -/

namespace Word

/-- The word is shorter, or as long and not greater letter by letter. -/
def AtMost (v w : Word) : Prop := v.length < w.length ∨ v.length = w.length ∧ (v = w ∨ v < w)

variable {u v w : Word} {c d : Char}

theorem AtMost.refl (w : Word) : AtMost w w := .inr ⟨rfl, .inl rfl⟩

theorem AtMost.length_le (h : AtMost v w) : v.length ≤ w.length :=
  h.elim Nat.le_of_lt fun h => Nat.le_of_eq h.1

theorem AtMost.trans (h : AtMost u v) (h' : AtMost v w) : AtMost u w := by
  rcases h with h | ⟨hlen, h⟩
  · exact .inl (Nat.lt_of_lt_of_le h h'.length_le)
  · rcases h' with h' | ⟨hlen', h'⟩
    · exact .inl (hlen ▸ h')
    · refine .inr ⟨hlen.trans hlen', ?_⟩
      rcases h with rfl | h
      · exact h'
      · rcases h' with rfl | h'
        · exact .inr h
        · exact .inr (List.lt_trans h h')

/-- Of words of one length, the smaller one stays smaller whatever follows. -/
theorem append_lt_append (hlen : v.length = w.length) (h : v < w) (x y : Word) :
    v ++ x < w ++ y := by
  induction v generalizing w with
  | nil =>
    obtain rfl := List.length_eq_zero_iff.1 hlen.symm
    exact absurd h (List.lt_irrefl _)
  | cons c v ih =>
    cases w with
    | nil => cases hlen
    | cons d w =>
      rw [List.cons_append, List.cons_append, List.cons_lt_cons_iff]
      rcases List.cons_lt_cons_iff.1 h with hcd | ⟨rfl, hvw⟩
      · exact .inl hcd
      · exact .inr ⟨rfl, ih (Nat.succ.inj hlen) hvw⟩

theorem AtMost.concat (h : AtMost v w) (hc : c ≤ d) : AtMost (v ++ [c]) (w ++ [d]) := by
  have hlen : ∀ (x : Word) (e : Char), (x ++ [e]).length = x.length + 1 := by simp
  rcases h with h | ⟨heq, h⟩
  · left
    rw [hlen, hlen]
    exact Nat.succ_lt_succ h
  · refine .inr ⟨by rw [hlen, hlen, heq], ?_⟩
    rcases h with rfl | h
    · rcases Std.lt_trichotomy c d with hlt | rfl | hlt
      · exact .inr (List.append_left_lt (List.cons_lt_cons_iff.2 (.inl hlt)))
      · exact .inl rfl
      · exact absurd (Nat.lt_of_lt_of_le hlt hc) (Nat.lt_irrefl _)
    · exact .inr (append_lt_append heq h _ _)

theorem AtMost.of_isPrefix (h : v <+: w) : AtMost v w := by
  rcases Nat.lt_or_eq_of_le h.length_le with hlen | hlen
  · exact .inl hlen
  · exact .inr ⟨hlen, .inl (h.eq_of_length hlen)⟩

end Word

/-! ## Least words -/

/-- A least word with a property, if there is any word with it. -/
def Least (P : Word → Prop) : Option Word → Prop
  | none => ∀ w, ¬ P w
  | some v => P v ∧ ∀ w, P w → Word.AtMost v w

variable {P Q : Word → Prop} {r : Option Word}

/-- Where one property only adds words that are no smaller, the least word is the same. -/
theorem Least.of_imp (h : Least P r) (hPQ : ∀ w, P w → Q w)
    (hQP : ∀ w, Q w → ∃ v, P v ∧ Word.AtMost v w) : Least Q r := by
  cases r with
  | none =>
    intro w hw
    obtain ⟨v, hv, -⟩ := hQP w hw
    exact h v hv
  | some u =>
    refine ⟨hPQ u h.1, fun w hw => ?_⟩
    obtain ⟨v, hv, hle⟩ := hQP w hw
    exact (h.2 v hv).trans hle

theorem Least.congr (h : Least P r) (hPQ : ∀ w, P w ↔ Q w) : Least Q r :=
  h.of_imp (fun w => (hPQ w).1) fun w hw => ⟨w, (hPQ w).2 hw, .refl w⟩

end RegLang
