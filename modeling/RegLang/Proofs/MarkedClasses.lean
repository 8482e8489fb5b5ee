import RegLang.Proofs.Distinguishing
/-!
# Classes of states that are not marked

Classes are handed out state by state.  A state without a class gets the next number, together
with all later states that it is not distinguished from; earlier ones would have brought a class.

* `Assigned.assign`: what handing out a class preserves.
* `faithful_classes`: the classes in the end hold together what accepts the same words.
-/

namespace RegLang.Marking

open RegLang.Graph (Alike)

variable {t : Graph} {k : Nat} {s : Array (Option Nat) × Nat}

/-- The class found for a state. -/
def found (s : Array (Option Nat) × Nat) (q : Nat) : Option Nat := s.1.getD q none

/-- What holds while the states below `k` have been given classes: a state has a class as soon as
it accepts the same words as one of those. -/
structure Assigned (t : Graph) (k : Nat) (s : Array (Option Nat) × Nat) : Prop where
  size_eq : s.1.size = t.size
  isSome_iff : ∀ q < t.size, (found s q).isSome = true ↔ ∃ p < k, p < t.size ∧ Alike t t p q
  eq_iff : ∀ p < t.size, ∀ q < t.size, ∀ i j, found s p = some i → found s q = some j →
    (i = j ↔ Alike t t p q)
  lt : ∀ q < t.size, ∀ i, found s q = some i → i < s.2
  used : ∀ i < s.2, ∃ p < k, p < t.size ∧ found s p = some i
  earlier : ∀ q < t.size, ∀ i, found s q = some i → ∀ j < i, ∃ p < q, found s p = some j

theorem assigned_start (t : Graph) : Assigned t 0 (Array.replicate t.size none, 0) := by
  have hnone : ∀ q, found (Array.replicate t.size none, 0) q = none := by
    intro q
    rw [found, Array.getD_eq_getD_getElem?, Array.getElem?_replicate]
    split <;> rfl
  refine ⟨Array.size_replicate, ?_, ?_, ?_, ?_, ?_⟩
  · intro q _
    simp [hnone]
  · intro p _ q _ i j hi
    rw [hnone] at hi
    cases hi
  · intro q _ i hi
    rw [hnone] at hi
    cases hi
  · intro i hi
    cases hi
  · intro q _ i hi
    rw [hnone] at hi
    cases hi

/-- A state with a class is passed over. -/
theorem Assigned.skip (h : Assigned t k s) (hk : k < t.size)
    (hsome : (found s k).isSome = true) : Assigned t (k + 1) s := by
  refine { h with isSome_iff := fun q hq => ?_, used := fun i hi => ?_ }
  · rw [h.isSome_iff q hq]
    constructor
    · rintro ⟨p, hp, hpq⟩
      exact ⟨p, Nat.lt_succ_of_lt hp, hpq⟩
    · rintro ⟨p, hp, hlt, hpq⟩
      rcases Nat.lt_or_eq_of_le (Nat.le_of_lt_succ hp) with hp | rfl
      · exact ⟨p, hp, hlt, hpq⟩
      · obtain ⟨r, hr, hrlt, hrp⟩ := (h.isSome_iff p hk).1 hsome
        exact ⟨r, hr, hrlt, hrp.trans hpq⟩
  · obtain ⟨p, hp, hpi⟩ := h.used i hi
    exact ⟨p, Nat.lt_succ_of_lt hp, hpi⟩

/-- State `k` and all that accept the same words have been given the next class. -/
structure Fresh (t : Graph) (k : Nat) (s s' : Array (Option Nat) × Nat) : Prop where
  size_eq : s'.1.size = t.size
  count_eq : s'.2 = s.2 + 1
  new : ∀ q < t.size, Alike t t k q → found s' q = some s.2
  old : ∀ q < t.size, ¬ Alike t t k q → found s' q = found s q

variable {s' : Array (Option Nat) × Nat} {i p q : Nat}

theorem Fresh.cases (hf : Fresh t k s s') (hq : q < t.size) (hi : found s' q = some i) :
    (Alike t t k q ∧ i = s.2) ∨ (¬ Alike t t k q ∧ found s q = some i) := by
  by_cases hkq : Alike t t k q
  · rw [hf.new q hq hkq] at hi
    exact .inl ⟨hkq, (Option.some.inj hi).symm⟩
  · rw [hf.old q hq hkq] at hi
    exact .inr ⟨hkq, hi⟩

/-- An earlier state that accepts the same words would have brought a class. -/
theorem Assigned.not_alike_of_lt (h : Assigned t k s) (hk : k < t.size) (hnone : found s k = none)
    (hp : p < k) (hlt : p < t.size) : ¬ Alike t t p k := by
  intro hpk
  have hsome := (h.isSome_iff k hk).2 ⟨p, hp, hlt, hpk⟩
  rw [hnone] at hsome
  cases hsome

/-- States keep the classes that they have. -/
theorem Fresh.keep (hf : Fresh t k s s') (h : Assigned t k s) (hk : k < t.size)
    (hnone : found s k = none) (hq : q < t.size) (hi : found s q = some i) :
    found s' q = some i := by
  have hkq : ¬ Alike t t k q := by
    intro hkq
    obtain ⟨p, hp, hlt, hpq⟩ := (h.isSome_iff q hq).1 (by rw [hi]; rfl)
    exact h.not_alike_of_lt hk hnone hp hlt (hpq.trans hkq.symm)
  rw [hf.old q hq hkq, hi]

theorem Fresh.isSome_iff (hf : Fresh t k s s') (h : Assigned t k s) (hk : k < t.size)
    (hq : q < t.size) :
    (found s' q).isSome = true ↔ ∃ p < k + 1, p < t.size ∧ Alike t t p q := by
  by_cases hkq : Alike t t k q
  · rw [hf.new q hq hkq]
    exact ⟨fun _ => ⟨k, Nat.lt_succ_self k, hk, hkq⟩, fun _ => rfl⟩
  · rw [hf.old q hq hkq, h.isSome_iff q hq]
    constructor
    · rintro ⟨p, hp, hpq⟩
      exact ⟨p, Nat.lt_succ_of_lt hp, hpq⟩
    · rintro ⟨p, hp, hlt, hpq⟩
      rcases Nat.lt_or_eq_of_le (Nat.le_of_lt_succ hp) with hp | rfl
      · exact ⟨p, hp, hlt, hpq⟩
      · exact absurd hpq hkq

theorem Fresh.eq_iff (hf : Fresh t k s s') (h : Assigned t k s) {j : Nat} (hp : p < t.size)
    (hq : q < t.size) (hi : found s' p = some i) (hj : found s' q = some j) :
    i = j ↔ Alike t t p q := by
  rcases hf.cases hp hi with ⟨hkp, rfl⟩ | ⟨hkp, hi⟩ <;>
    rcases hf.cases hq hj with ⟨hkq, rfl⟩ | ⟨hkq, hj⟩
  · exact ⟨fun _ => hkp.symm.trans hkq, fun _ => rfl⟩
  · have hlt := h.lt q hq j hj
    exact ⟨fun he => by omega, fun hpq => absurd (hkp.trans hpq) hkq⟩
  · have hlt := h.lt p hp i hi
    exact ⟨fun he => by omega, fun hpq => absurd (hkq.trans hpq.symm) hkp⟩
  · exact h.eq_iff p hp q hq i j hi hj

/-- Smaller classes are met earlier: what accepts the same words as `k` does not come before. -/
theorem Fresh.earlier (hf : Fresh t k s s') (h : Assigned t k s) (hk : k < t.size)
    (hnone : found s k = none) (hq : q < t.size) (hi : found s' q = some i) {j : Nat}
    (hj : j < i) : ∃ p < q, found s' p = some j := by
  rcases hf.cases hq hi with ⟨hkq, rfl⟩ | ⟨_, hi⟩
  · obtain ⟨p, hp, hlt, hpj⟩ := h.used j hj
    have hkle : k ≤ q := Nat.le_of_not_lt fun hqk =>
      h.not_alike_of_lt hk hnone hqk hq hkq.symm
    exact ⟨p, Nat.lt_of_lt_of_le hp hkle, hf.keep h hk hnone hlt hpj⟩
  · obtain ⟨p, hp, hpj⟩ := h.earlier q hq i hi j hj
    exact ⟨p, hp, hf.keep h hk hnone (Nat.lt_trans hp hq) hpj⟩

/-- A state without a class gets the next one, together with all that accept the same words. -/
theorem Assigned.fresh (h : Assigned t k s) (hk : k < t.size) (hnone : found s k = none)
    (hf : Fresh t k s s') : Assigned t (k + 1) s' := by
  refine ⟨hf.size_eq, fun q hq => hf.isSome_iff h hk hq,
    fun p hp q hq i j => hf.eq_iff h hp hq, ?_, ?_,
    fun q hq i hi j hj => hf.earlier h hk hnone hq hi hj⟩
  · intro q hq i hi
    rw [hf.count_eq]
    rcases hf.cases hq hi with ⟨_, rfl⟩ | ⟨_, hi⟩
    · omega
    · have hlt := h.lt q hq i hi
      omega
  · intro i hi
    rw [hf.count_eq] at hi
    rcases Nat.lt_or_eq_of_le (Nat.le_of_lt_succ hi) with hi | rfl
    · obtain ⟨p, hp, hlt, hpi⟩ := h.used i hi
      exact ⟨p, Nat.lt_succ_of_lt hp, hlt, hf.keep h hk hnone hlt hpi⟩
    · exact ⟨k, Nat.lt_succ_self k, hk, hf.new k hk (Alike.refl t k)⟩

theorem Assigned.assign (ht : t.Prepared) (h : Assigned t k s) (hk : k < t.size) :
    Assigned t (k + 1) (assign (marks t) s k) := by
  unfold Marking.assign
  show Assigned t (k + 1) (if (found s k).isSome = true then s else _)
  by_cases hsome : (found s k).isSome = true
  · rw [if_pos hsome]
    exact h.skip hk hsome
  · rw [if_neg hsome]
    have hnone : found s k = none := by simpa using hsome
    have hget : ∀ q < t.size, (s.1.mapIdx fun q c => if q = k || (k < q &&
        !(marks t).isMarked (k, q)) then some s.2 else c).getD q none =
          if q = k || (k < q && !(marks t).isMarked (k, q)) then some s.2 else found s q := by
      intro q hq
      have hq' : q < s.1.size := h.size_eq ▸ hq
      simp [found, Array.getD, hq']
    have halike : ∀ q < t.size, (q = k || (k < q && !(marks t).isMarked (k, q))) = true →
        Alike t t k q := by
      intro q hq hc
      rw [Bool.or_eq_true, Bool.and_eq_true, decide_eq_true_iff, decide_eq_true_iff] at hc
      rcases hc with rfl | ⟨hlt, hm⟩
      · exact Alike.refl t q
      · by_contra hne
        rw [(isMarked_marks ht hlt hq).2 hne] at hm
        cases hm
    refine h.fresh hk hnone ⟨?_, rfl, ?_, ?_⟩
    · rw [← h.size_eq]
      exact Array.size_mapIdx
    · intro q hq hkq
      refine (hget q hq).trans (if_pos ?_)
      have hle : k ≤ q := Nat.le_of_not_lt fun hlt =>
        h.not_alike_of_lt hk hnone hlt hq hkq.symm
      rcases Nat.lt_or_eq_of_le hle with hlt | rfl
      · have hm : (marks t).isMarked (k, q) = false := by
          rw [Bool.eq_false_iff]
          exact fun hm => (isMarked_marks ht hlt hq).1 hm hkq
        simp [hlt, hm]
      · simp
    · intro q hq hkq
      exact (hget q hq).trans (if_neg fun hc => hkq (halike q hq hc))

theorem assigned_foldl (ht : t.Prepared) (hk : k ≤ t.size) : Assigned t k
    ((List.range k).foldl (assign (marks t)) (Array.replicate t.size none, 0)) := by
  induction k with
  | zero => exact assigned_start t
  | succ k ih =>
    rw [List.range_succ, List.foldl_append]
    exact (ih (Nat.le_of_succ_le hk)).assign ht hk

/-- The classes of states that are not distinguished. -/
theorem faithful_classes (ht : t.Prepared) : (classes t (marks t)).Faithful t := by
  have h := assigned_foldl ht (Nat.le_refl t.size)
  have hfound : ∀ q < t.size, found ((List.range t.size).foldl (assign (marks t))
      (Array.replicate t.size none, 0)) q = some ((classes t (marks t)).get q) := by
    intro q hq
    have hsome := (h.isSome_iff q hq).2 ⟨q, hq, hq, Alike.refl t q⟩
    have hq' : q < ((List.range t.size).foldl (assign (marks t))
        (Array.replicate t.size none, 0)).1.size := by
      rw [h.size_eq]
      exact hq
    obtain ⟨i, hi⟩ := Option.isSome_iff_exists.1 hsome
    have hget : (classes t (marks t)).get q = (found ((List.range t.size).foldl (assign (marks t))
        (Array.replicate t.size none, 0)) q).getD 0 := by
      simp [classes, Classes.get, found, Array.getD, hq']
    rw [hget, hi]
    rfl
  refine ⟨?_, ?_, ?_, ?_, ?_⟩
  · rw [← h.size_eq]
    exact Array.size_map
  · intro p hp q hq
    exact h.eq_iff p hp q hq _ _ (hfound p hp) (hfound q hq)
  · intro q hq
    exact h.lt q hq _ (hfound q hq)
  · intro c hc
    obtain ⟨p, _, hp, hpc⟩ := h.used c hc
    rw [hfound p hp] at hpc
    exact ⟨p, hp, Option.some.inj hpc⟩
  · intro q hq c hc
    obtain ⟨p, hp, hpc⟩ := h.earlier q hq _ (hfound q hq) c hc
    rw [hfound p (Nat.lt_trans hp hq)] at hpc
    exact ⟨p, hp, Option.some.inj hpc⟩

end RegLang.Marking
