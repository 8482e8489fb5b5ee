import RegLang.Checked.Quotient
import RegLang.Proofs.CheckedSubsets
import RegLang.Proofs.Quotients
/-!
# Quotients with checks that succeed

The classes of a well-formed graph whose numbers stay below their count give a quotient: every
class is in the table of first members, and every target has a class.

* `representatives_eq`: the first members.
* `prepareTotal_eq`, `quotient_eq`: the two ends of a minimization.
-/

namespace RegLang.Checked

open Table

variable {g : Graph} {k : Classes} {c q : Nat}

theorem prepareTotal_eq (hg : g.WellFormed) : prepareTotal g = .ok g.prepareTotal := by
  rw [prepareTotal, determinize_eq hg, ok_bind, totalize_eq hg.determinize, ok_bind,
    compact_eq hg.determinize.totalize]
  rfl

/-! ## First members -/

/-- The first of the listed pairs of a class and a state. -/
def firstOf (pairs : List (Nat × Nat)) (c : Nat) : Option Nat :=
  (pairs.find? (·.1 = c)).map (·.2)

theorem firstOf_concat (pairs : List (Nat × Nat)) (e : Nat × Nat) (c : Nat) :
    firstOf (pairs ++ [e]) c =
      (firstOf pairs c).or (if e.1 = c then some e.2 else none) := by
  unfold firstOf
  rw [List.find?_append]
  cases pairs.find? (·.1 = c) with
  | some d => rfl
  | none =>
    by_cases h : e.1 = c <;> simp [h]

theorem classOf_zipIdx (k : Classes) :
    k.classOf.toList.zipIdx = (List.range k.classOf.size).map fun q => (k.get q, q) := by
  refine List.ext_getElem (by simp) fun q hq _ => ?_
  have hq : q < k.classOf.size := by simpa using hq
  simp [Classes.get, hq]

theorem firstOf_zipIdx (k : Classes) (c : Nat) :
    firstOf k.classOf.toList.zipIdx c = k.representative? c := by
  rw [firstOf, classOf_zipIdx, List.find?_map, Option.map_map]
  exact Option.map_id_apply

theorem representatives_eq (hk : ∀ q < k.classOf.size, k.get q < k.count) :
    representatives k = .ok ((List.range k.count).map k.representative?).toArray := by
  refine Succeeds.eq_ok ?_
  refine (succeeds_foldlM (I := fun done (firsts : Array (Option Nat)) =>
    firsts.size = k.count ∧ ∀ c < k.count, firsts[c]? = some (firstOf done c)) ?_ ?_).mono
      fun firsts ⟨hsize, hfirsts⟩ => ?_
  · exact ⟨Array.size_replicate, fun c hc => by simp [hc, firstOf]⟩
  · rintro done ⟨c, q⟩ hmem - firsts ⟨hsize, hfirsts⟩
    have hc : c < k.count := by
      rw [classOf_zipIdx] at hmem
      obtain ⟨p, hp, he⟩ := List.mem_map.1 hmem
      cases he
      exact hk q (List.mem_range.1 hp)
    unfold represent
    rw [read_eq_ok (hfirsts c hc), ok_bind]
    cases hfirst : firstOf done c with
    | some p =>
      refine .pure ⟨hsize, fun d hd => ?_⟩
      rw [hfirsts d hd, firstOf_concat]
      by_cases hdc : c = d
      · simp [← hdc, hfirst]
      · simp [hdc]
    | none =>
      refine .of_eq (write_eq_ok (hsize ▸ hc) _) ⟨by simpa using hsize, fun d hd => ?_⟩
      rw [getElem?_write (hsize ▸ hc), firstOf_concat]
      by_cases hdc : d = c
      · simp [hdc, hfirst]
      · rw [if_neg hdc, hfirsts d hd]
        simp [Ne.symm hdc]
  · refine Array.ext_getElem? fun c => ?_
    by_cases hc : c < k.count
    · rw [hfirsts c hc, firstOf_zipIdx]
      simp [hc]
    · simp [hc, hsize]

/-! ## The quotient -/

variable (hg : g.WellFormed) (hsize : k.classOf.size = g.size)
  (hlt : ∀ q < g.size, k.get q < k.count)

include hsize hlt

theorem classAt_eq (hq : q < g.size) : classAt k q = .ok (k.get q) := by
  have hget : k.classOf[q]? = some (k.get q) := by
    simp [Classes.get, hsize ▸ hq]
  rw [classAt, read_eq_ok hget, ok_bind]
  exact read_eq_ok (by simp [hlt q hq])

include hg

theorem classState_eq (c : Nat) :
    classState g k (k.representative? c) = .ok (Classes.toState g k c) := by
  unfold Classes.toState
  cases hfirst : k.representative? c with
  | none => rfl
  | some q =>
    have hq : q < g.size := by
      rw [← hsize]
      exact List.mem_range.1 (List.mem_of_find?_eq_some hfirst)
    rw [classState, Graph.fetch_of_lt hq, ok_bind]
    exact retarget_eq fun t ht => classAt_eq hsize hlt (hg.target_lt q hq t ht)

theorem wellFormed_graph : (Classes.graph g k).WellFormed where
  initial_lt := by
    simpa [Classes.graph, Graph.size] using hlt _ hg.initial_lt
  target_lt c hc t ht := by
    have hc : c < k.count := by simpa [Classes.graph, Graph.size] using hc
    have hstate : (Classes.graph g k).state c = Classes.toState g k c := by
      simp [Classes.graph, Graph.state, hc]
    rw [hstate, Classes.toState] at ht
    cases hfirst : k.representative? c with
    | none => simp [hfirst] at ht
    | some q =>
      have hq : q < g.size := by
        rw [← hsize]
        exact List.mem_range.1 (List.mem_of_find?_eq_some hfirst)
      rw [hfirst] at ht
      obtain ⟨u, hu, rfl⟩ := List.mem_map.1 ht
      simpa [Classes.graph, Graph.size] using hlt _ (hg.target_lt q hq u hu)

theorem quotient_eq : quotient g k = .ok (g.quotient k) := by
  have hstates : ((List.range k.count).map k.representative?).toArray.toList.mapM
      (classState g k) = .ok ((List.range k.count).map (Classes.toState g k)) := by
    rw [List.toList_toArray, List.mapM_map]
    exact mapM_eq_ok fun c _ => classState_eq hg hsize hlt c
  rw [quotient, representatives_eq fun q hq => hlt q (hsize ▸ hq), ok_bind, hstates, ok_bind,
    classAt_eq hsize hlt hg.initial_lt, ok_bind, Classes.quotient_eq]
  exact trim_eq (wellFormed_graph hg hsize hlt)

end RegLang.Checked
