import RegLang.Checked.Tours
import RegLang.Proofs.Exploration
import RegLang.Result
/-!
# Tours that succeed

A tour whose items all can be stored, and whose successors all can be found, goes on side by side
with the exploration of the same items, so it comes to the same list.

* `visit_eq`: tours with any store.
* `visit_unless`: tours that can meet items that cannot be stored, or that have no successors.
* `keeps_insert`, `keeps_listed`: the two kinds of stores.
-/

namespace RegLang

namespace Tour

variable {σ α : Type} [DecidableEq α] {insert : Insertion σ α} {P : α → Prop}
  {holds : σ → List α → Prop} {succM : α → Except Fault (List α)} {succ : α → List α} {empty : σ}
  {t : Tour σ α} {w : Worklist α} {x : α} {xs : List α} {fuel n : Nat} {e : Fault}

/-- Items with a property can be put into a store that holds some of them. -/
def Keeps (insert : Insertion σ α) (P : α → Prop) (holds : σ → List α → Prop) : Prop :=
  ∀ store seen x, holds store seen → P x → Succeeds (insert store x) fun r =>
    r.1 = !seen.contains x ∧ holds r.2 (if seen.contains x then seen else x :: seen)

theorem Keeps.mono {Q : α → Prop} (h : Keeps insert P holds) (hQP : ∀ x, Q x → P x) :
    Keeps insert Q holds :=
  fun store seen x hstore hx => h store seen x hstore (hQP x hx)

/-- A tour has come as far as an exploration. -/
structure Abreast (holds : σ → List α → Prop) (P : α → Prop) (t : Tour σ α) (w : Worklist α) :
    Prop where
  queue : t.queue = w.queue
  seen : t.seen = w.seen
  store : holds t.store w.seen
  waiting : ∀ x ∈ w.queue, P x

omit [DecidableEq α] in
theorem abreast_start (hempty : holds empty []) :
    Abreast holds P ⟨[], empty, []⟩ ({} : Worklist α) :=
  ⟨rfl, rfl, hempty, fun _ hx => (List.not_mem_nil hx).elim⟩

omit [DecidableEq α] in
theorem Abreast.take {rest seen : List α} (h : Abreast holds P t ⟨x :: rest, seen⟩) :
    Abreast holds P ⟨rest, t.store, t.seen⟩ ⟨rest, seen⟩ :=
  ⟨rfl, h.seen, h.store, fun y hy => h.waiting y (List.mem_cons_of_mem x hy)⟩

theorem Abreast.offer (h : Abreast holds P t w) (hk : Keeps insert P holds) (hx : P x) :
    Succeeds (t.offer insert x) (Abreast holds P · (w.offer x)) := by
  unfold Tour.offer Worklist.offer Worklist.wasSeen
  refine (hk t.store w.seen x h.store hx).bind fun ⟨new, store⟩ ⟨hnew, hstore⟩ => .pure ?_
  dsimp only at hnew hstore
  cases hc : w.seen.contains x with
  | true =>
    rw [hc] at hnew hstore
    rw [hnew]
    exact ⟨h.queue, h.seen, hstore, h.waiting⟩
  | false =>
    rw [hc] at hnew hstore
    rw [hnew]
    refine ⟨by simp [h.queue], by simp [h.seen], hstore, fun y hy => ?_⟩
    rcases List.mem_append.1 hy with hy | hy
    · exact h.waiting y hy
    · rw [List.mem_singleton.1 hy]
      exact hx

theorem Abreast.offerAll (h : Abreast holds P t w) (hk : Keeps insert P holds)
    (hxs : ∀ x ∈ xs, P x) :
    Succeeds (xs.foldlM (Tour.offer insert) t) (Abreast holds P · (w.offerAll xs)) := by
  refine succeeds_foldlM (I := fun done t => Abreast holds P t (w.offerAll done)) h ?_
  intro done x hmem _ t ht
  rw [Worklist.offerAll, List.foldl_append]
  exact ht.offer hk (hxs x hmem)

theorem Abreast.drain (h : Abreast holds P t w) (hk : Keeps insert P holds)
    (hsucc : ∀ x, P x → succM x = .ok (succ x)) (hclosed : ∀ x, P x → ∀ y ∈ succ x, P y) :
    Succeeds (t.drain insert succM fuel) (Abreast holds P · (w.drain succ fuel)) := by
  induction fuel generalizing t w with
  | zero => exact .pure h
  | succ fuel ih =>
    obtain ⟨queue, seen⟩ := w
    unfold Tour.drain Worklist.drain Worklist.pop?
    rw [h.queue]
    cases queue with
    | nil => exact .pure h
    | cons x rest =>
      have hx : P x := h.waiting x List.mem_cons_self
      show Succeeds (succM x >>= fun ys => _) _
      rw [hsucc x hx, ok_bind]
      exact (h.take.offerAll hk (hclosed x hx)).bind fun t' ht' => ih ht'

/-- A tour comes to the list of the exploration. -/
theorem visit_eq (hk : Keeps insert P holds) (hempty : holds empty [])
    (hsucc : ∀ x, P x → succM x = .ok (succ x)) (hclosed : ∀ x, P x → ∀ y ∈ succ x, P y)
    {starts : List α} (hstarts : ∀ x ∈ starts, P x) :
    visit insert empty succM fuel starts = .ok (explore succ fuel starts) := by
  refine Succeeds.eq_ok (((abreast_start hempty).offerAll hk hstarts).bind fun t ht => ?_)
  refine (ht.drain hk hsucc hclosed).bind fun t' ht' => .pure ?_
  rw [ht'.seen]
  rfl

/-! ## Tours that fail -/

/-- Items without a property cannot be put into a store. -/
def Refuses (insert : Insertion σ α) (P : α → Prop) (holds : σ → List α → Prop) (e : Fault) :
    Prop :=
  ∀ store seen x, holds store seen → ¬ P x → insert store x = .error e

theorem Abreast.offer_unless (h : Abreast holds P t w) (hk : Keeps insert P holds)
    (hr : Refuses insert P holds e) (x : α) :
    SucceedsUnless e (t.offer insert x) (Abreast holds P · (w.offer x)) := by
  by_cases hx : P x
  · exact .inr (h.offer hk hx)
  · left
    rw [Tour.offer, hr t.store w.seen x h.store hx]
    rfl

theorem Abreast.offerAll_unless (h : Abreast holds P t w) (hk : Keeps insert P holds)
    (hr : Refuses insert P holds e) (xs : List α) :
    SucceedsUnless e (xs.foldlM (Tour.offer insert) t) (Abreast holds P · (w.offerAll xs)) := by
  induction xs generalizing t w with
  | nil => exact .inr (.pure h)
  | cons x xs ih =>
    rw [List.foldlM_cons]
    exact (h.offer_unless hk hr x).bind fun t' ht' => ih ht'

/-- A tour that meets no fault has found the successors of every item that it has taken from the
queue. -/
theorem Abreast.drain_unless {done : List α} (h : Abreast holds P t w) (hk : Keeps insert P holds)
    (hr : Refuses insert P holds e) (hsucc : ∀ x, SucceedsUnless e (succM x) (· = succ x))
    (hsplit : w.Split done) (hdone : ∀ x ∈ done, succM x = .ok (succ x)) :
    SucceedsUnless e (t.drain insert succM fuel) fun t' => Abreast holds P t' (w.drain succ fuel) ∧
      ∃ done, (w.drain succ fuel).Split done ∧ ∀ x ∈ done, succM x = .ok (succ x) := by
  -- `done` are the items taken so far; an item that waits is found out only when it is taken
  induction fuel generalizing t w done with
  | zero => exact .inr (.pure ⟨h, done, hsplit, hdone⟩)
  | succ fuel ih =>
    obtain ⟨queue, seen⟩ := w
    unfold Tour.drain Worklist.drain Worklist.pop?
    rw [h.queue]
    cases queue with
    | nil => exact .inr (.pure ⟨h, done, hsplit, hdone⟩)
    | cons x rest =>
      show SucceedsUnless e (succM x >>= fun ys => _) _
      rcases hsucc x with hx | ⟨ys, hx, rfl⟩
      · exact .inl (by rw [hx]; rfl)
      · rw [hx, ok_bind]
        refine (h.take.offerAll_unless hk hr (succ x)).bind fun t' ht' =>
          ih ht' (hsplit.take.offerAll (succ x)) fun y hy => ?_
        rcases List.mem_append.1 hy with hy | hy
        · exact hdone y hy
        · rw [List.mem_singleton.1 hy]
          exact hx

/-- A tour that comes to an end without a fault has come to the list of the exploration and found
the successors of every item in it. -/
theorem visit_unless (hk : Keeps insert P holds) (hr : Refuses insert P holds e)
    (hempty : holds empty []) (hsucc : ∀ x, SucceedsUnless e (succM x) (· = succ x))
    {starts all : List α} (hs : starts ⊆ all) (hall : ∀ x ∈ all, succ x ⊆ all)
    (hf : all.length ≤ fuel) :
    SucceedsUnless e (visit insert empty succM fuel starts) fun xs =>
      xs = explore succ fuel starts ∧ ∀ x ∈ xs, succM x = .ok (succ x) := by
  refine ((abreast_start hempty).offerAll_unless hk hr starts).bind fun t ht => ?_
  have hsplit := Worklist.split_start starts
  refine (ht.drain_unless hk hr hsucc hsplit (by simp)).bind fun t' ⟨ht', done, hsplit', hdone⟩ =>
    .inr (.pure ?_)
  have hqueue := Worklist.queue_drain_eq_nil hall fuel hsplit
    (fun x hx => hs (Worklist.mem_seen_start.1 hx)) (by simpa using hf)
  refine ⟨by rw [ht'.seen]; rfl, fun x hx => hdone x ?_⟩
  rw [ht'.seen, List.mem_reverse, hsplit'.mem_seen, hqueue] at hx
  simpa using hx

/-! ## Stores -/

/-- A set has room for the numbers below `n` and no others, and its members are those seen. -/
def Holds (n : Nat) (s : StateSet) (seen : List Nat) : Prop :=
  s.capacity = n ∧ ∀ i, s.contains i = seen.contains i

theorem holds_ofCapacity (n : Nat) :
    Holds (StateSet.ofCapacity n).capacity (.ofCapacity n) [] :=
  ⟨rfl, fun i => by rw [StateSet.not_contains_ofCapacity]; rfl⟩

/-- Small numbers can be put into a set with room for them. -/
theorem keeps_insert (n : Nat) : Keeps StateSet.insert (· < n) (Holds n) := by
  rintro s seen i ⟨rfl, hmem⟩ hi
  refine .of_eq (if_pos hi) ⟨by rw [hmem], StateSet.capacity_add s i, fun j => ?_⟩
  rw [StateSet.contains_add hi, hmem]
  cases hc : seen.contains i with
  | true =>
    by_cases hj : j = i
    · simpa [hj] using hc
    · simp [hj]
  | false =>
    by_cases hj : j = i <;> simp [hj]

theorem refuses_insert (n : Nat) : Refuses StateSet.insert (· < n) (Holds n) .outOfRange := by
  rintro s seen i ⟨rfl, _⟩ hi
  exact if_neg hi

theorem keeps_listed (P : α → Prop) : Keeps listed P fun store seen => store = seen := by
  rintro store seen x rfl _
  exact .pure ⟨rfl, rfl⟩

theorem visit_insert_eq {P : Nat → Prop} (hP : ∀ q, P q → q < n)
    (hsucc : ∀ q, P q → succM' q = .ok (succ' q)) (hclosed : ∀ q, P q → ∀ p ∈ succ' q, P p)
    {starts : List Nat} (hstarts : ∀ q ∈ starts, P q) :
    visit StateSet.insert (.ofCapacity n) succM' fuel starts = .ok (explore succ' fuel starts) :=
  visit_eq ((keeps_insert _).mono fun q hq => Nat.lt_of_lt_of_le (hP q hq)
    (StateSet.le_capacity_ofCapacity n)) (holds_ofCapacity n) hsucc hclosed hstarts

theorem visit_listed_eq (P : α → Prop) (hsucc : ∀ x, P x → succM x = .ok (succ x))
    (hclosed : ∀ x, P x → ∀ y ∈ succ x, P y) {starts : List α} (hstarts : ∀ x ∈ starts, P x) :
    visit listed [] succM fuel starts = .ok (explore succ fuel starts) :=
  visit_eq (keeps_listed P) rfl hsucc hclosed hstarts

end Tour

end RegLang
