import Mathlib.Data.List.Nodup
import Mathlib.Data.List.Perm.Subperm
import Mathlib.Logic.Function.Basic
import RegLang.Checked.ActiveLists
/-!
# Lists of active states

The links of all lists together describe one list of nodes for each block and letter, which has the
nodes that the block owns.  An edit at one node touches the links of its neighbours alone, so all
other lists stay as they are; and a state is in a list exactly if it has an owner.

* `Linked.push`, `Linked.unlink`: what the two edits do to a row of nodes.
* `Sound.add`, `Sound.remove`: what they do to the owners.
* `Sound.lengthAt`, `Sound.members`: lengths and members, by the owners.
-/

namespace RegLang.ActiveLists

open Table

variable {l : ActiveLists} {prev next prev' next' : Array (Option Nat)} {nodes : Nat → List Nat}
  {before after before' after' head : Option Nat} {ns ms : List Nat}
  {b k m n q x node blocks states : Nat}

/-! ## Rows of nodes -/

/-- The nodes are linked one after another, between two neighbours. -/
def Linked (prev next : Array (Option Nat)) : Option Nat → List Nat → Option Nat → Prop
  | _, [], _ => True
  | before, n :: ns, after =>
    prev[n]? = some before ∧ next[n]? = some (ns.head?.or after) ∧
      Linked prev next (some n) ns after

theorem linked_append : Linked prev next before (ns ++ ms) after ↔
    Linked prev next before ns (ms.head?.or after) ∧
      Linked prev next (ns.getLast?.or before) ms after := by
  induction ns generalizing before with
  | nil => simp [Linked]
  | cons n ns ih =>
    have hhead : (ns ++ ms).head?.or after = ns.head?.or (ms.head?.or after) := by
      rw [List.head?_append, Option.or_assoc]
    have hlast : (ns.getLast?.or (some n)) = ((n :: ns).getLast?.or before) := by
      cases h : ns.getLast? with
      | none => simp [List.getLast?_eq_none_iff.1 h]
      | some m => rw [List.getLast?_cons, h]; rfl
    rw [List.cons_append, Linked, Linked, ih, hhead, hlast]
    exact ⟨fun ⟨h1, h2, h3, h4⟩ => ⟨⟨h1, h2, h3⟩, h4⟩, fun ⟨⟨h1, h2, h3⟩, h4⟩ => ⟨h1, h2, h3, h4⟩⟩

/-- Only the links of its own nodes matter for a row. -/
theorem Linked.congr (h : Linked prev next before ns after)
    (hp : ∀ n ∈ ns, prev'[n]? = prev[n]?) (hn : ∀ n ∈ ns, next'[n]? = next[n]?) :
    Linked prev' next' before ns after := by
  induction ns generalizing before with
  | nil => trivial
  | cons n ns ih =>
    obtain ⟨h1, h2, h3⟩ := h
    refine ⟨(hp n List.mem_cons_self).trans h1, (hn n List.mem_cons_self).trans h2, ?_⟩
    exact ih h3 (fun m hm => hp m (List.mem_cons_of_mem n hm))
      fun m hm => hn m (List.mem_cons_of_mem n hm)

/-- A row with another neighbour in front. -/
theorem Linked.replace_before (h : Linked prev next before ns after)
    (hfirst : ∀ n ∈ ns.head?, prev'[n]? = some before')
    (hp : ∀ n ∈ ns, n ∉ ns.head? → prev'[n]? = prev[n]?) (hn : ∀ n ∈ ns, next'[n]? = next[n]?)
    (hnodup : ns.Nodup) : Linked prev' next' before' ns after := by
  cases ns with
  | nil => trivial
  | cons n ns =>
    obtain ⟨-, h2, h3⟩ := h
    refine ⟨hfirst n rfl, (hn n List.mem_cons_self).trans h2, h3.congr (fun m hm => ?_) ?_⟩
    · refine hp m (List.mem_cons_of_mem n hm) fun he => ?_
      rw [List.head?_cons, Option.mem_some_iff] at he
      exact (List.nodup_cons.1 hnodup).1 (he ▸ hm)
    · exact fun m hm => hn m (List.mem_cons_of_mem n hm)

/-- A row with another neighbour behind. -/
theorem Linked.replace_after (h : Linked prev next before ns after)
    (hlast : ∀ n ∈ ns.getLast?, next'[n]? = some after')
    (hn : ∀ n ∈ ns, n ∉ ns.getLast? → next'[n]? = next[n]?) (hp : ∀ n ∈ ns, prev'[n]? = prev[n]?)
    (hnodup : ns.Nodup) : Linked prev' next' before ns after' := by
  induction ns generalizing before with
  | nil => trivial
  | cons n ns ih =>
    obtain ⟨h1, h2, h3⟩ := h
    have hnotin : n ∉ ns := (List.nodup_cons.1 hnodup).1
    refine ⟨(hp n List.mem_cons_self).trans h1, ?_, ?_⟩
    · cases ns with
      | nil => exact hlast n rfl
      | cons m ns =>
        refine (hn n List.mem_cons_self fun he => ?_).trans h2
        rw [List.getLast?_cons_cons] at he
        exact hnotin (List.mem_of_getLast? he)
    · cases ns with
      | nil => trivial
      | cons m ns =>
        rw [List.getLast?_cons_cons] at hlast hn
        exact ih h3 hlast (fun m hm => hn m (List.mem_cons_of_mem n hm))
          (fun m hm => hp m (List.mem_cons_of_mem n hm)) (List.nodup_cons.1 hnodup).2

/-- What the links are once a node has come in front of a row. -/
structure Pushed (node : Nat) (head : Option Nat) (prev next prev' next' : Array (Option Nat)) :
    Prop where
  prev_self : prev'[node]? = some none
  next_self : next'[node]? = some head
  prev_other : ∀ n ≠ node, prev'[n]? = if head = some n then some (some node) else prev[n]?
  next_other : ∀ n ≠ node, next'[n]? = next[n]?

/-- What the links are once a node has gone from between its neighbours. -/
structure Unlinked (node : Nat) (before after : Option Nat)
    (prev next prev' next' : Array (Option Nat)) : Prop where
  prev_other : ∀ n ≠ node, prev'[n]? = if after = some n then some before else prev[n]?
  next_other : ∀ n ≠ node, next'[n]? = if before = some n then some after else next[n]?

theorem pushed_write (hp : node < prev.size) (hn : node < next.size)
    (hhead : ∀ n ∈ head, n < prev.size) (hne : head ≠ some node) :
    Pushed node head prev next
      (head.elim (prev.setIfInBounds node none)
        ((prev.setIfInBounds node none).setIfInBounds · (some node)))
      (next.setIfInBounds node head) := by
  have hhead' : ∀ n ∈ head, n < (prev.setIfInBounds node none).size := by
    rwa [Array.size_setIfInBounds]
  have hprev := getElem?_writeSome hhead' (some node)
  refine ⟨?_, ?_, fun n hnode => ?_, fun n hnode => ?_⟩
  · rw [hprev, if_neg hne, getElem?_write hp, if_pos rfl]
  · rw [getElem?_write hn, if_pos rfl]
  · rw [hprev, getElem?_write hp, if_neg hnode]
  · rw [getElem?_write hn, if_neg hnode]

theorem unlinked_write (hp : node < prev.size) (hn : node < next.size)
    (hbefore : ∀ n ∈ before, n < next.size) (hafter : ∀ n ∈ after, n < prev.size) :
    Unlinked node before after prev next
      ((after.elim prev (prev.setIfInBounds · before)).setIfInBounds node none)
      ((before.elim next (next.setIfInBounds · after)).setIfInBounds node none) := by
  refine ⟨fun n hnode => ?_, fun n hnode => ?_⟩
  · rw [getElem?_write (by rwa [size_writeSome]), if_neg hnode, getElem?_writeSome hafter]
  · rw [getElem?_write (by rwa [size_writeSome]), if_neg hnode, getElem?_writeSome hbefore]

/-- A row with one more node in front. -/
theorem Linked.push (h : Linked prev next none ns none)
    (hl : Pushed node ns.head? prev next prev' next') (hnodup : (node :: ns).Nodup) :
    Linked prev' next' none (node :: ns) none := by
  obtain ⟨hnot, hns⟩ := List.nodup_cons.1 hnodup
  have hne : ∀ n ∈ ns, n ≠ node := fun n hn he => hnot (he ▸ hn)
  refine ⟨hl.prev_self, by rw [hl.next_self, Option.or_none], h.replace_before ?_ ?_ ?_ hns⟩
  · intro n hn
    rw [hl.prev_other n (hne n (List.mem_of_head? hn)), if_pos (Option.mem_def.1 hn)]
  · intro n hn hhead
    rw [hl.prev_other n (hne n hn), if_neg fun he => hhead (Option.mem_def.2 he)]
  · exact fun n hn => hl.next_other n (hne n hn)

/-- Two rows that are joined where the node between them has gone. -/
theorem Linked.unlink (h : Linked prev next none (ns ++ node :: ms) none)
    (hl : Unlinked node ns.getLast? ms.head? prev next prev' next')
    (hnodup : (ns ++ node :: ms).Nodup) : Linked prev' next' none (ns ++ ms) none := by
  obtain ⟨hnot, hrows⟩ := List.nodup_cons.1 (List.nodup_middle.1 hnodup)
  have hne : ∀ n ∈ ns ++ ms, n ≠ node := fun n hn he => hnot (he ▸ hn)
  have hdisjoint : ∀ n ∈ ns, n ∉ ms := fun n hn hm => List.disjoint_of_nodup_append hrows hn hm
  rw [linked_append, List.head?_cons, Option.some_or, Option.or_none] at h
  obtain ⟨hns, -, -, hms⟩ := h
  refine linked_append.2 ⟨?_, ?_⟩
  · refine hns.replace_after (fun n hn => ?_) (fun n hn hlast => ?_) (fun n hn => ?_)
      hrows.of_append_left
    · have hmem := List.mem_append_left ms (List.mem_of_getLast? hn)
      rw [hl.next_other n (hne n hmem), if_pos (Option.mem_def.1 hn), Option.or_none]
    · rw [hl.next_other n (hne n (List.mem_append_left _ hn)),
        if_neg fun he => hlast (Option.mem_def.2 he)]
    · rw [hl.prev_other n (hne n (List.mem_append_left _ hn)),
        if_neg fun he => hdisjoint n hn (List.mem_of_head? he)]
  · refine hms.replace_before (fun n hn => ?_) (fun n hn hhead => ?_) (fun n hn => ?_)
      hrows.of_append_right
    · have hmem := List.mem_append_right ns (List.mem_of_head? hn)
      rw [hl.prev_other n (hne n hmem), if_pos (Option.mem_def.1 hn), Option.or_none]
    · rw [hl.prev_other n (hne n (List.mem_append_right _ hn)),
        if_neg fun he => hhead (Option.mem_def.2 he)]
    · rw [hl.next_other n (hne n (List.mem_append_right _ hn)),
        if_neg fun he => hdisjoint n (List.mem_of_getLast? he) hn]

/-! ## Lists -/

/-- The links describe a list of nodes for each block and letter, which has the nodes that the block
owns. -/
structure Chained (l : ActiveLists) (nodes : Nat → List Nat) : Prop where
  first : ∀ k < l.first.size, l.first[k]? = some (nodes k).head?
  length : ∀ k < l.first.size, l.length[k]? = some (nodes k).length
  linked : ∀ k, Linked l.prev l.next none (nodes k) none
  nodup : ∀ k, (nodes k).Nodup
  mem_iff : ∀ k n, n ∈ nodes k ↔
    ∃ b, l.owner[n]? = some (some b) ∧ l.place b (n % l.letters) = k

/-- Lists for so many blocks and states. -/
structure Sound (l : ActiveLists) (blocks states : Nat) : Prop where
  letters_pos : 0 < l.letters
  first_size : l.first.size = blocks * l.letters
  length_size : l.length.size = blocks * l.letters
  prev_size : l.prev.size = states * l.letters
  next_size : l.next.size = states * l.letters
  owner_size : l.owner.size = states * l.letters
  owner_lt : ∀ n b : Nat, l.owner[n]? = some (some b) → b < blocks
  chained : ∃ nodes, l.Chained nodes

theorem place_lt (hb : b < k) (hx : x < l.letters) : l.place b x < k * l.letters :=
  mul_add_lt hb hx

theorem place_mod (hx : x < l.letters) : l.place q x % l.letters = x := by
  rw [place, Nat.mul_comm, Nat.mul_add_mod, Nat.mod_eq_of_lt hx]

theorem place_div (hx : x < l.letters) : l.place q x / l.letters = q := by
  rw [place, Nat.mul_comm, Nat.mul_add_div (Nat.zero_lt_of_lt hx), Nat.div_eq_of_lt hx,
    Nat.add_zero]

theorem place_div_mod (l : ActiveLists) (n : Nat) :
    l.place (n / l.letters) (n % l.letters) = n := by
  rw [place, Nat.mul_comm]
  exact Nat.div_add_mod n l.letters

theorem place_eq_iff (hx : x < l.letters) (hy : m < l.letters) :
    l.place q x = l.place k m ↔ q = k ∧ x = m := mul_add_eq_iff hx hy

theorem sound_new (blocks states : Nat) {letters : Nat} (h : 0 < letters) :
    (ActiveLists.new blocks states letters).Sound blocks states where
  letters_pos := h
  first_size := by simp [ActiveLists.new]
  length_size := by simp [ActiveLists.new]
  prev_size := by simp [ActiveLists.new]
  next_size := by simp [ActiveLists.new]
  owner_size := by simp [ActiveLists.new]
  owner_lt n b hn := by simp [ActiveLists.new, Array.getElem?_replicate] at hn
  chained := by
    refine ⟨fun _ => [], fun k hk => ?_, fun k hk => ?_, fun k => trivial, fun k => List.nodup_nil,
      fun k n => ?_⟩
    · simpa [ActiveLists.new, Array.getElem?_replicate] using hk
    · simpa [ActiveLists.new, Array.getElem?_replicate] using hk
    · simp [ActiveLists.new, Array.getElem?_replicate]

/-- No node is in two lists. -/
theorem Chained.eq_of_mem (h : l.Chained nodes) (hm : n ∈ nodes k) (hm' : n ∈ nodes m) : k = m := by
  obtain ⟨b, hb, rfl⟩ := (h.mem_iff k n).1 hm
  obtain ⟨b', hb', rfl⟩ := (h.mem_iff m n).1 hm'
  rw [hb] at hb'
  cases hb'
  rfl

theorem Chained.not_mem (h : l.Chained nodes) (hn : l.owner[n]? = some none) : n ∉ nodes k := by
  intro hm
  obtain ⟨b, hb, -⟩ := (h.mem_iff k n).1 hm
  rw [hn] at hb
  cases hb

theorem Sound.lt_of_mem (h : l.Sound blocks states) (hc : l.Chained nodes) (hm : n ∈ nodes k) :
    n < states * l.letters := by
  obtain ⟨b, hb, -⟩ := (hc.mem_iff k n).1 hm
  rw [← h.owner_size]
  exact lt_size_of_getElem? hb

/-- Lists of which one is replaced. -/
theorem Chained.replace (hc : l.Chained nodes) {l' : ActiveLists} {list : Nat} {ns : List Nat}
    (hsize : l'.first.size = l.first.size)
    (hfirst : ∀ k, l'.first[k]? = if k = list then some ns.head? else l.first[k]?)
    (hlength : ∀ k, l'.length[k]? = if k = list then some ns.length else l.length[k]?)
    (hlinked : Linked l'.prev l'.next none ns none)
    (hother : ∀ k ≠ list, ∀ n ∈ nodes k, l'.prev[n]? = l.prev[n]? ∧ l'.next[n]? = l.next[n]?)
    (hnodup : ns.Nodup)
    (hmem : ∀ k n, n ∈ Function.update nodes list ns k ↔
      ∃ b, l'.owner[n]? = some (some b) ∧ l'.place b (n % l'.letters) = k) :
    l'.Chained (Function.update nodes list ns) := by
  refine ⟨fun k hk => ?_, fun k hk => ?_, fun k => ?_, fun k => ?_, hmem⟩
  · rw [hfirst]
    by_cases hkl : k = list
    · rw [if_pos hkl, hkl, Function.update_self]
    · rw [if_neg hkl, Function.update_of_ne hkl]
      exact hc.first k (hsize ▸ hk)
  · rw [hlength]
    by_cases hkl : k = list
    · rw [if_pos hkl, hkl, Function.update_self]
    · rw [if_neg hkl, Function.update_of_ne hkl]
      exact hc.length k (hsize ▸ hk)
  · by_cases hkl : k = list
    · rw [hkl, Function.update_self]
      exact hlinked
    · rw [Function.update_of_ne hkl]
      exact (hc.linked k).congr (fun n hn => (hother k hkl n hn).1)
        fun n hn => (hother k hkl n hn).2
  · by_cases hkl : k = list
    · rw [hkl, Function.update_self]
      exact hnodup
    · rw [Function.update_of_ne hkl]
      exact hc.nodup k

/-- Each table has room for what an edit writes. -/
theorem Sound.bounds (h : l.Sound blocks states) (hb : b < blocks) (hq : q < states)
    (hx : x < l.letters) : l.place b x < l.first.size ∧ l.place b x < l.length.size ∧
      l.place q x < l.prev.size ∧ l.place q x < l.next.size ∧ l.place q x < l.owner.size :=
  ⟨h.first_size ▸ place_lt hb hx, h.length_size ▸ place_lt hb hx, h.prev_size ▸ place_lt hq hx,
    h.next_size ▸ place_lt hq hx, h.owner_size ▸ place_lt hq hx⟩

/-- Owners after one of them has changed. -/
theorem Sound.owner_lt_write (h : l.Sound blocks states) (hlt : m < l.owner.size) {o : Option Nat}
    (ho : ∀ c ∈ o, c < blocks) (hn : (l.owner.setIfInBounds m o)[n]? = some (some b)) :
    b < blocks := by
  rw [getElem?_write hlt] at hn
  split at hn
  · exact ho b (Option.some.inj hn)
  · exact h.owner_lt n b hn

/-! ## Coming in front -/

/-- What is in the lists once a node has an owner. -/
theorem Chained.mem_push_iff (hc : l.Chained nodes) (hx : x < l.letters)
    (hlt : l.place q x < l.owner.size) (hnone : l.owner[l.place q x]? = some none) (k n : Nat) :
    n ∈ Function.update nodes (l.place b x) (l.place q x :: nodes (l.place b x)) k ↔
      ∃ c, (l.owner.setIfInBounds (l.place q x) (some b))[n]? = some (some c) ∧
        l.place c (n % l.letters) = k := by
  rw [getElem?_write hlt]
  by_cases hn : n = l.place q x
  · subst hn
    simp only [if_true, Option.some.injEq, exists_eq_left', place_mod hx]
    by_cases hk : k = l.place b x
    · simp [hk]
    · rw [Function.update_of_ne hk]
      exact ⟨fun hm => (hc.not_mem hnone hm).elim, fun he => (hk he.symm).elim⟩
  · rw [if_neg hn, ← hc.mem_iff k n]
    by_cases hk : k = l.place b x
    · rw [hk, Function.update_self, List.mem_cons]
      exact ⟨fun hm => hm.resolve_left hn, .inr⟩
    · rw [Function.update_of_ne hk]

/-- The lists with a node in front of a row. -/
def pushed (l : ActiveLists) (b q x : Nat) (ns : List Nat) : ActiveLists where
  letters := l.letters
  first := l.first.setIfInBounds (l.place b x) (some (l.place q x))
  length := l.length.setIfInBounds (l.place b x) (ns.length + 1)
  prev := ns.head?.elim (l.prev.setIfInBounds (l.place q x) none)
    ((l.prev.setIfInBounds (l.place q x) none).setIfInBounds · (some (l.place q x)))
  next := l.next.setIfInBounds (l.place q x) ns.head?
  owner := l.owner.setIfInBounds (l.place q x) (some b)

theorem Sound.add_eq (h : l.Sound blocks states) (hb : b < blocks) (hq : q < states)
    (hx : x < l.letters) (hfirst : l.first[l.place b x]? = some ns.head?)
    (hlength : l.length[l.place b x]? = some ns.length) (hhead : ∀ n ∈ ns.head?, n < l.prev.size) :
    l.add b q x = .ok (l.pushed b q x ns) := by
  obtain ⟨hfirstLt, -, hprev, hnext, howner⟩ := h.bounds hb hq hx
  have hhead' : ∀ n ∈ ns.head?, n < (l.prev.setIfInBounds (l.place q x) none).size := by
    rwa [Array.size_setIfInBounds]
  unfold ActiveLists.add
  simp only [read_eq_ok hfirst, write_eq_ok hprev, write_eq_ok hnext, writeSome_eq_ok hhead',
    write_eq_ok hfirstLt, change_eq_ok hlength, write_eq_ok howner, ok_bind]
  rfl

/-- A state that no block owns is put in front of a list. -/
theorem Sound.add (h : l.Sound blocks states) (hb : b < blocks) (hq : q < states)
    (hx : x < l.letters) (hnone : l.owner[l.place q x]? = some none) :
    Succeeds (l.add b q x) fun l' => l'.Sound blocks states ∧ l'.letters = l.letters ∧
      l'.owner = l.owner.setIfInBounds (l.place q x) (some b) := by
  obtain ⟨nodes, hc⟩ := h.chained
  obtain ⟨hfirst, hlength, hprev, hnext, howner⟩ := h.bounds hb hq hx
  have hfresh : ∀ k, ∀ n ∈ nodes k, n ≠ l.place q x := fun k n hn he =>
    hc.not_mem hnone (he ▸ hn)
  have hhead : ∀ n ∈ (nodes (l.place b x)).head?, n ∈ nodes (l.place b x) :=
    fun n hn => List.mem_of_head? hn
  have hheadLt : ∀ n ∈ (nodes (l.place b x)).head?, n < l.prev.size := fun n hn => by
    rw [h.prev_size]
    exact h.lt_of_mem hc (hhead n hn)
  have hpushed := pushed_write hprev hnext hheadLt fun he => hfresh _ _ (hhead _ he) rfl
  have hnodup : (l.place q x :: nodes (l.place b x)).Nodup :=
    List.nodup_cons.2 ⟨fun hm => hfresh _ _ hm rfl, hc.nodup _⟩
  refine .of_eq (h.add_eq hb hq hx (hc.first _ hfirst) (hc.length _ hfirst) hheadLt)
    ⟨?_, rfl, rfl⟩
  exact {
    letters_pos := h.letters_pos
    first_size := by simp [pushed, h.first_size]
    length_size := by simp [pushed, h.length_size]
    prev_size := by simp [pushed, h.prev_size]
    next_size := by simp [pushed, h.next_size]
    owner_size := by simp [pushed, h.owner_size]
    owner_lt := fun n c => h.owner_lt_write howner fun c hc => Option.some.inj hc ▸ hb
    chained := by
      refine ⟨Function.update nodes (l.place b x) (l.place q x :: nodes (l.place b x)),
        hc.replace Array.size_setIfInBounds (getElem?_write hfirst _) (getElem?_write hlength _)
          ((hc.linked _).push hpushed hnodup) (fun k hk n hn => ?_) hnodup
          (hc.mem_push_iff hx howner hnone)⟩
      have hnot : (nodes (l.place b x)).head? ≠ some n := fun he =>
        hk (hc.eq_of_mem hn (hhead n he))
      exact ⟨(hpushed.prev_other n (hfresh k n hn)).trans (if_neg hnot),
        hpushed.next_other n (hfresh k n hn)⟩ }

/-! ## Going away -/

/-- What is in the lists once a node has no owner any more. -/
theorem Chained.mem_unlink_iff (hc : l.Chained nodes) {list : Nat}
    (hlt : node < l.owner.size) (hsplit : nodes list = ns ++ node :: ms) (k n : Nat) :
    n ∈ Function.update nodes list (ns ++ ms) k ↔
      ∃ c, (l.owner.setIfInBounds node none)[n]? = some (some c) ∧
        l.place c (n % l.letters) = k := by
  have hmem : node ∈ nodes list := by
    rw [hsplit]
    exact List.mem_append_right _ List.mem_cons_self
  rw [getElem?_write hlt]
  by_cases hn : n = node
  · subst hn
    simp only [if_true, Option.some.injEq, reduceCtorEq, false_and, exists_false, iff_false]
    by_cases hk : k = list
    · rw [hk, Function.update_self]
      exact (List.nodup_middle.1 (hsplit ▸ hc.nodup list)).notMem
    · rw [Function.update_of_ne hk]
      exact fun hm => hk (hc.eq_of_mem hm hmem)
  · rw [if_neg hn, ← hc.mem_iff k n]
    by_cases hk : k = list
    · rw [hk, Function.update_self, hsplit]
      simp [hn]
    · rw [Function.update_of_ne hk]

/-- The first nodes of all lists once a node has gone from one of them. -/
theorem Chained.first_unlink (hc : l.Chained nodes) {list : Nat} (hlist : list < l.first.size)
    (hsplit : nodes list = ns ++ node :: ms) (k : Nat) :
    (if ns.getLast?.isSome then l.first else l.first.setIfInBounds list ms.head?)[k]? =
      if k = list then some (ns ++ ms).head? else l.first[k]? := by
  cases ns with
  | nil => exact getElem?_write hlist _ k
  | cons n ns =>
    -- the first node stays
    rw [List.getLast?_cons, Option.isSome_some, if_pos rfl]
    split
    · next hk => rw [hk, hc.first list hlist, hsplit]; rfl
    · rfl

/-- The lists without the node between two rows. -/
def unlinked (l : ActiveLists) (b q x : Nat) (ns ms : List Nat) : ActiveLists where
  letters := l.letters
  first := if ns.getLast?.isSome then l.first else l.first.setIfInBounds (l.place b x) ms.head?
  length := l.length.setIfInBounds (l.place b x) (ns ++ ms).length
  prev := (ms.head?.elim l.prev (l.prev.setIfInBounds · ns.getLast?)).setIfInBounds
    (l.place q x) none
  next := (ns.getLast?.elim l.next (l.next.setIfInBounds · ms.head?)).setIfInBounds
    (l.place q x) none
  owner := l.owner.setIfInBounds (l.place q x) none

theorem Sound.remove_eq (h : l.Sound blocks states) (hq : q < states) (hx : x < l.letters)
    (howned : l.owner[l.place q x]? = some (some b))
    (hlength : l.length[l.place b x]? = some ((ns ++ ms).length + 1))
    (hbefore : l.prev[l.place q x]? = some ns.getLast?)
    (hafter : l.next[l.place q x]? = some ms.head?) (hlast : ∀ n ∈ ns.getLast?, n < l.next.size)
    (hhead : ∀ n ∈ ms.head?, n < l.prev.size) :
    l.remove q x = .ok (l.unlinked b q x ns ms) := by
  obtain ⟨hfirst, -, hprev, hnext, howner⟩ := h.bounds (h.owner_lt _ b howned) hq hx
  have hprev' : l.place q x <
      (ms.head?.elim l.prev (l.prev.setIfInBounds · ns.getLast?)).size := by
    rwa [size_writeSome]
  have hnext' : l.place q x <
      (ns.getLast?.elim l.next (l.next.setIfInBounds · ms.head?)).size := by
    rwa [size_writeSome]
  unfold ActiveLists.remove
  simp only [read_eq_ok howned, read_eq_ok hbefore, read_eq_ok hafter, writeSome_eq_ok hlast,
    write_eq_ok hfirst, writeSome_eq_ok hhead, lower_eq_ok hlength, write_eq_ok howner,
    write_eq_ok hprev', write_eq_ok hnext', ok_bind]
  unfold unlinked
  split <;> rfl

/-- A state that a block owns is taken out of its list. -/
theorem Sound.remove (h : l.Sound blocks states) (hq : q < states) (hx : x < l.letters)
    (howned : l.owner[l.place q x]? = some (some b)) :
    Succeeds (l.remove q x) fun l' => l'.Sound blocks states ∧ l'.letters = l.letters ∧
      l'.owner = l.owner.setIfInBounds (l.place q x) none := by
  obtain ⟨nodes, hc⟩ := h.chained
  obtain ⟨hfirst, hlength, hprev, hnext, howner⟩ := h.bounds (h.owner_lt _ b howned) hq hx
  -- the node stands between two rows, and its neighbours are their ends
  have hmem := (hc.mem_iff (l.place b x) (l.place q x)).2 ⟨b, howned, by rw [place_mod hx]⟩
  obtain ⟨ns, ms, hsplit⟩ := List.append_of_mem hmem
  have hnodup := hc.nodup (l.place b x)
  have hlinked := hc.linked (l.place b x)
  have hcount := hc.length _ hfirst
  rw [hsplit] at hnodup hlinked hcount
  rw [List.length_append, List.length_cons, ← Nat.add_assoc, ← List.length_append] at hcount
  obtain ⟨-, hbefore, hafter, -⟩ := linked_append.1 hlinked
  rw [Option.or_none] at hbefore hafter
  have hlast : ∀ n ∈ ns.getLast?, n ∈ nodes (l.place b x) := fun n hn => by
    rw [hsplit]
    exact List.mem_append_left _ (List.mem_of_getLast? hn)
  have hhead : ∀ n ∈ ms.head?, n ∈ nodes (l.place b x) := fun n hn => by
    rw [hsplit]
    exact List.mem_append_right _ (List.mem_cons_of_mem _ (List.mem_of_head? hn))
  have hlastLt : ∀ n ∈ ns.getLast?, n < l.next.size := fun n hn => by
    rw [h.next_size]
    exact h.lt_of_mem hc (hlast n hn)
  have hheadLt : ∀ n ∈ ms.head?, n < l.prev.size := fun n hn => by
    rw [h.prev_size]
    exact h.lt_of_mem hc (hhead n hn)
  have hunlinked := unlinked_write hprev hnext hlastLt hheadLt
  refine .of_eq (h.remove_eq hq hx howned hcount hbefore hafter hlastLt hheadLt) ⟨?_, rfl, rfl⟩
  exact {
    letters_pos := h.letters_pos
    first_size := by
      unfold unlinked
      split <;> simp [h.first_size]
    length_size := by simp [unlinked, h.length_size]
    prev_size := by simp [unlinked, h.prev_size]
    next_size := by simp [unlinked, h.next_size]
    owner_size := by simp [unlinked, h.owner_size]
    owner_lt := fun n c => h.owner_lt_write howner fun c hc => (Option.not_mem_none c hc).elim
    chained := by
      refine ⟨Function.update nodes (l.place b x) (ns ++ ms), hc.replace ?_
        (hc.first_unlink hfirst hsplit) (getElem?_write hlength _)
        (hlinked.unlink hunlinked hnodup) (fun k hk n hn => ?_)
        (List.nodup_middle.1 hnodup).of_cons (hc.mem_unlink_iff howner hsplit)⟩
      · unfold unlinked
        split <;> simp
      · have hnot : n ∉ nodes (l.place b x) := fun hm => hk (hc.eq_of_mem hn hm)
        have hne : n ≠ l.place q x := fun he => hnot (he ▸ hmem)
        exact ⟨(hunlinked.prev_other n hne).trans (if_neg fun he => hnot (hhead n he)),
          (hunlinked.next_other n hne).trans (if_neg fun he => hnot (hlast n he))⟩ }

/-! ## What the lists hold -/

/-- The states that a block owns on a letter. -/
def owned (l : ActiveLists) (states b x : Nat) : List Nat :=
  (List.range states).filter fun q => l.owner[l.place q x]? = some (some b)

theorem mem_owned : q ∈ l.owned states b x ↔
    q < states ∧ l.owner[l.place q x]? = some (some b) := by
  simp [owned]

theorem nodup_owned : (l.owned states b x).Nodup := List.nodup_range.filter _

theorem Sound.perm_owned (h : l.Sound blocks states) (hc : l.Chained nodes) (hx : x < l.letters) :
    ((nodes (l.place b x)).map (· / l.letters)).Perm (l.owned states b x) := by
  have hnode : ∀ n ∈ nodes (l.place b x), l.owner[n]? = some (some b) ∧ n % l.letters = x := by
    intro n hn
    obtain ⟨c, hc, hp⟩ := (hc.mem_iff _ n).1 hn
    have hmod : n % l.letters = x := by
      rw [← place_mod (q := c) (Nat.mod_lt n h.letters_pos), hp, place_mod hx]
    rw [hmod] at hp
    rw [← ((place_eq_iff hx hx).1 hp).1]
    exact ⟨hc, hmod⟩
  refine (List.perm_ext_iff_of_nodup ?_ nodup_owned).2 fun q => ?_
  · refine List.Nodup.map_on (fun n hn m hm he => ?_) (hc.nodup _)
    rw [← place_div_mod l n, ← place_div_mod l m, he, (hnode n hn).2, (hnode m hm).2]
  · rw [List.mem_map, mem_owned]
    constructor
    · rintro ⟨n, hn, rfl⟩
      have hplace : l.place (n / l.letters) x = n := by
        rw [← (hnode n hn).2, place_div_mod]
      rw [hplace]
      exact ⟨Nat.div_lt_of_lt_mul (Nat.mul_comm _ _ ▸ h.lt_of_mem hc hn), (hnode n hn).1⟩
    · rintro ⟨-, hq⟩
      exact ⟨l.place q x, (hc.mem_iff _ _).2 ⟨b, hq, by rw [place_mod hx]⟩, place_div hx⟩

theorem Sound.lengthAt (h : l.Sound blocks states) (hb : b < blocks) (hx : x < l.letters) :
    l.lengthAt b x = .ok (l.owned states b x).length := by
  obtain ⟨nodes, hc⟩ := h.chained
  have hlist : l.place b x < l.first.size := h.first_size ▸ place_lt hb hx
  rw [ActiveLists.lengthAt, read_eq_ok (hc.length _ hlist), ← (h.perm_owned hc hx).length_eq,
    List.length_map]

/-- A row of nodes is walked to its end. -/
theorem walk_eq (h : Linked l.prev l.next before ns none) {fuel : Nat} (hf : ns.length ≤ fuel) :
    l.walk fuel ns.head? = .ok (ns.map (· / l.letters)) := by
  induction ns generalizing before fuel with
  | nil => cases fuel <;> rfl
  | cons n ns ih =>
    obtain ⟨-, hnext, hrest⟩ := h
    rw [Option.or_none] at hnext
    obtain ⟨fuel, rfl⟩ := Nat.exists_eq_succ_of_ne_zero (Nat.ne_of_gt (Nat.lt_of_lt_of_le
      (Nat.succ_pos _) hf))
    rw [List.head?_cons, walk, read_eq_ok hnext, ok_bind, ih hrest (Nat.le_of_succ_le_succ hf)]
    rfl

theorem Sound.members (h : l.Sound blocks states) (hb : b < blocks) (hx : x < l.letters) :
    Succeeds (l.members b x) fun qs => ∀ q, q ∈ qs ↔ q ∈ l.owned states b x := by
  obtain ⟨nodes, hc⟩ := h.chained
  have hlist : l.place b x < l.first.size := h.first_size ▸ place_lt hb hx
  -- a list has no more nodes than there are
  have hlength : (nodes (l.place b x)).length ≤ l.next.size := by
    have hsub : (nodes (l.place b x)) ⊆ List.range (states * l.letters) := fun n hn =>
      List.mem_range.2 (h.lt_of_mem hc hn)
    have hle := ((hc.nodup _).subperm hsub).length_le
    rwa [List.length_range, ← h.next_size] at hle
  refine .of_eq (x := (nodes (l.place b x)).map (· / l.letters)) ?_ fun q =>
    (h.perm_owned hc hx).mem_iff
  rw [ActiveLists.members, read_eq_ok (hc.first _ hlist), ok_bind]
  exact walk_eq (hc.linked _) hlength

end RegLang.ActiveLists
