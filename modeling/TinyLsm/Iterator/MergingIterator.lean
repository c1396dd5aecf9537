import TinyLsm.Iterator.InternalIterator
import Mathlib.Data.List.Perm.Lattice
import Mathlib.Data.List.Sort

/-!
# MergingIterator

`MergingIterator` of `iterator/internal_iterator.cpp`. The binary heap of input indices is a list
here: `pop_heap` takes an index whose entry no other entry precedes. Ties are duplicates, which
`SelectCurrent` rejects whichever of them is taken.
-/

namespace TinyLsm

open InternalIterator

/-- `MergingIterator`; `previous` is `previous_key_` with `previous_sequence_` when
`has_previous_`. -/
structure MergingIterator (ι : Type) where
  inputs : List ι
  heap : List ℕ
  winner : Option ℕ
  previous : Option (Bytes × ℕ)
  status : Status

namespace MergingIterator

variable {ι : Type} [InternalIterator ι]

/-- The entry input `i` stands on. -/
def entryAt (inputs : List ι) (i : ℕ) : Option InternalEntry :=
  inputs[i]?.bind InternalIterator.entry?

/-- `InternalLess` on the entries of two inputs (`HeapCompare`). -/
def precedes : Option InternalEntry → Option InternalEntry → Bool
  | some a, some b => decide (InternalLess a b)
  | _, _ => false

/-- The index `pop_heap` takes. -/
def least (inputs : List ι) : List ℕ → Option ℕ
  | [] => none
  | i :: rest =>
    match least inputs rest with
    | none => some i
    | some j => if precedes (entryAt inputs j) (entryAt inputs i) then some j else some i

/-- `MergingIterator::SetError`. -/
def setError (m : MergingIterator ι) (s : Status) : Status × MergingIterator ι :=
  (s, { m with status := s, heap := [], winner := none })

/-- `MergingIterator::SelectCurrent`. -/
def selectCurrent (m : MergingIterator ι) : Status × MergingIterator ι :=
  match least m.inputs m.heap with
  | none => (.okay, m)
  | some i =>
    let heap := m.heap.erase i
    match entryAt m.inputs i with
    | none => (.okay, { m with heap := heap, winner := some i })
    | some selected =>
      if ∃ j ∈ heap, ∃ other ∈ entryAt m.inputs j,
          other.userKey = selected.userKey ∧ other.sequence = selected.sequence then
        m.setError (.corruption "duplicate user key and sequence")
      else if m.previous = some (selected.userKey, selected.sequence) then
        m.setError (.corruption "duplicate user key and sequence")
      else
        (.okay, { m with
          heap := heap
          winner := some i
          previous := some (selected.userKey, selected.sequence) })

/-- The seek of every input, in order, up to the first failure. -/
def seekInputs (target : Bytes) : List ι → Result (List ι)
  | [] => .ok []
  | it :: rest =>
    match moved (InternalIterator.seek it target) with
    | .error s => .error s
    | .ok it =>
      match seekInputs target rest with
      | .error s => .error s
      | .ok rest => .ok (it :: rest)

/-- The indices of the valid inputs. -/
def validInputs (inputs : List ι) : List ℕ :=
  (List.range inputs.length).filter fun i => (entryAt inputs i).isSome

/-- `MergingIterator::Seek`. -/
def seek (m : MergingIterator ι) (target : Bytes) : Status × MergingIterator ι :=
  if ¬ m.status.ok then (m.status, m)
  else
    match seekInputs target m.inputs with
    | .error s => m.setError s
    | .ok inputs => selectCurrent ⟨inputs, validInputs inputs, none, none, m.status⟩

/-- `MergingIterator::Next`. -/
def next (m : MergingIterator ι) : Status × MergingIterator ι :=
  if ¬ m.status.ok then (m.status, m)
  else
    match m.winner.bind fun i => m.inputs[i]?.map fun it => (i, it) with
    | none => (.okay, m)
    | some (prior, it) =>
      match moved (InternalIterator.next it) with
      | .error s => m.setError s
      | .ok it =>
        selectCurrent { m with
          inputs := m.inputs.set prior it
          heap := if (InternalIterator.entry? it).isSome then m.heap ++ [prior] else m.heap
          winner := none }

/-- `MergingIterator::Valid` and `entry`. -/
def entry? (m : MergingIterator ι) : Option InternalEntry :=
  if m.status.ok then m.winner.bind (entryAt m.inputs) else none

instance : InternalIterator (MergingIterator ι) where
  entry? := entry?
  seek := seek
  next := next
  status := MergingIterator.status
  remaining m := (m.inputs.map remaining).sum

end MergingIterator

/-- `NewMergingIterator`. -/
def newMergingIterator {ι : Type} [InternalIterator ι] (inputs : List ι) :
    Result (MergingIterator ι) :=
  let (status, m) := MergingIterator.seek ⟨inputs, [], none, none, .okay⟩ []
  if ¬ status.ok then .error status else .ok m

namespace MergingIterator

variable {ι : Type} [InternalIterator ι]

/-! ## Lists of inputs and what they still yield -/

theorem forall₂_getElem? {α β : Type} {R : α → β → Prop} {as : List α} {bs : List β}
    (h : List.Forall₂ R as bs) {i : ℕ} {a : α} (ha : as[i]? = some a) :
    ∃ b, bs[i]? = some b ∧ R a b := by
  induction h generalizing i with
  | nil => simp at ha
  | cons hab _ ih =>
    cases i with
    | zero =>
      obtain rfl := Option.some.inj ha
      exact ⟨_, rfl, hab⟩
    | succ i => exact ih ha

theorem forall₂_set {α β : Type} {R : α → β → Prop} {as : List α} {bs : List β}
    (h : List.Forall₂ R as bs) {a : α} {b : β} (hab : R a b) (i : ℕ) :
    List.Forall₂ R (as.set i a) (bs.set i b) := by
  induction h generalizing i with
  | nil => exact .nil
  | cons hcd hrest ih =>
    cases i with
    | zero => exact .cons hab hrest
    | succ i => exact .cons hcd (ih i)

theorem flatten_set_perm {α : Type} {rests : List (List α)} {i : ℕ} {a : α} {tail : List α}
    (h : rests[i]? = some (a :: tail)) :
    List.Perm rests.flatten (a :: (rests.set i tail).flatten) := by
  induction rests generalizing i with
  | nil => simp at h
  | cons rest rests ih =>
    cases i with
    | zero =>
      obtain rfl := Option.some.inj h
      simp
    | succ i =>
      simp only [List.set_cons_succ, List.flatten_cons]
      exact ((ih h).append_left rest).trans List.perm_middle

/-- What each input still yields. -/
def Inputs (inputs : List ι) (rests : List (List InternalEntry)) : Prop :=
  List.Forall₂ Yields inputs rests

theorem Inputs.entryAt {inputs : List ι} {rests : List (List InternalEntry)}
    (h : Inputs inputs rests) {i : ℕ} {e : InternalEntry} (he : entryAt inputs i = some e) :
    ∃ it tail, inputs[i]? = some it ∧ rests[i]? = some (e :: tail) ∧ Yields it (e :: tail) := by
  obtain ⟨it, hit, hentry⟩ := Option.bind_eq_some_iff.mp he
  obtain ⟨rest, hrest, hy⟩ := forall₂_getElem? h hit
  rw [hy.entry?] at hentry
  cases rest with
  | nil => cases hentry
  | cons a tail =>
    obtain rfl := Option.some.inj hentry
    exact ⟨it, tail, hit, hrest, hy⟩

theorem Inputs.exists_entryAt {inputs : List ι} {rests : List (List InternalEntry)}
    (h : Inputs inputs rests) (hord : ∀ rest ∈ rests, Ordered rest) {e : InternalEntry}
    (he : e ∈ rests.flatten) :
    ∃ i a, MergingIterator.entryAt inputs i = some a ∧ a ∈ rests.flatten ∧
      (a = e ∨ InternalLess a e) := by
  obtain ⟨rest, hrest, hmem⟩ := List.mem_flatten.mp he
  obtain ⟨i, hi⟩ := List.mem_iff_getElem?.mp hrest
  obtain ⟨it, hit, hy⟩ := forall₂_getElem? (R := fun rest it => Yields it rest) h.flip hi
  cases hcase : rest with
  | nil => rw [hcase] at hmem; cases hmem
  | cons a tail =>
    rw [hcase] at hy hmem
    refine ⟨i, a, ?_, ?_, ?_⟩
    · rw [MergingIterator.entryAt, hit]
      exact hy.entry?
    · exact List.mem_flatten_of_mem hrest (hcase ▸ List.mem_cons_self)
    · rcases List.mem_cons.mp hmem with rfl | htail
      · exact .inl rfl
      · have := hord rest hrest
        rw [hcase] at this
        exact .inr ((List.pairwise_cons.mp this).1 e htail)

/-! ## The selected input -/

theorem least_mem {inputs : List ι} {heap : List ℕ} {i : ℕ} (h : least inputs heap = some i) :
    i ∈ heap := by
  induction heap generalizing i with
  | nil => cases h
  | cons j rest ih =>
    simp only [least] at h
    cases hrest : least inputs rest with
    | none =>
      rw [hrest] at h
      obtain rfl := Option.some.inj h
      exact List.mem_cons_self
    | some k =>
      rw [hrest] at h
      simp only at h
      split at h
      · obtain rfl := Option.some.inj h
        exact List.mem_cons_of_mem _ (ih hrest)
      · obtain rfl := Option.some.inj h
        exact List.mem_cons_self

theorem least_eq_none {inputs : List ι} {heap : List ℕ} (h : least inputs heap = none) :
    heap = [] := by
  cases heap with
  | nil => rfl
  | cons i rest =>
    simp only [least] at h
    split at h
    · cases h
    · split at h <;> cases h

/-- No entry of the heap precedes the popped one. -/
theorem least_le {inputs : List ι} {heap : List ℕ} {i j : ℕ} {a b : InternalEntry}
    (h : least inputs heap = some i) (hj : j ∈ heap) (ha : entryAt inputs i = some a)
    (hb : entryAt inputs j = some b) (hall : ∀ k ∈ heap, (entryAt inputs k).isSome) :
    ¬ InternalLess b a := by
  induction heap generalizing i j a b with
  | nil => cases hj
  | cons k rest ih =>
    simp only [least] at h
    cases hrest : least inputs rest with
    | none =>
      rw [hrest] at h
      obtain rfl := Option.some.inj h
      rw [least_eq_none hrest, List.mem_singleton] at hj
      subst hj
      rw [ha] at hb
      obtain rfl := Option.some.inj hb
      exact InternalLess.irrefl _
    | some l =>
      rw [hrest] at h
      simp only at h
      obtain ⟨el, hel⟩ := Option.isSome_iff_exists.mp
        (hall l (List.mem_cons_of_mem _ (least_mem hrest)))
      obtain ⟨ek, hek⟩ := Option.isSome_iff_exists.mp (hall k List.mem_cons_self)
      have hall' : ∀ k ∈ rest, (entryAt inputs k).isSome :=
        fun k hk => hall k (List.mem_cons_of_mem _ hk)
      rw [hel, hek] at h
      simp only [precedes, decide_eq_true_eq] at h
      split at h
      · -- the popped index of the rest precedes the front
        rename_i hlt
        obtain rfl := Option.some.inj h
        rw [hel] at ha
        obtain rfl := Option.some.inj ha
        rcases List.mem_cons.mp hj with rfl | hj
        · rw [hek] at hb
          obtain rfl := Option.some.inj hb
          exact hlt.asymm
        · exact ih hrest hj hel hb hall'
      · rename_i hnlt
        obtain rfl := Option.some.inj h
        rw [hek] at ha
        obtain rfl := Option.some.inj ha
        rcases List.mem_cons.mp hj with rfl | hj
        · rw [hek] at hb
          obtain rfl := Option.some.inj hb
          exact InternalLess.irrefl _
        · intro hba
          have hbl := ih hrest hj hel hb hall'
          -- `b` precedes the front, which the rest's least does not
          by_cases hsame : b.userKey = el.userKey ∧ b.sequence = el.sequence
          · exact hnlt (by
              rcases hba with hlt | ⟨hk, hs⟩
              · exact .inl (hsame.1 ▸ hlt)
              · exact .inr ⟨hsame.1 ▸ hk, hsame.2 ▸ hs⟩)
          · rcases InternalLess.total_of_ne hsame with hlt | hlt
            · exact hbl hlt
            · exact hnlt (hlt.trans hba)

/-- The state `SelectCurrent` is called in: the heap holds every valid input, and the entry before
was none of those still to come. -/
structure Pending (m : MergingIterator ι) (rests : List (List InternalEntry)) : Prop where
  status_ok : m.status.ok = true
  winner_none : m.winner = none
  inputs : Inputs m.inputs rests
  heap_iff : ∀ i, i ∈ m.heap ↔ (entryAt m.inputs i).isSome
  heap_nodup : m.heap.Nodup
  previous : ∀ e ∈ rests.flatten, m.previous ≠ some (e.userKey, e.sequence)

/-- The state between operations: the winner stands on the first of all remaining entries. -/
structure Selected (m : MergingIterator ι) (rests : List (List InternalEntry)) : Prop where
  status_ok : m.status.ok = true
  inputs : Inputs m.inputs rests
  heap_iff : ∀ i, (i ∈ m.heap ∨ m.winner = some i) ↔ (entryAt m.inputs i).isSome
  heap_nodup : m.heap.Nodup
  heap_nil : m.winner = none → m.heap = []
  winner : ∀ i, m.winner = some i → i ∉ m.heap ∧ ∃ a, entryAt m.inputs i = some a ∧
    m.previous = some (a.userKey, a.sequence) ∧ ∀ b ∈ rests.flatten, b = a ∨ InternalLess a b

variable {m : MergingIterator ι} {rests : List (List InternalEntry)} {es : List InternalEntry}

theorem Pending.selectCurrent (h : Pending m rests) (hord : ∀ rest ∈ rests, Ordered rest)
    (hes : Ordered es) (hperm : List.Perm es rests.flatten) (hnodup : rests.flatten.Nodup) :
    ∃ m', moved m.selectCurrent = .ok m' ∧ Selected m' rests ∧ m'.inputs = m.inputs := by
  have hok : ∀ m' : MergingIterator ι, m'.status.ok = true → moved (Status.okay, m') = .ok m' :=
    fun m' hm' => by
      have : ((InternalIterator.status m').ok) = true := hm'
      simp [moved, this]
  unfold MergingIterator.selectCurrent
  cases hleast : least m.inputs m.heap with
  | none =>
    have hnil := least_eq_none hleast
    refine ⟨m, hok m h.status_ok, ⟨h.status_ok, h.inputs, fun i => ?_, h.heap_nodup, fun _ => hnil,
      fun i hi => ?_⟩, rfl⟩
    · rw [h.winner_none, ← h.heap_iff i]
      simp
    · rw [h.winner_none] at hi
      cases hi
  | some i =>
    have hi := least_mem hleast
    have hall : ∀ k ∈ m.heap, (entryAt m.inputs k).isSome := fun k hk => (h.heap_iff k).mp hk
    obtain ⟨a, ha⟩ := Option.isSome_iff_exists.mp (hall i hi)
    obtain ⟨it, tail, hit, hrest, -⟩ := h.inputs.entryAt ha
    have hamem : a ∈ rests.flatten :=
      List.mem_flatten_of_mem (List.mem_of_getElem? hrest) List.mem_cons_self
    -- no other remaining entry comes before the popped one
    have hfirst : ∀ b ∈ rests.flatten, b = a ∨ InternalLess a b := by
      intro b hb
      obtain ⟨j, c, hc, hcmem, hcb⟩ := h.inputs.exists_entryAt hord hb
      have hnlt := least_le hleast ((h.heap_iff j).mpr (by rw [hc]; rfl)) ha hc hall
      have hca : c = a ∨ InternalLess a c := by
        by_cases hsame : a.userKey = c.userKey ∧ a.sequence = c.sequence
        · exact .inl (hes.eq_of_same (hperm.mem_iff.mpr hamem) (hperm.mem_iff.mpr hcmem)
            hsame.1 hsame.2).symm
        · exact .inr ((InternalLess.total_of_ne hsame).resolve_right hnlt)
      rcases hcb with rfl | hcb
      · exact hca
      · rcases hca with rfl | hca
        · exact .inr hcb
        · exact .inr (hca.trans hcb)
    simp only [ha]
    rw [if_neg, if_neg (h.previous a hamem)]
    · refine ⟨_, hok _ h.status_ok, ⟨h.status_ok, h.inputs, fun j => ?_, h.heap_nodup.erase i,
        by simp, fun j hj => ?_⟩, rfl⟩
      · rw [← h.heap_iff j, h.heap_nodup.mem_erase_iff]
        constructor
        · rintro (⟨-, hj⟩ | hj)
          · exact hj
          · obtain rfl := Option.some.inj hj
            exact hi
        · intro hj
          by_cases hji : j = i
          · exact .inr (hji ▸ rfl)
          · exact .inl ⟨hji, hj⟩
      · obtain rfl := Option.some.inj hj
        refine ⟨fun hmem => ((h.heap_nodup.mem_erase_iff).mp hmem).1 rfl, a, ha, rfl, hfirst⟩
    · rintro ⟨j, hj, b, hb, hk, hs⟩
      obtain ⟨hji, hj⟩ := h.heap_nodup.mem_erase_iff.mp hj
      obtain ⟨itb, tailb, -, hrestb, -⟩ := h.inputs.entryAt hb
      have hbmem : b ∈ rests.flatten :=
        List.mem_flatten_of_mem (List.mem_of_getElem? hrestb) List.mem_cons_self
      obtain rfl : b = a := hes.eq_of_same (hperm.mem_iff.mpr hbmem)
        (hperm.mem_iff.mpr hamem) hk hs
      -- one entry cannot stand at the front of two inputs
      have hset := flatten_set_perm hrest
      have hother : (rests.set i tail)[j]? = some (b :: tailb) := by
        rw [List.getElem?_set_ne (Ne.symm hji)]
        exact hrestb
      have hmem : b ∈ (rests.set i tail).flatten :=
        List.mem_flatten_of_mem (List.mem_of_getElem? hother) List.mem_cons_self
      exact (List.nodup_cons.mp (hset.nodup_iff.mp hnodup)).1 hmem

theorem sum_remaining_le {inputs : List ι} (h : Inputs inputs rests) :
    rests.flatten.length ≤ (inputs.map remaining).sum := by
  induction h with
  | nil => exact Nat.zero_le _
  | cons hy _ ih =>
    rw [List.flatten_cons, List.length_append, List.map_cons, List.sum_cons]
    exact Nat.add_le_add hy.length_le ih

/-- A merging iterator over ordered inputs yields all their entries in order. -/
theorem Selected.yields (h : Selected m rests) (hord : ∀ rest ∈ rests, Ordered rest)
    (hes : Ordered es) (hperm : List.Perm es rests.flatten) : Yields m es := by
  induction es generalizing m rests with
  | nil =>
    refine ⟨?_, h.status_ok⟩
    have hw : m.winner = none := by
      by_contra hne
      obtain ⟨i, hi⟩ := Option.ne_none_iff_exists'.mp hne
      obtain ⟨-, a, ha, -⟩ := h.winner i hi
      obtain ⟨it, tail, -, hrest, -⟩ := h.inputs.entryAt ha
      have := hperm.mem_iff.mpr
        (List.mem_flatten_of_mem (List.mem_of_getElem? hrest) List.mem_cons_self)
      cases this
    change MergingIterator.entry? m = none
    rw [MergingIterator.entry?, hw]
    split <;> rfl
  | cons e es ih =>
    have hnodup : rests.flatten.Nodup := hperm.nodup_iff.mp hes.nodup
    have hemem : e ∈ rests.flatten := hperm.mem_iff.mp List.mem_cons_self
    obtain ⟨j, c, hc, -, -⟩ := h.inputs.exists_entryAt hord hemem
    obtain ⟨i, hi⟩ : ∃ i, m.winner = some i := by
      rcases (h.heap_iff j).mpr (by rw [hc]; rfl) with hj | hj
      · cases hw : m.winner with
        | none => rw [h.heap_nil hw] at hj; cases hj
        | some i => exact ⟨i, rfl⟩
      · exact ⟨j, hj⟩
    obtain ⟨hiheap, a, ha, hprev, hfirst⟩ := h.winner i hi
    obtain ⟨it, tail, hit, hrest, hy⟩ := h.inputs.entryAt ha
    have hamem : a ∈ rests.flatten :=
      List.mem_flatten_of_mem (List.mem_of_getElem? hrest) List.mem_cons_self
    obtain rfl : a = e := by
      rcases hfirst e hemem with heq | hlt
      · exact heq.symm
      · rcases List.mem_cons.mp (hperm.mem_iff.mpr hamem) with heq | hmem
        · exact heq
        · exact absurd ((List.pairwise_cons.mp hes).1 a hmem) hlt.asymm
    obtain ⟨-, -, -, it', hmoved, hy'⟩ := hy
    have hperm' : List.Perm es (rests.set i tail).flatten :=
      (hperm.trans (flatten_set_perm hrest)).cons_inv
    have hord' : ∀ rest ∈ rests.set i tail, Ordered rest := by
      intro rest hmem
      rcases List.mem_or_eq_of_mem_set hmem with hmem | rfl
      · exact hord rest hmem
      · exact (List.pairwise_cons.mp (hord _ (List.mem_of_getElem? hrest))).2
    have hlt : i < m.inputs.length := (List.getElem?_eq_some_iff.mp hit).1
    have hentry : ∀ j, entryAt (m.inputs.set i it') j =
        if j = i then InternalIterator.entry? it' else entryAt m.inputs j := by
      intro j
      rw [entryAt, List.getElem?_set]
      by_cases hji : j = i
      · subst hji
        simp [hlt]
      · rw [if_neg (Ne.symm hji), if_neg hji]
        rfl
    have hpending : Pending { m with
        inputs := m.inputs.set i it'
        heap := if (InternalIterator.entry? it').isSome then m.heap ++ [i] else m.heap
        winner := none } (rests.set i tail) := by
      refine ⟨h.status_ok, rfl, forall₂_set h.inputs hy' i, fun j => ?_, ?_, fun b hb => ?_⟩
      · simp only [hentry]
        by_cases hji : j = i
        · subst hji
          rw [if_pos rfl]
          split
          · rename_i hsome
            simp [hsome]
          · rename_i hnone
            simp [hnone, hiheap]
        · rw [if_neg hji, ← h.heap_iff j]
          have hwj : m.winner ≠ some j := fun hw => hji (Option.some.inj (hw.symm.trans hi))
          split <;> simp [hji, hwj]
      · split
        · exact List.nodup_append.mpr ⟨h.heap_nodup, by simp,
            fun x hx y hy hxy => hiheap ((List.mem_singleton.mp hy) ▸ hxy ▸ hx)⟩
        · exact h.heap_nodup
      · simp only [hprev, ne_eq, Option.some.injEq, Prod.mk.injEq, not_and]
        intro hk hs
        have := ((List.pairwise_cons.mp hes).1 b (hperm'.mem_iff.mpr hb)).sequence_lt hk
        omega
    have hes' : Ordered es := (List.pairwise_cons.mp hes).2
    obtain ⟨m', hm', hsel, -⟩ := hpending.selectCurrent hord' hes' hperm'
      ((List.nodup_cons.mp ((flatten_set_perm hrest).nodup_iff.mp hnodup)).2)
    refine ⟨?_, h.status_ok, ?_, m', ?_, ih hsel hord' hes' hperm'⟩
    · change MergingIterator.entry? m = some a
      rw [MergingIterator.entry?, if_pos h.status_ok, hi]
      exact ha
    · have := sum_remaining_le h.inputs
      rw [← hperm.length_eq] at this
      exact this
    · change moved (MergingIterator.next m) = .ok m'
      rw [MergingIterator.next, if_neg (by simp [h.status_ok]), hi]
      simp only [Option.bind_some, hit, Option.map_some, hmoved]
      exact hm'

theorem seekInputs_eq_ok {inputs : List ι} {target : Bytes}
    (h : List.Forall₂ (fun it es => SeekYields it target es) inputs rests) :
    ∃ inputs', seekInputs target inputs = .ok inputs' ∧ Inputs inputs' rests := by
  induction h with
  | nil => exact ⟨[], rfl, .nil⟩
  | cons hseek _ ih =>
    obtain ⟨it', hmoved, hy⟩ := hseek
    obtain ⟨inputs', hinputs, hall⟩ := ih
    exact ⟨it' :: inputs', by simp only [seekInputs, hmoved, hinputs], .cons hy hall⟩

theorem entryAt_isSome_lt {inputs : List ι} {i : ℕ} (h : (entryAt inputs i).isSome) :
    i < inputs.length := by
  obtain ⟨e, he⟩ := Option.isSome_iff_exists.mp h
  obtain ⟨it, hit, -⟩ := Option.bind_eq_some_iff.mp he
  exact (List.getElem?_eq_some_iff.mp hit).1

theorem seekInputs_error {inputs : List ι} {target : Bytes} {s : Status}
    (h : seekInputs target inputs = .error s) : s.ok = false := by
  induction inputs with
  | nil => cases h
  | cons it inputs ih =>
    simp only [seekInputs] at h
    split at h
    · rename_i hmoved
      cases h
      exact moved_eq_error hmoved
    split at h
    · rename_i hrest
      cases h
      exact ih hrest
    · cases h

/-- Seeking inputs with pairwise different entries merges what they yield from the target on. -/
theorem seek_yields {target : Bytes} (hstatus : m.status.ok = true)
    (h : List.Forall₂ (fun it es => SeekYields it target es) m.inputs rests)
    (hord : ∀ rest ∈ rests, Ordered rest) (hes : Ordered es)
    (hperm : List.Perm es rests.flatten) :
    ∃ m', moved (m.seek target) = .ok m' ∧ Yields m' es := by
  obtain ⟨inputs', hseek, hinputs⟩ := seekInputs_eq_ok h
  have hnodup : rests.flatten.Nodup := hperm.nodup_iff.mp hes.nodup
  have hpending : Pending ⟨inputs', validInputs inputs', none, none, m.status⟩ rests := by
    refine ⟨hstatus, rfl, hinputs, fun i => ?_, ?_, fun _ _ h => by cases h⟩
    · simp only [validInputs, List.mem_filter, List.mem_range]
      exact ⟨fun h => h.2, fun h => ⟨entryAt_isSome_lt h, h⟩⟩
    · exact List.Nodup.filter _ List.nodup_range
  obtain ⟨m', hm', hsel, -⟩ := hpending.selectCurrent hord hes hperm hnodup
  refine ⟨m', ?_, hsel.yields hord hes hperm⟩
  rw [MergingIterator.seek, if_neg (by simp [hstatus]), hseek]
  exact hm'

/-! ## What moves keep -/

theorem status_selectCurrent (h : m.status.ok = true) (hok : m.selectCurrent.1.ok = true) :
    m.selectCurrent.2.status.ok = true := by
  unfold MergingIterator.selectCurrent at hok ⊢
  split
  · exact h
  · rename_i i hleast
    rw [hleast] at hok
    simp only at hok ⊢
    split
    · exact h
    · rename_i selected hselected
      simp only [hselected] at hok
      split
      · rename_i hdup
        rw [if_pos hdup] at hok
        cases hok
      · rename_i hdup
        rw [if_neg hdup] at hok
        split
        · rename_i hprevious
          rw [if_pos hprevious] at hok
          cases hok
        · exact h

@[simp] theorem inputs_selectCurrent (m : MergingIterator ι) :
    m.selectCurrent.2.inputs = m.inputs := by
  unfold MergingIterator.selectCurrent
  split
  · rfl
  · simp only
    split
    · rfl
    · split
      · rfl
      · split <;> rfl

section
variable {α : Type} {R : ι → α → Prop} {as : List α} {target : Bytes}
  (hseek : ∀ it it' a target, moved (InternalIterator.seek it target) = .ok it' → R it a → R it' a)
  (hnext : ∀ it it' a, moved (InternalIterator.next it) = .ok it' → R it a → R it' a)

include hseek in
theorem seekInputs_keeps {inputs inputs' : List ι} (h : seekInputs target inputs = .ok inputs')
    (hR : List.Forall₂ R inputs as) : List.Forall₂ R inputs' as := by
  induction hR generalizing inputs' with
  | nil =>
    cases h
    exact .nil
  | cons ha _ ih =>
    simp only [seekInputs] at h
    split at h
    · cases h
    rename_i it' hmoved
    split at h
    · cases h
    rename_i rest hrest
    cases h
    exact .cons (hseek _ _ _ _ hmoved ha) (ih hrest)

include hseek in
/-- A seek that succeeds keeps what the seeks of the inputs keep. -/
theorem seek_keeps (hok : (m.seek target).1.ok = true) (hR : List.Forall₂ R m.inputs as) :
    (m.seek target).2.status.ok = true ∧ List.Forall₂ R (m.seek target).2.inputs as := by
  unfold MergingIterator.seek at hok ⊢
  by_cases hstatus : m.status.ok = true
  · rw [if_neg (by simp [hstatus])] at hok ⊢
    cases hinputs : seekInputs target m.inputs with
    | error s =>
      rw [hinputs] at hok
      exact absurd hok (by simp [MergingIterator.setError, seekInputs_error hinputs])
    | ok inputs =>
      rw [hinputs] at hok
      refine ⟨status_selectCurrent hstatus hok, ?_⟩
      simpa using seekInputs_keeps hseek hinputs hR
  · rw [if_pos hstatus] at hok
    exact absurd hok hstatus

include hnext in
/-- So does a `Next`. -/
theorem next_keeps (hok : m.next.1.ok = true) (hR : List.Forall₂ R m.inputs as) :
    m.next.2.status.ok = true ∧ List.Forall₂ R m.next.2.inputs as := by
  unfold MergingIterator.next at hok ⊢
  by_cases hstatus : m.status.ok = true
  · rw [if_neg (by simp [hstatus])] at hok ⊢
    split
    · exact ⟨hstatus, hR⟩
    · rename_i prior it hwinner
      simp only [hwinner] at hok
      cases hmoved : moved (InternalIterator.next it) with
      | error s =>
        rw [hmoved] at hok
        exact absurd hok (by simp [MergingIterator.setError, moved_eq_error hmoved])
      | ok it' =>
        rw [hmoved] at hok
        refine ⟨status_selectCurrent hstatus hok, ?_⟩
        obtain ⟨i, -, hit⟩ := Option.bind_eq_some_iff.mp hwinner
        obtain ⟨it₀, hit₀, heq⟩ := Option.map_eq_some_iff.mp hit
        cases heq
        obtain ⟨a, ha, hRa⟩ := forall₂_getElem? hR hit₀
        rw [inputs_selectCurrent]
        have hset := forall₂_set hR (hnext _ _ _ hmoved hRa) prior
        obtain ⟨hlt, rfl⟩ := List.getElem?_eq_some_iff.mp ha
        rwa [List.set_getElem_self hlt] at hset
  · rw [if_pos hstatus] at hok
    exact absurd hok hstatus

end

end MergingIterator

/-- `NewMergingIterator` re-seeks its inputs to the empty key and merges what they yield from
there. -/
theorem newMergingIterator_yields {ι : Type} [InternalIterator ι] {inputs : List ι}
    {rests : List (List InternalEntry)} {es : List InternalEntry}
    (h : List.Forall₂ (fun it es => SeekYields it [] es) inputs rests)
    (hord : ∀ rest ∈ rests, Ordered rest) (hes : Ordered es)
    (hperm : List.Perm es rests.flatten) :
    ∃ m, newMergingIterator inputs = .ok m ∧ Yields m es := by
  obtain ⟨m, hm, hy⟩ := MergingIterator.seek_yields (m := ⟨inputs, [], none, none, .okay⟩)
    rfl h hord hes hperm
  refine ⟨m, ?_, hy⟩
  unfold moved at hm
  unfold newMergingIterator
  split at hm
  · cases hm
  · rename_i hok
    split at hm
    · cases hm
    · obtain rfl := Except.ok.inj hm
      simp only
      rw [if_neg hok]

/-- Versions that are pairwise distinct have one order. -/
theorem exists_ordered_perm {es : List InternalEntry}
    (h : es.Pairwise fun a b => ¬ (a.userKey = b.userKey ∧ a.sequence = b.sequence)) :
    ∃ out, Ordered out ∧ out.Perm es := by
  let le : InternalEntry → InternalEntry → Prop := fun a b => ¬ InternalLess b a
  have hdec : DecidableRel le := fun a b => inferInstanceAs (Decidable (¬ _))
  have htotal : Std.Total le :=
    ⟨fun a b => or_iff_not_imp_left.mpr fun hab => (not_not.mp hab).asymm⟩
  have htrans : IsTrans InternalEntry le := by
    refine ⟨fun a b c hab hbc hca => ?_⟩
    by_cases hsame : b.userKey = c.userKey ∧ b.sequence = c.sequence
    · apply hab
      rcases hca with hlt | ⟨hkey, hsequence⟩
      · exact .inl (by rwa [hsame.1])
      · exact .inr ⟨hsame.1.trans hkey, by omega⟩
    · exact hab (((InternalLess.total_of_ne hsame).resolve_right hbc).trans hca)
  refine ⟨es.insertionSort le, ?_, List.perm_insertionSort le es⟩
  have hsorted := List.pairwise_insertionSort le es
  have hdistinct := (List.perm_insertionSort le es).symm.pairwise h
    fun {a b} hab hba => hab ⟨hba.1.symm, hba.2.symm⟩
  exact (hsorted.and hdistinct).imp fun {a b} hab =>
    (InternalLess.total_of_ne hab.2).resolve_right hab.1

/-- Inputs without a common version are merged into all their entries. -/
theorem newMergingIterator_distinct {ι : Type} [InternalIterator ι] {inputs : List ι}
    {rests : List (List InternalEntry)}
    (h : List.Forall₂ (fun it es => SeekYields it [] es) inputs rests)
    (hord : ∀ rest ∈ rests, Ordered rest)
    (hdistinct : rests.flatten.Pairwise fun a b =>
      ¬ (a.userKey = b.userKey ∧ a.sequence = b.sequence)) :
    ∃ es m, Ordered es ∧ es.Perm rests.flatten ∧ newMergingIterator inputs = .ok m ∧ Yields m es := by
  obtain ⟨es, hes, hperm⟩ := exists_ordered_perm hdistinct
  obtain ⟨m, hm, hyields⟩ := newMergingIterator_yields h hord hes hperm
  exact ⟨es, m, hes, hperm, hm, hyields⟩

end TinyLsm
