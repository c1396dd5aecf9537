import TinyLsm.Db.Read
import TinyLsm.Db.Regions
import TinyLsm.Db.Schedule
import TinyLsm.Library.OrderedMap
import Mathlib.Algebra.Order.Group.Multiset
import Mathlib.Data.Multiset.Bind

/-!
# The snapshot registry

`SnapshotState` counts the snapshots that are held of each sequence of a database. A `Snapshot`
registers itself when it is made and leaves the registry when it is destroyed, or when another one is
moved into it. Here the registries of several databases run beside their handles, whose `snapshots` are
the sequences that the registry should hold.
-/

namespace TinyLsm

/-! ## SnapshotState -/

/-- `SnapshotState`: how many snapshots are held of each sequence, an ordered map. -/
structure SnapshotState where
  active : List (ℕ × ℕ)

namespace SnapshotState

/-- `ActiveCount`. -/
def activeCount (s : SnapshotState) : ℕ := (s.active.map Prod.snd).sum

/-- `TryRegister`. -/
def tryRegister (s : SnapshotState) (sequence maximum : ℕ) : SnapshotState × Bool :=
  if maximum ≠ 0 ∧ maximum ≤ s.activeCount then (s, false)
  else
    (⟨OrderedMap.set s.active sequence ((OrderedMap.find s.active sequence).getD 0 + 1)⟩, true)

/-- `Unregister`. -/
def unregister (s : SnapshotState) (sequence : ℕ) : SnapshotState :=
  match OrderedMap.find s.active sequence with
  | none => s
  | some count =>
    if count - 1 = 0 then ⟨OrderedMap.erase s.active sequence⟩
    else ⟨OrderedMap.set s.active sequence (count - 1)⟩

/-- `OldestOr`. -/
def oldestOr (s : SnapshotState) (fallback : ℕ) : ℕ :=
  match s.active with
  | [] => fallback
  | (sequence, _) :: _ => sequence

/-- The registry holds these sequences, each as often as it occurs. -/
structure Counts (s : SnapshotState) (held : Multiset ℕ) : Prop where
  sorted : OrderedMap.Sorted s.active
  find : ∀ sequence, OrderedMap.find s.active sequence =
    if held.count sequence = 0 then none else some (held.count sequence)

/-- The sequences of an ordered map, each as often as it is counted. -/
def elements (active : List (ℕ × ℕ)) : Multiset ℕ :=
  (active.map fun p => Multiset.replicate p.2 p.1).sum

theorem count_elements {active : List (ℕ × ℕ)} (h : OrderedMap.Sorted active) (sequence : ℕ) :
    (elements active).count sequence = (OrderedMap.find active sequence).getD 0 := by
  induction active with
  | nil => rfl
  | cons p active ih =>
    obtain ⟨a, n⟩ := p
    obtain ⟨hlt, h⟩ := List.pairwise_cons.mp h
    have hcons : elements ((a, n) :: active) = Multiset.replicate n a + elements active := by
      simp [elements]
    rw [hcons, Multiset.count_add, Multiset.count_replicate, ih h]
    simp only [OrderedMap.find]
    by_cases heq : a = sequence
    · subst heq
      have hnone : OrderedMap.find active a = none := by
        cases hf : OrderedMap.find active a with
        | none => rfl
        | some m => exact absurd (hlt _ (OrderedMap.find_mem hf)) (lt_irrefl a)
      simp [hnone]
    · simp [heq]

theorem card_elements (active : List (ℕ × ℕ)) :
    (elements active).card = (active.map Prod.snd).sum := by
  induction active with
  | nil => rfl
  | cons p active ih =>
    rw [elements] at ih ⊢
    rw [List.map_cons, List.sum_cons, Multiset.card_add, Multiset.card_replicate, ih, List.map_cons,
      List.sum_cons]

namespace Counts

variable {s : SnapshotState} {held : Multiset ℕ}

theorem empty : Counts ⟨[]⟩ 0 := ⟨.nil, fun _ => by simp⟩

theorem getD_find (h : s.Counts held) (sequence : ℕ) :
    (OrderedMap.find s.active sequence).getD 0 = held.count sequence := by
  rw [h.find]
  split
  · rename_i hzero
    exact hzero.symm
  · rfl

theorem elements_eq (h : s.Counts held) : elements s.active = held := by
  ext sequence
  rw [count_elements h.sorted, h.getD_find]

theorem activeCount (h : s.Counts held) : s.activeCount = held.card := by
  rw [← h.elements_eq, card_elements]
  rfl

theorem tryRegister (h : s.Counts held) (sequence maximum : ℕ) :
    (s.tryRegister sequence maximum).2 = decide (maximum = 0 ∨ held.card < maximum) ∧
      (s.tryRegister sequence maximum).1.Counts
        (if maximum = 0 ∨ held.card < maximum then sequence ::ₘ held else held) := by
  unfold SnapshotState.tryRegister
  rw [h.activeCount]
  by_cases hroom : maximum = 0 ∨ held.card < maximum
  · have hnot : ¬ (maximum ≠ 0 ∧ maximum ≤ held.card) := by
      rintro ⟨hne, hle⟩
      omega
    rw [if_neg hnot, if_pos hroom]
    refine ⟨(decide_eq_true hroom).symm, h.sorted.set _ _, fun other => ?_⟩
    rw [OrderedMap.find_set, h.getD_find, Multiset.count_cons, h.find]
    by_cases heq : sequence = other
    · subst heq
      simp
    · simp [heq, Ne.symm heq]
  · have hfull : maximum ≠ 0 ∧ maximum ≤ held.card := by
      rw [not_or, not_lt] at hroom
      exact hroom
    rw [if_pos hfull, if_neg hroom]
    exact ⟨(decide_eq_false hroom).symm, h⟩

theorem unregister (h : s.Counts held) (sequence : ℕ) :
    (s.unregister sequence).Counts (held.erase sequence) := by
  have hother : ∀ {other}, sequence ≠ other → (held.erase sequence).count other = held.count other :=
    fun hne => Multiset.count_erase_of_ne hne.symm _
  unfold SnapshotState.unregister
  rw [h.find]
  by_cases hzero : held.count sequence = 0
  · rw [if_pos hzero]
    rwa [Multiset.erase_of_notMem (Multiset.count_eq_zero.mp hzero)]
  rw [if_neg hzero]
  dsimp only
  split
  · rename_i hlast
    refine ⟨h.sorted.erase _, fun other => ?_⟩
    rw [OrderedMap.find_erase, h.find]
    by_cases heq : sequence = other
    · subst heq
      simp [hlast]
    · rw [if_neg heq, hother heq]
  · rename_i hmore
    refine ⟨h.sorted.set _ _, fun other => ?_⟩
    rw [OrderedMap.find_set, h.find]
    by_cases heq : sequence = other
    · subst heq
      simp [hmore]
    · rw [if_neg heq, hother heq]

/-- The first key is the least sequence. -/
theorem oldestOr {sequences : List ℕ} (h : s.Counts sequences) (fallback : ℕ) :
    s.oldestOr fallback = sequences.min?.getD fallback := by
  have hmem : ∀ sequence, sequence ∈ sequences ↔ ∃ count, (sequence, count) ∈ s.active := by
    intro sequence
    have hfind := h.find sequence
    rw [← Multiset.mem_coe, ← Multiset.count_ne_zero]
    constructor
    · intro hne
      rw [if_neg hne] at hfind
      exact ⟨_, OrderedMap.find_mem hfind⟩
    · rintro ⟨count, hmem⟩ hzero
      rw [if_pos hzero, h.sorted.find_eq_some_iff.mpr hmem] at hfind
      cases hfind
  unfold SnapshotState.oldestOr
  obtain ⟨active⟩ := s
  cases active with
  | nil =>
    have hnil : sequences = [] := List.eq_nil_iff_forall_not_mem.mpr fun sequence hin => by
      obtain ⟨count, hcount⟩ := (hmem sequence).mp hin
      cases hcount
    rw [hnil]
    rfl
  | cons first active =>
    obtain ⟨sequence, count⟩ := first
    obtain ⟨hlt, -⟩ := List.pairwise_cons.mp h.sorted
    have hmin : sequences.min? = some sequence := by
      refine List.min?_eq_some_iff.mpr ⟨(hmem sequence).mpr ⟨count, List.mem_cons_self⟩, ?_⟩
      intro other hother
      obtain ⟨n, hn⟩ := (hmem other).mp hother
      rcases List.mem_cons.mp hn with heq | hrest
      · exact (congrArg Prod.fst heq).ge
      · exact (hlt _ hrest).le
    rw [hmin]
    rfl

end Counts

end SnapshotState

/-! ## Snapshot -/

/-- An object of the class `Snapshot`; `R` names the registries. -/
structure SnapshotObject (R : Type*) where
  state : Option R
  sequence : ℕ
  registered : Bool

namespace SnapshotObject

variable {R : Type*} [DecidableEq R]

/-- A `Snapshot` that was moved from. -/
def moved : SnapshotObject R := ⟨none, 0, false⟩

/-- The `Snapshot` in a call of `Get` or `NewIterator` of a database. -/
def argument (x : SnapshotObject R) (r : R) : Snapshot := ⟨decide (x.state = some r), x.sequence⟩

/-- The sequence that the object keeps in a registry. -/
def held? (r : R) (x : SnapshotObject R) : Option ℕ :=
  if x.state = some r ∧ x.registered then some x.sequence else none

/-- The sequences that the objects keep in a registry. -/
def held (r : R) (objects : Multiset (SnapshotObject R)) : Multiset ℕ := objects.filterMap (held? r)

@[simp] theorem held_zero (r : R) : held r 0 = 0 := rfl

theorem held_cons (r : R) (x : SnapshotObject R) (objects : Multiset (SnapshotObject R)) :
    held r (x ::ₘ objects) = (held? r x).elim (held r objects) (· ::ₘ held r objects) := by
  cases hx : held? r x with
  | none => exact Multiset.filterMap_cons_none x objects hx
  | some sequence => exact Multiset.filterMap_cons_some (held? r) x objects hx

@[simp] theorem held_moved (r : R) (objects : Multiset (SnapshotObject R)) :
    held r (moved ::ₘ objects) = held r objects := by
  rw [held_cons]
  rfl

end SnapshotObject

/-- `DB::Impl::GetSnapshot` with its registry: a `Snapshot` that is not registered is destroyed. -/
def Handle.registerSnapshot (o : Options) (h : Handle) (s : SnapshotState) :
    SnapshotState × Result Snapshot :=
  if h.checkOpen.ok = false then (s, .error h.checkOpen)
  else
    match s.tryRegister (h.nextSequence - 1) o.maxActiveSnapshots with
    | (s, true) => (s, .ok ⟨true, h.nextSequence - 1⟩)
    | (s, false) => (s, .error (.resourceExhausted "active Snapshot limit is reached"))

/-- The registry gives the answer that the handle gives, and holds what the handle lists. -/
theorem SnapshotState.Counts.registerSnapshot {o : Options} {h : Handle} {s : SnapshotState}
    (hs : s.Counts h.snapshots) :
    (h.registerSnapshot o s).2 = (h.getSnapshot o).2 ∧
      (h.registerSnapshot o s).1.Counts (h.getSnapshot o).1.snapshots := by
  obtain ⟨hroom, hcounts⟩ := hs.tryRegister (h.nextSequence - 1) o.maxActiveSnapshots
  unfold Handle.registerSnapshot Handle.getSnapshot
  generalize s.tryRegister (h.nextSequence - 1) o.maxActiveSnapshots = result at hroom hcounts ⊢
  obtain ⟨s', registered⟩ := result
  split
  · exact ⟨rfl, hs⟩
  rw [Multiset.coe_card] at hroom hcounts
  by_cases hyes : o.maxActiveSnapshots = 0 ∨ h.snapshots.length < o.maxActiveSnapshots
  · obtain rfl : registered = true := hroom.trans (decide_eq_true hyes)
    rw [if_pos hyes] at hcounts
    rw [if_neg (by omega)]
    exact ⟨rfl, hcounts⟩
  · obtain rfl : registered = false := hroom.trans (decide_eq_false hyes)
    rw [if_neg hyes] at hcounts
    rw [if_pos (by omega)]
    exact ⟨rfl, hcounts⟩

theorem Handle.getSnapshot_ok {o : Options} {h : Handle} {snapshot : Snapshot}
    (hr : (h.getSnapshot o).2 = .ok snapshot) : h.checkOpen.ok = true ∧
      (o.maxActiveSnapshots = 0 ∨ h.snapshots.length < o.maxActiveSnapshots) ∧
      snapshot = ⟨true, h.nextSequence - 1⟩ ∧
      (h.getSnapshot o).1 = { h with snapshots := (h.nextSequence - 1) :: h.snapshots } := by
  unfold getSnapshot at hr ⊢
  split at hr
  · cases hr
  rename_i hopen
  split at hr
  · cases hr
  rename_i hroom
  rw [if_neg hopen, if_neg hroom]
  cases hr
  exact ⟨by simpa using hopen, by omega, rfl, rfl⟩

theorem Handle.getSnapshot_error {o : Options} {h : Handle} {status : Status}
    (hr : (h.getSnapshot o).2 = .error status) : (h.getSnapshot o).1 = h := by
  unfold getSnapshot at hr ⊢
  split at hr
  · rename_i hopen
    rw [if_pos hopen]
  rename_i hopen
  split at hr
  · rename_i hroom
    rw [if_neg hopen, if_pos hroom]
  · cases hr

/-! ## The snapshots of several databases -/

/-- The databases of a process with their registries, and the `Snapshot` objects of its clients. -/
structure Clients (R : Type*) where
  systems : R → System
  registries : R → SnapshotState
  objects : Multiset (SnapshotObject R)

namespace Clients

variable {R : Type*} [DecidableEq R]

/-- What the destructor and the move assignment do with the registry of an object. -/
def release (c : Clients R) (x : SnapshotObject R) : Clients R :=
  match x.state with
  | none => c
  | some r =>
    if x.registered then
      { c with
        systems := Function.update c.systems r { c.systems r with
          handle := { (c.systems r).handle with
            snapshots := (c.systems r).handle.snapshots.erase x.sequence } }
        registries := Function.update c.registries r ((c.registries r).unregister x.sequence) }
    else c

section
variable [EntrySize] (o : R → Options) (faultFree : Bool)

/-- A step of a database, or of a client with its snapshots. -/
inductive Step : Clients R → Clients R → Prop
  | engine {c : Clients R} {r : R} {s : System} (hstep : System.Step (o r) faultFree (c.systems r) s)
      (hsnapshots : s.handle.snapshots = (c.systems r).handle.snapshots) :
      Step c { c with systems := Function.update c.systems r s }
  | refuse {c : Clients R} {r : R} {status : Status} {state : SnapshotState}
      (hr : (c.systems r).handle.registerSnapshot (o r) (c.registries r) = (state, .error status)) :
      Step c { c with registries := Function.update c.registries r state }
  | getSnapshot {c : Clients R} {r : R} {snapshot : Snapshot} {state : SnapshotState}
      (hr : (c.systems r).handle.registerSnapshot (o r) (c.registries r) = (state, .ok snapshot)) :
      Step c ⟨Function.update c.systems r { c.systems r with
          handle := ((c.systems r).handle.getSnapshot (o r)).1 },
        Function.update c.registries r state, ⟨some r, snapshot.sequence, true⟩ ::ₘ c.objects⟩
  | destroy {c : Clients R} {x : SnapshotObject R} {rest : Multiset (SnapshotObject R)}
      (hx : c.objects = x ::ₘ rest) : Step c { c.release x with objects := rest }
  | moveConstruct {c : Clients R} {x : SnapshotObject R} {rest : Multiset (SnapshotObject R)}
      (hx : c.objects = x ::ₘ rest) : Step c { c with objects := x ::ₘ .moved ::ₘ rest }
  /-- `y` is moved into `x`, another object. -/
  | moveAssign {c : Clients R} {x y : SnapshotObject R} {rest : Multiset (SnapshotObject R)}
      (hx : c.objects = x ::ₘ y ::ₘ rest) :
      Step c { c.release x with objects := y ::ₘ .moved ::ₘ rest }

/-- The runs of opened databases whose snapshots are in the hands of clients. -/
def transitions : TransitionSystem (Clients R) where
  init c := (∀ r, (System.system (o r) faultFree).init (c.systems r) ∧ c.registries r = ⟨[]⟩) ∧
    c.objects = 0
  step := Step o faultFree

end

/-- The registries count what the objects keep, and the handles list it. -/
structure Inv (o : R → Options) (c : Clients R) : Prop where
  lists : ∀ r, ((c.systems r).handle.snapshots : Multiset ℕ) = SnapshotObject.held r c.objects
  counts : ∀ r, (c.registries r).Counts (SnapshotObject.held r c.objects)
  limit : ∀ r, (o r).maxActiveSnapshots = 0 ∨
    (SnapshotObject.held r c.objects).card ≤ (o r).maxActiveSnapshots
  registered : ∀ x ∈ c.objects, x.state.isSome → x.registered

namespace Inv

variable {o : R → Options} {c c' : Clients R} {objects : Multiset (SnapshotObject R)}

/-- Other objects that keep the same sequences. -/
theorem exchange (hi : Inv o c) (hheld : ∀ r, SnapshotObject.held r objects =
      SnapshotObject.held r c.objects) (hregistered : ∀ x ∈ objects, x.state.isSome → x.registered) :
    Inv o { c with objects := objects } := by
  refine ⟨fun r => ?_, fun r => ?_, fun r => ?_, hregistered⟩
  · rw [hheld]
    exact hi.lists r
  · rw [hheld]
    exact hi.counts r
  · rw [hheld]
    exact hi.limit r

/-- An object leaves its registry. -/
theorem release {x : SnapshotObject R} {rest : Multiset (SnapshotObject R)} (hi : Inv o c)
    (hx : c.objects = x ::ₘ rest) : Inv o { c.release x with objects := rest } := by
  have hregistered : ∀ y ∈ rest, y.state.isSome → y.registered := fun y hy =>
    hi.registered y (hx ▸ Multiset.mem_cons_of_mem hy)
  obtain ⟨state, sequence, registered⟩ := x
  have hcons := fun r => SnapshotObject.held_cons r ⟨state, sequence, registered⟩ rest
  rw [← hx] at hcons
  -- an object that keeps no sequence leaves every registry as it was
  have hunchanged : (∀ r, SnapshotObject.held? r ⟨state, sequence, registered⟩ = none) →
      Inv o { c with objects := rest } := by
    intro hnone
    refine hi.exchange (fun r => ?_) hregistered
    rw [hcons r, hnone r]
    rfl
  cases state with
  | none => exact hunchanged fun r => by simp [SnapshotObject.held?]
  | some owner =>
    cases registered with
    | false => exact hunchanged fun r => by simp [SnapshotObject.held?]
    | true =>
      -- the owner loses one occurrence of the sequence, the others keep what they have
      have howner : SnapshotObject.held owner c.objects =
          sequence ::ₘ SnapshotObject.held owner rest := by
        rw [hcons owner]
        simp [SnapshotObject.held?]
      have hother : ∀ r, r ≠ owner → SnapshotObject.held r c.objects = SnapshotObject.held r rest := by
        intro r hr
        rw [hcons r]
        simp [SnapshotObject.held?, hr.symm]
      refine ⟨fun r => ?_, fun r => ?_, fun r => ?_, hregistered⟩
      · simp only [Clients.release, if_true]
        by_cases hr : r = owner
        · subst hr
          rw [Function.update_self]
          dsimp only
          rw [← Multiset.coe_erase, hi.lists r, howner, Multiset.erase_cons_head]
        · rw [Function.update_of_ne hr, hi.lists r, hother r hr]
      · simp only [Clients.release, if_true]
        by_cases hr : r = owner
        · subst hr
          rw [Function.update_self]
          have hcounts := (hi.counts r).unregister sequence
          rwa [howner, Multiset.erase_cons_head] at hcounts
        · rw [Function.update_of_ne hr, ← hother r hr]
          exact hi.counts r
      · rcases hi.limit r with hzero | hle
        · exact .inl hzero
        · refine .inr (le_trans (Multiset.card_le_card ?_) hle)
          by_cases hr : r = owner
          · subst hr
            rw [howner]
            exact Multiset.le_cons_self _ _
          · exact (hother r hr).ge

variable [EntrySize] {faultFree : Bool}

theorem step (hi : Inv o c) (hstep : Step o faultFree c c') : Inv o c' := by
  cases hstep with
  | @engine r s hstep hsnapshots =>
    refine ⟨fun other => ?_, hi.counts, hi.limit, hi.registered⟩
    by_cases hr : other = r
    · subst hr
      dsimp only
      rw [Function.update_self, hsnapshots]
      exact hi.lists other
    · dsimp only
      rw [Function.update_of_ne hr]
      exact hi.lists other
  -- a refused snapshot leaves the registry counting what it did
  | @refuse r status state hr =>
    obtain ⟨hresult, hcounts⟩ := (hi.lists r ▸ hi.counts r :
      (c.registries r).Counts (c.systems r).handle.snapshots).registerSnapshot (o := o r)
    rw [hr] at hresult hcounts
    rw [Handle.getSnapshot_error hresult.symm] at hcounts
    refine ⟨hi.lists, fun other => ?_, hi.limit, hi.registered⟩
    by_cases heq : other = r
    · subst heq
      dsimp only
      rwa [Function.update_self, ← hi.lists other]
    · dsimp only
      rw [Function.update_of_ne heq]
      exact hi.counts other
  | @getSnapshot r snapshot state hr =>
    obtain ⟨hresult, hcounts⟩ := (hi.lists r ▸ hi.counts r :
      (c.registries r).Counts (c.systems r).handle.snapshots).registerSnapshot (o := o r)
    rw [hr] at hresult hcounts
    obtain ⟨-, hroom, rfl, hhandle⟩ := Handle.getSnapshot_ok hresult.symm
    -- the new object keeps its sequence in the database that it is of
    have hheld : ∀ other, SnapshotObject.held other
        (⟨some r, (c.systems r).handle.nextSequence - 1, true⟩ ::ₘ c.objects) =
          if other = r then ((c.systems r).handle.nextSequence - 1) ::ₘ
            SnapshotObject.held other c.objects else SnapshotObject.held other c.objects := by
      intro other
      rw [SnapshotObject.held_cons]
      by_cases heq : other = r
      · simp [SnapshotObject.held?, heq]
      · simp [SnapshotObject.held?, heq, Ne.symm heq]
    rw [hhandle] at hcounts
    refine ⟨fun other => ?_, fun other => ?_, fun other => ?_, fun x hx => ?_⟩
    · dsimp only
      rw [hheld]
      by_cases heq : other = r
      · subst heq
        rw [Function.update_self, if_pos rfl, hhandle, ← hi.lists other]
        rfl
      · rw [Function.update_of_ne heq, if_neg heq]
        exact hi.lists other
    · dsimp only
      rw [hheld]
      by_cases heq : other = r
      · subst heq
        rw [Function.update_self, if_pos rfl, ← hi.lists other]
        exact hcounts
      · rw [Function.update_of_ne heq, if_neg heq]
        exact hi.counts other
    · dsimp only
      rw [hheld]
      by_cases heq : other = r
      · subst heq
        rw [if_pos rfl, Multiset.card_cons, ← hi.lists other, Multiset.coe_card]
        omega
      · rw [if_neg heq]
        exact hi.limit other
    · rcases Multiset.mem_cons.mp hx with rfl | hx
      · exact fun _ => rfl
      · exact hi.registered x hx
  | destroy hx => exact hi.release hx
  -- the sequence goes over to the new object, the old one keeps nothing
  | @moveConstruct x rest hx =>
    refine hi.exchange (fun r => ?_) fun y hy => ?_
    · rw [SnapshotObject.held_cons, SnapshotObject.held_moved, ← SnapshotObject.held_cons, hx]
    · rcases Multiset.mem_cons.mp hy with rfl | hy
      · exact hi.registered y (hx ▸ Multiset.mem_cons_self _ _)
      rcases Multiset.mem_cons.mp hy with rfl | hy
      · simp [SnapshotObject.moved]
      · exact hi.registered y (hx ▸ Multiset.mem_cons_of_mem hy)
  -- the target gives up its own sequence before it takes the other one
  | @moveAssign x y rest hx =>
    have hreleased := hi.release hx
    refine hreleased.exchange (fun r => ?_) fun z hz => ?_
    · rw [SnapshotObject.held_cons, SnapshotObject.held_moved, ← SnapshotObject.held_cons]
    · rcases Multiset.mem_cons.mp hz with rfl | hz
      · exact hreleased.registered z (Multiset.mem_cons_self _ _)
      rcases Multiset.mem_cons.mp hz with rfl | hz
      · simp [SnapshotObject.moved]
      · exact hreleased.registered z (Multiset.mem_cons_of_mem hz)

theorem init (hc : (transitions o faultFree).init c) : Inv o c := by
  obtain ⟨hopened, hobjects⟩ := hc
  have hheld : ∀ r, SnapshotObject.held r c.objects = 0 := fun r => by
    rw [hobjects, SnapshotObject.held_zero]
  refine ⟨fun r => ?_, fun r => ?_, fun r => ?_, by simp [hobjects]⟩
  · obtain ⟨⟨d, listing, sweep, h, -, hopen, hs⟩, -⟩ := hopened r
    obtain ⟨d', hopened⟩ := Handle.open_opened hopen
    rw [hheld, hs, System.started, hopened.snapshots]
    rfl
  · rw [hheld, (hopened r).2]
    exact .empty
  · rw [hheld]
    exact .inr (Nat.zero_le _)

theorem of_reachable (hc : (transitions o faultFree).Reachable c) : Inv o c :=
  hc.invariant (fun _ => init) fun _ _ hstep hi => hi.step hstep

end Inv

section
variable [EntrySize] {o : R → Options} {faultFree : Bool} {c c' : Clients R}

/-- For each database a step of the clients is one of its own, or none. -/
theorem Step.system_step (hi : Inv o c) (hstep : Step o faultFree c c') (r : R) :
    c'.systems r = c.systems r ∨ System.Step (o r) faultFree (c.systems r) (c'.systems r) := by
  -- an object that leaves its registry is a release in the database of its owner
  have hrelease : ∀ x : SnapshotObject R, (c.release x).systems r = c.systems r ∨
      System.Step (o r) faultFree (c.systems r) ((c.release x).systems r) := by
    rintro ⟨state, sequence, registered⟩
    unfold Clients.release
    split
    · exact .inl rfl
    rename_i owner _
    split
    · by_cases hr : r = owner
      · subst hr
        dsimp only
        rw [Function.update_self]
        exact .inr (.releaseSnapshot sequence)
      · dsimp only
        rw [Function.update_of_ne hr]
        exact .inl rfl
    · exact .inl rfl
  cases hstep with
  | @engine owner s hstep hsnapshots =>
    by_cases hr : r = owner
    · subst hr
      dsimp only
      rw [Function.update_self]
      exact .inr hstep
    · dsimp only
      rw [Function.update_of_ne hr]
      exact .inl rfl
  | refuse => exact .inl rfl
  | @getSnapshot owner snapshot state hr =>
    have hresult := ((hi.lists owner ▸ hi.counts owner :
      (c.registries owner).Counts (c.systems owner).handle.snapshots).registerSnapshot
        (o := o owner)).1
    rw [hr] at hresult
    obtain ⟨hopen, -, -, hhandle⟩ := Handle.getSnapshot_ok hresult.symm
    by_cases heq : r = owner
    · subst heq
      dsimp only
      rw [Function.update_self, hhandle]
      exact .inr (.getSnapshot hopen)
    · dsimp only
      rw [Function.update_of_ne heq]
      exact .inl rfl
  | destroy => exact hrelease _
  | moveConstruct => exact .inl rfl
  | moveAssign => exact hrelease _

/-- Each database runs as it does alone, with the sequences that its registry counts as its snapshots.
The registry counts what the objects of the clients keep and stays within its limit, its oldest
sequence is the watermark of the compactions, and no object that a read accepts is below it. -/
theorem registry_refines_snapshots (hc : (transitions o faultFree).Reachable c) (r : R) :
    (System.system (o r) faultFree).Reachable (c.systems r) ∧
      ((c.systems r).handle.snapshots : Multiset ℕ) = SnapshotObject.held r c.objects ∧
      (c.registries r).Counts (SnapshotObject.held r c.objects) ∧
      (c.registries r).activeCount = (SnapshotObject.held r c.objects).card ∧
      ((o r).maxActiveSnapshots ≠ 0 → (c.registries r).activeCount ≤ (o r).maxActiveSnapshots) ∧
      ((c.systems r).handle.registerSnapshot (o r) (c.registries r)).2 =
        ((c.systems r).handle.getSnapshot (o r)).2 ∧
      (c.registries r).oldestOr noSnapshot = oldestSnapshot (c.systems r).handle.snapshots ∧
      ∀ x ∈ c.objects, (x.argument r).own → x.sequence ∈ (c.systems r).handle.snapshots ∧
        (c.registries r).oldestOr noSnapshot ≤ x.sequence := by
  have hi : Inv o c := .of_reachable hc
  have hcounts : (c.registries r).Counts (c.systems r).handle.snapshots := hi.lists r ▸ hi.counts r
  have hrun : (System.system (o r) faultFree).Reachable (c.systems r) := by
    refine hc.induction (fun c => (System.system (o r) faultFree).Reachable (c.systems r))
      (fun c hc => .of_init (hc.1 r).1) fun c c' hc hstep hs => ?_
    rcases hstep.system_step (.of_reachable hc) r with heq | hstep
    · rwa [heq]
    · exact hs.step hstep
  refine ⟨hrun, hi.lists r, hi.counts r, (hi.counts r).activeCount, fun hne => ?_,
    hcounts.registerSnapshot.1, hcounts.oldestOr noSnapshot, fun x hx hown => ?_⟩
  · rw [(hi.counts r).activeCount]
    exact (hi.limit r).resolve_left hne
  · have hstate : x.state = some r := of_decide_eq_true hown
    -- an object of this database that is not empty is registered, hence counted
    have hmem : x.sequence ∈ SnapshotObject.held r c.objects := by
      refine (Multiset.mem_filterMap _ _).mpr ⟨x, hx, ?_⟩
      have hregistered := hi.registered x hx (by rw [hstate]; rfl)
      simp [SnapshotObject.held?, hstate, hregistered]
    rw [← hi.lists r, Multiset.mem_coe] at hmem
    refine ⟨hmem, ?_⟩
    rw [hcounts.oldestOr]
    cases hmin : (c.systems r).handle.snapshots.min? with
    | none =>
      rw [List.min?_eq_none_iff.mp hmin] at hmem
      cases hmem
    | some least => exact (List.min?_eq_some_iff.mp hmin).2 _ hmem

end

/-- Two databases that allow one snapshot each: the first one's is moved to another object. -/
theorem registry_refines_snapshots_moved :
    let _ := entrySize80
    ∃ c : Clients Bool, (transitions (fun _ => { maxActiveSnapshots := 1 }) true).Reachable c ∧
      c.objects.card = 2 ∧ (c.registries true).activeCount = 1 ∧
      ((c.systems true).handle.registerSnapshot { maxActiveSnapshots := 1 } (c.registries true)).2 =
        .error (.resourceExhausted "active Snapshot limit is reached") ∧
      (c.registries true).oldestOr noSnapshot = 0 ∧
      (c.registries false).oldestOr noSnapshot = noSnapshot := by
  intro _
  have htests : (Handle.open { maxActiveSnapshots := 1 } .empty ⟨false, []⟩
      ⟨none, fun _ => false⟩).toOption.map (fun h => (h.checkOpen.ok, h.nextSequence, h.snapshots)) =
        some (true, 1, []) := by
    decide +kernel
  obtain ⟨h, hopen, htests⟩ := Option.map_eq_some_iff.mp htests
  simp only [Prod.mk.injEq] at htests
  obtain ⟨hok, hnext, hnone⟩ := htests
  have hopened : Handle.open { maxActiveSnapshots := 1 } .empty ⟨false, []⟩ ⟨none, fun _ => false⟩ =
      .ok h := Handle.open_eq_ok_of_toOption hopen
  set o : Bool → Options := fun _ => { maxActiveSnapshots := 1 } with ho
  set c₀ : Clients Bool := ⟨fun _ => System.started h, fun _ => ⟨[]⟩, 0⟩ with hc₀
  have hinit : (transitions o true).Reachable c₀ := by
    refine .of_init ⟨fun r => ⟨⟨.empty, ⟨false, []⟩, ⟨none, fun _ => false⟩, h, fun _ => rfl, hopened,
      rfl⟩, rfl⟩, rfl⟩
  have hregister : (c₀.systems true).handle.registerSnapshot (o true) (c₀.registries true) =
      (⟨[(0, 1)]⟩, .ok ⟨true, 0⟩) := by
    simp [hc₀, ho, System.started, Handle.registerSnapshot, hok, hnext, SnapshotState.tryRegister,
      SnapshotState.activeCount, OrderedMap.set]
  have hhandle : (h.getSnapshot (o true)).1 = { h with snapshots := [0] } := by
    simp [Handle.getSnapshot, ho, hok, hnone, hnext]
  set c₁ : Clients Bool := ⟨Function.update c₀.systems true
    { System.started h with handle := { h with snapshots := [0] } },
    Function.update c₀.registries true ⟨[(0, 1)]⟩, ⟨some true, 0, true⟩ ::ₘ 0⟩ with hc₁
  have hgot : Step o true c₀ c₁ := by
    have hstep : Step o true c₀ _ := .getSnapshot hregister
    rw [show (c₀.systems true).handle = h from rfl, hhandle] at hstep
    exact hstep
  have hmoved : Step o true c₁ { c₁ with objects := ⟨some true, 0, true⟩ ::ₘ .moved ::ₘ 0 } :=
    .moveConstruct rfl
  have hreachable := (hinit.step hgot).step hmoved
  obtain ⟨-, -, -, hcount, -, hanswer, holdest, -⟩ := registry_refines_snapshots hreachable true
  obtain ⟨-, -, -, -, -, -, hother, -⟩ := registry_refines_snapshots hreachable false
  have hsystem : (c₁.systems true).handle = { h with snapshots := [0] } := by
    rw [hc₁]
    dsimp only
    rw [Function.update_self]
  refine ⟨_, hreachable, rfl, ?_, ?_, ?_, ?_⟩
  · rw [hcount]
    rfl
  · rw [hanswer]
    dsimp only
    rw [hsystem]
    have hopen : ({ h with snapshots := [0] } : Handle).checkOpen.ok = true := hok
    simp [Handle.getSnapshot, ho, hopen]
  · rw [holdest]
    dsimp only
    rw [hsystem]
    rfl
  · rw [hother]
    dsimp only
    rw [hc₁]
    dsimp only
    rw [Function.update_of_ne (by simp)]
    show oldestSnapshot h.snapshots = noSnapshot
    rw [hnone]
    rfl

end Clients

end TinyLsm
