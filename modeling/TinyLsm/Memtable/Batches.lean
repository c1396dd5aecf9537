import Mathlib.Data.List.Nodup
import TinyLsm.Memtable.MemTable

/-!
# Batches

`MemTable::Apply` inserts one version at the front of its key's versions. `ApplyBatch` stages whole
version lists and stores them at the end; what it leaves behind is what its entries leave behind one
by one.
-/

namespace TinyLsm

namespace MemTable

/-! ## Calls -/

/-- The map after `try_emplace`: a new key gets an empty list. -/
def emplace (entries : List (Bytes × List InternalEntry)) (key : Bytes) :
    List (Bytes × List InternalEntry) :=
  match OrderedMap.find entries key with
  | some _ => entries
  | none => OrderedMap.set entries key []

section
variable [EntrySize]

/-- `MemTable::Apply`, with the table it leaves behind. -/
def apply (m : MemTable) (e : InternalEntry) : MemTable × Status :=
  if e.sequence = 0 then (m, .corruption "memtable sequence is zero")
  else if 2 ^ 64 - 1 - m.bytes < entryBytes e then
    (m, .resourceExhausted "memtable size accounting overflow")
  else
    let entries := emplace m.entries e.userKey
    let versions := (OrderedMap.find entries e.userKey).getD []
    if ∃ front ∈ versions.head?, e.sequence ≤ front.sequence then
      -- the emplaced key stays
      (⟨entries, m.bytes⟩, .corruption "memtable sequence did not increase")
    else (⟨OrderedMap.set entries e.userKey (e :: versions), m.bytes + entryBytes e⟩, .okay)

/-- `Apply` for each entry, until one fails. -/
def applyEach (m : MemTable) : List InternalEntry → MemTable × Status
  | [] => (m, .okay)
  | e :: es =>
    match m.apply e with
    | (m, status) => if status.ok then m.applyEach es else (m, status)

/-- A call that changes a `MemTable`. -/
inductive Call where
  | apply (entry : InternalEntry)
  | applyBatch (entries : List InternalEntry)
  | clear

/-- The table that a call leaves behind, and its status. The error exits of `ApplyBatch` come before
`entries_` changes. -/
def run (m : MemTable) : Call → MemTable × Status
  | .apply e => m.apply e
  | .applyBatch es =>
    match m.applyBatch es with
    | .ok m' => (m', .okay)
    | .error status => (m, status)
  | .clear => (empty, .okay)

/-- The table behind some calls on a new one. -/
def after (calls : List Call) : MemTable := calls.foldl (fun m c => (m.run c).1) empty

end

/-! ## The representation of a table -/

/-- The representation invariant with the accounting. -/
structure Accounted [EntrySize] (m : MemTable) : Prop where
  inv : m.Inv
  positive : ∀ e ∈ m.contents, 0 < e.sequence
  bytes_eq : m.bytes = (m.contents.map entryBytes).sum
  bytes_lt : m.bytes < 2 ^ 64

section
variable {m m' : MemTable} {e : InternalEntry} {es : List InternalEntry}

theorem Inv.find_eq (h : m.Inv) (key : Bytes) :
    OrderedMap.find m.entries key =
      if m.versionsOf key = [] then none else some (m.versionsOf key) := by
  cases hfind : OrderedMap.find m.entries key with
  | none => simp [versionsOf, hfind]
  | some vs =>
    have hne := (h.versions (key, vs) (OrderedMap.find_mem hfind)).nonempty
    simp only [] at hne
    simp [versionsOf, hfind, hne]

/-- A table is determined by the versions of the keys and the accounted bytes. -/
theorem Inv.ext (h : m.Inv) (h' : m'.Inv) (hversions : ∀ key, m.versionsOf key = m'.versionsOf key)
    (hbytes : m.bytes = m'.bytes) : m = m' := by
  have hentries : m.entries = m'.entries :=
    h.sorted.ext h'.sorted fun key => by rw [h.find_eq, h'.find_eq, hversions]
  cases m
  cases m'
  simp only [mk.injEq]
  exact ⟨hentries, hbytes⟩

theorem Inv.versionsOk (h : m.Inv) {key : Bytes} (hne : m.versionsOf key ≠ []) :
    VersionsOk key (m.versionsOf key) := by
  have hfind := h.find_eq key
  rw [if_neg hne] at hfind
  exact h.versions (key, m.versionsOf key) (OrderedMap.find_mem hfind)

theorem Inv.mem_contents_iff (h : m.Inv) : e ∈ m.contents ↔ e ∈ m.versionsOf e.userKey := by
  rw [h.mem_contents, versionsOf]
  cases OrderedMap.find m.entries e.userKey with
  | none => simp
  | some vs => simp

end

/-! ## One entry -/

section
variable [EntrySize] {m m' : MemTable} {e : InternalEntry} {es : List InternalEntry}

/-- What `Apply` accepts. -/
structure Takes (m : MemTable) (e : InternalEntry) : Prop where
  positive : 0 < e.sequence
  newer : ∀ old ∈ m.newest? e.userKey, old.sequence < e.sequence
  fits : m.bytes + entryBytes e < 2 ^ 64

/-- The table with one more version. -/
def insert (m : MemTable) (e : InternalEntry) : MemTable :=
  ⟨OrderedMap.set m.entries e.userKey (e :: m.versionsOf e.userKey), m.bytes + entryBytes e⟩

omit [EntrySize] in
theorem set_emplace {entries : List (Bytes × List InternalEntry)}
    (h : OrderedMap.Sorted entries) (key : Bytes) (vs : List InternalEntry) :
    OrderedMap.set (emplace entries key) key vs = OrderedMap.set entries key vs := by
  unfold emplace
  split
  · rfl
  · refine ((h.set _ _).set _ _).ext (h.set _ _) fun key' => ?_
    simp only [OrderedMap.find_set]
    split <;> rfl

omit [EntrySize] in
theorem versions_emplace (m : MemTable) (key : Bytes) :
    (OrderedMap.find (emplace m.entries key) key).getD [] = m.versionsOf key := by
  unfold emplace versionsOf
  split
  · rfl
  · rename_i hnone
    rw [OrderedMap.find_set, if_pos rfl, hnone]
    rfl

/-- `Apply` inserts the version, or fails and leaves the table as it is. -/
theorem Accounted.apply_cases (h : m.Accounted) (e : InternalEntry) :
    (m.apply e = (m.insert e, .okay) ∧ m.Takes e) ∨
      (m.apply e).1 = m ∧ (m.apply e).2.ok = false ∧ ¬ m.Takes e := by
  have hbytes := h.bytes_lt
  unfold MemTable.apply
  split
  · rename_i hzero
    exact .inr ⟨rfl, rfl, fun ht => ht.positive.ne' hzero⟩
  rename_i hpositive
  split
  · rename_i hfull
    exact .inr ⟨rfl, rfl, fun ht => by have := ht.fits; omega⟩
  rename_i hfits
  dsimp only
  rw [versions_emplace]
  split
  · rename_i hold
    obtain ⟨old, hmem, hle⟩ := hold
    refine .inr ⟨?_, rfl, fun ht => (ht.newer old hmem).not_ge hle⟩
    -- a key with versions is there already
    have hsome : emplace m.entries e.userKey = m.entries := by
      have hne : m.versionsOf e.userKey ≠ [] := List.ne_nil_of_mem (List.mem_of_head? hmem)
      rw [emplace, h.inv.find_eq, if_neg hne]
    rw [hsome]
  · rename_i hnewer
    refine .inl ⟨?_, Nat.pos_of_ne_zero hpositive, fun old hold => ?_, by omega⟩
    · rw [set_emplace h.inv.sorted]
      rfl
    · by_contra hle
      exact hnewer ⟨old, hold, not_lt.mp hle⟩

theorem versionsOf_insert (m : MemTable) (e : InternalEntry) (key : Bytes) :
    (m.insert e).versionsOf key =
      if e.userKey = key then e :: m.versionsOf key else m.versionsOf key := by
  simp only [versionsOf, insert, OrderedMap.find_set]
  split
  · rename_i hkey
    rw [hkey, Option.getD_some]
  · rfl

/-- A version that `Apply` takes goes in front of the others of its key. -/
theorem Takes.versionsOk (ht : m.Takes e) (h : m.Inv) :
    VersionsOk e.userKey (e :: m.versionsOf e.userKey) := by
  cases hold : m.versionsOf e.userKey with
  | nil => exact ⟨List.cons_ne_nil _ _, by simp, List.pairwise_singleton _ _⟩
  | cons old olds =>
    have hne : m.versionsOf e.userKey ≠ [] := by
      rw [hold]
      exact List.cons_ne_nil _ _
    have hok := h.versionsOk hne
    rw [hold] at hok
    have hlt : old.sequence < e.sequence := ht.newer old (by rw [newest?, hold]; rfl)
    refine ⟨List.cons_ne_nil _ _, List.forall_mem_cons.mpr ⟨rfl, hok.key_eq⟩,
      List.pairwise_cons.mpr ⟨fun e' he' => ?_, hok.newest_first⟩⟩
    rcases List.mem_cons.mp he' with rfl | he'
    · exact hlt
    · exact ((List.pairwise_cons.mp hok.newest_first).1 e' he').trans hlt

theorem Takes.inv_insert (ht : m.Takes e) (h : m.Inv) : (m.insert e).Inv := by
  refine ⟨h.sorted.set _ _, fun p hp => ?_⟩
  rcases OrderedMap.mem_set hp with rfl | hold
  · exact ht.versionsOk h
  · exact h.versions p hold

theorem Takes.not_mem (ht : m.Takes e) (h : m.Inv) : e ∉ m.contents := by
  intro he
  rw [h.mem_contents_iff] at he
  exact lt_irrefl _ ((List.pairwise_cons.mp (ht.versionsOk h).newest_first).1 e he)

theorem Takes.mem_insert (ht : m.Takes e) (h : m.Inv) {e' : InternalEntry} :
    e' ∈ (m.insert e).contents ↔ e' ∈ e :: m.contents := by
  rw [(ht.inv_insert h).mem_contents_iff, List.mem_cons, h.mem_contents_iff, versionsOf_insert]
  split
  · rw [List.mem_cons]
  · rename_i hkey
    refine ⟨.inr, ?_⟩
    rintro (rfl | he')
    · exact absurd rfl hkey
    · exact he'

theorem Takes.perm_insert (ht : m.Takes e) (h : m.Inv) :
    (m.insert e).contents.Perm (e :: m.contents) := by
  rw [List.perm_ext_iff_of_nodup (ht.inv_insert h).ordered.nodup
    (List.nodup_cons.mpr ⟨ht.not_mem h, h.ordered.nodup⟩)]
  exact fun _ => ht.mem_insert h

theorem Accounted.insert (h : m.Accounted) (ht : m.Takes e) : (m.insert e).Accounted := by
  refine ⟨ht.inv_insert h.inv, fun e' he' => ?_, ?_, ht.fits⟩
  · rcases List.mem_cons.mp ((ht.mem_insert h.inv).mp he') with rfl | he'
    · exact ht.positive
    · exact h.positive e' he'
  · rw [((ht.perm_insert h.inv).map entryBytes).sum_nat, List.map_cons, List.sum_cons, ← h.bytes_eq,
      Nat.add_comm]
    rfl

/-! ## Many entries -/

theorem Accepts.takes (ha : m.Accepts (e :: es)) : m.Takes e := by
  have hfits := ha.fits
  rw [List.map_cons, List.sum_cons] at hfits
  exact ⟨ha.positive e List.mem_cons_self, ha.newer e.userKey e (by simp), by omega⟩

theorem Accepts.tail (ha : m.Accepts (e :: es)) : (m.insert e).Accepts es := by
  obtain ⟨hnewest, hincreasing⟩ := List.pairwise_cons.mp ha.increasing
  refine ⟨fun e' he' => ha.positive e' (List.mem_cons_of_mem _ he'), hincreasing,
    fun key new hnew old hold => ?_, ?_⟩
  · by_cases hkey : e.userKey = key
    · rw [newest?, versionsOf_insert, if_pos hkey] at hold
      obtain rfl := Option.some.inj hold
      exact hnewest new (List.mem_of_find?_eq_some hnew)
    · rw [newest?, versionsOf_insert, if_neg hkey] at hold
      exact ha.newer key new (by rwa [List.find?_cons_of_neg (by simpa using hkey)]) old hold
  · have hfits := ha.fits
    rw [List.map_cons, List.sum_cons, ← Nat.add_assoc] at hfits
    exact hfits

/-- The table with all entries inserted in order. -/
def insertAll (m : MemTable) (es : List InternalEntry) : MemTable := es.foldl insert m

theorem Accepts.applyEach (ha : m.Accepts es) (h : m.Accounted) :
    m.applyEach es = (m.insertAll es, .okay) ∧ (m.insertAll es).Accounted := by
  induction es generalizing m with
  | nil => exact ⟨rfl, h⟩
  | cons e es ih =>
    rcases h.apply_cases e with ⟨happly, -⟩ | ⟨-, -, hnot⟩
    · obtain ⟨hrest, hacc⟩ := ih ha.tail (h.insert ha.takes)
      refine ⟨?_, hacc⟩
      rw [MemTable.applyEach, happly]
      exact hrest
    · exact absurd ha.takes hnot

theorem versionsOf_insertAll (m : MemTable) (es : List InternalEntry) (key : Bytes) :
    (m.insertAll es).versionsOf key =
      (es.filter fun e => decide (e.userKey = key)).reverse ++ m.versionsOf key := by
  induction es generalizing m with
  | nil => rfl
  | cons e es ih =>
    show ((m.insert e).insertAll es).versionsOf key = _
    rw [ih, versionsOf_insert]
    by_cases hkey : e.userKey = key
    · simp [hkey]
    · simp [hkey]

theorem bytes_insertAll (m : MemTable) (es : List InternalEntry) :
    (m.insertAll es).bytes = m.bytes + (es.map entryBytes).sum := by
  induction es generalizing m with
  | nil => rfl
  | cons e es ih =>
    show ((m.insert e).insertAll es).bytes = _
    rw [ih, List.map_cons, List.sum_cons, ← Nat.add_assoc]
    rfl

/-- A successful `ApplyBatch` inserted its entries in order. -/
theorem Accounted.applyBatch_eq (h : m.Accounted) (happly : m.applyBatch es = .ok m') :
    m.Accepts es ∧ m' = m.insertAll es := by
  have hs := applyBatch_eq_ok happly
  have hbytes := h.bytes_lt
  have ha : m.Accepts es := by
    refine ⟨hs.positive, hs.increasing, hs.newer, ?_⟩
    by_cases hnil : es = []
    · subst hnil
      simpa using hbytes
    · exact hs.bytes_lt hnil
  refine ⟨ha, (h.inv.applyBatch happly).1.ext (ha.applyEach h).2.inv (fun key => ?_) ?_⟩
  · rw [versionsOf_insertAll, versionsOf, hs.find_eq]
    split
    · rename_i hnil
      rw [hnil]
      rfl
    · rfl
  · rw [hs.bytes_eq, bytes_insertAll]

/-! ## Runs -/

theorem accounted_empty : Accounted empty :=
  ⟨inv_empty, by simp [empty, contents], by simp [empty, contents], by simp [empty]⟩

/-- What a call does: an entry or a batch is inserted, the table is cleared, or it stays. -/
theorem Accounted.run_cases (h : m.Accounted) (c : Call) :
    (∃ es, (c = .applyBatch es ∨ ∃ e, c = .apply e ∧ es = [e]) ∧ m.Accepts es ∧
      m.run c = (m.insertAll es, .okay)) ∨
    (c = .clear ∧ m.run c = (empty, .okay)) ∨
    c ≠ .clear ∧ (m.run c).1 = m ∧ (m.run c).2.ok = false := by
  cases c with
  | apply e =>
    rcases h.apply_cases e with ⟨happly, ht⟩ | ⟨hsame, hfail, -⟩
    · refine .inl ⟨[e], .inr ⟨e, rfl, rfl⟩, ⟨?_, List.pairwise_singleton _ _, ?_, ?_⟩, happly⟩
      · simpa using ht.positive
      · intro key new hnew old hold
        obtain rfl : new = e := by simpa using List.mem_of_find?_eq_some hnew
        obtain rfl : new.userKey = key := by simpa using List.find?_some hnew
        exact ht.newer old hold
      · simpa using ht.fits
    · exact .inr (.inr ⟨by simp, hsame, hfail⟩)
  | applyBatch es =>
    cases happly : m.applyBatch es with
    | ok m' =>
      obtain ⟨ha, rfl⟩ := h.applyBatch_eq happly
      exact .inl ⟨es, .inl rfl, ha, by simp only [run, happly]⟩
    | error status =>
      have hfail := applyBatch_error happly
      exact .inr (.inr ⟨by simp, by simp only [run, happly], by simp only [run, happly, hfail]⟩)
  | clear => exact .inr (.inl ⟨rfl, rfl⟩)

theorem Accounted.run (h : m.Accounted) (c : Call) : (m.run c).1.Accounted := by
  rcases h.run_cases c with ⟨es, -, ha, hrun⟩ | ⟨-, hrun⟩ | ⟨-, hsame, -⟩
  · rw [hrun]
    exact (ha.applyEach h).2
  · rw [hrun]
    exact accounted_empty
  · rw [hsame]
    exact h

theorem accounted_after (calls : List Call) : (after calls).Accounted := by
  refine List.foldlRecOn calls _ accounted_empty fun m h c _ => ?_
  exact h.run c

/-- A batch is all or nothing. On every table that calls lead to, `ApplyBatch` fails and leaves the
table as it is, or leaves what `Apply` leaves behind entry by entry, all of them accepted. It
succeeds exactly when the sequences are not zero and increase along the batch, the first new version
of each key is newer than the stored ones, and the sizes do not overflow. -/
theorem batch_is_atomic (calls : List Call) (es : List InternalEntry) :
    (((after calls).run (.applyBatch es)).2.ok = false →
      ((after calls).run (.applyBatch es)).1 = after calls) ∧
    (((after calls).run (.applyBatch es)).2.ok = true →
      (after calls).applyEach es = (((after calls).run (.applyBatch es)).1, .okay)) ∧
    (((after calls).run (.applyBatch es)).2.ok = true ↔ (after calls).Accepts es) := by
  have h := accounted_after calls
  cases happly : (after calls).applyBatch es with
  | error status =>
    have hfail := applyBatch_error happly
    simp only [run, happly, hfail, Bool.false_eq_true, false_implies, true_and, false_iff]
    refine ⟨fun _ => trivial, fun ha => ?_⟩
    obtain ⟨m', hok⟩ := ha.applyBatch_ok
    rw [happly] at hok
    cases hok
  | ok m' =>
    obtain ⟨ha, rfl⟩ := h.applyBatch_eq happly
    simp only [run, happly, Status.ok_okay, Bool.true_eq_false, false_implies, true_implies,
      true_iff, true_and]
    exact ⟨(ha.applyEach h).1, ha⟩

end

end MemTable

end TinyLsm
