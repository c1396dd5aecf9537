import TinyLsm.Db.Handle
import TinyLsm.Iterator.MergingIterator
import TinyLsm.Iterator.VisibilityIterator
import TinyLsm.Sstable.TableIterator

/-!
# Reads

`Get`, `Scan`, `NewIterator` and `GetSnapshot` of a handle, and the public `Iterator` (`db.cpp`). A
read takes its sources under the lock; the iterator keeps them.
-/

namespace TinyLsm

/-! ## Sources -/

/-- An input of the merge: the iterator of a table, or captured entries of a MemTable. -/
inductive ReadSource where
  | table (it : TableIterator)
  | memory (it : VectorIterator)

namespace ReadSource

def entry? : ReadSource → Option InternalEntry
  | table it => InternalIterator.entry? it
  | memory it => InternalIterator.entry? it

def seek : ReadSource → Bytes → Status × ReadSource
  | table it, target => (InternalIterator.seek it target).map id table
  | memory it, target => (InternalIterator.seek it target).map id memory

def next : ReadSource → Status × ReadSource
  | table it => (InternalIterator.next it).map id table
  | memory it => (InternalIterator.next it).map id memory

def status : ReadSource → Status
  | table it => InternalIterator.status it
  | memory it => InternalIterator.status it

def remaining : ReadSource → ℕ
  | table it => InternalIterator.remaining it
  | memory it => InternalIterator.remaining it

instance : InternalIterator ReadSource := ⟨ entry?, seek, next, status, remaining⟩

end ReadSource

/-! ## The public iterator -/

/-- `Snapshot`; `own` says whether it belongs to the handle that is read. -/
structure Snapshot where
  own : Bool
  sequence : ℕ
deriving DecidableEq, Repr

theorem Snapshot.not_foreign {snapshot : Option Snapshot} (h : ∀ s ∈ snapshot, s.own = true) :
    ¬ ∃ s ∈ snapshot, s.own = false := by
  rintro ⟨s, hs, hforeign⟩
  rw [h s hs] at hforeign
  cases hforeign

/-- `Iterator::Impl`. -/
structure DbIterator where
  iterator : VisibilityIterator (MergingIterator ReadSource)
  start : Bytes

namespace DbIterator

/-- `Iterator::Seek`. -/
def seek (it : DbIterator) (target : Bytes) : Status × DbIterator :=
  (it.iterator.seek (if target < it.start then it.start else target)).map id
    fun iterator => { it with iterator }

/-- `Iterator::Next`. -/
def next (it : DbIterator) : Status × DbIterator :=
  it.iterator.next.map id fun iterator => { it with iterator }

/-- `Iterator::Valid`, `key` and `value`. -/
def entry? (it : DbIterator) : Option (Bytes × Bytes) :=
  it.iterator.entry?.map fun e => (e.userKey, e.value)

/-- `Iterator::status`. -/
def status (it : DbIterator) : Status := it.iterator.status

end DbIterator

/-- The tables of a range: `NewIterator` leaves out those whose metadata lies outside. -/
def tableInputs (start limit : Bytes) : List TableMeta → List Table → Result (List ReadSource)
  | m :: metas, t :: tables =>
    if (limit ≠ [] ∧ ¬ m.smallestKey < limit) ∨ m.largestKey < start then
      tableInputs start limit metas tables
    else
      match t.reader.newIterator start limit with
      | .error status => .error status
      | .ok it =>
        match tableInputs start limit metas tables with
        | .error status => .error status
        | .ok inputs => .ok (.table it :: inputs)
  | _, _ => .ok []

/-- The captured entries of the MemTables, the active one first. -/
def memoryInputs (start limit : Bytes) : List MemTable → Result (List ReadSource)
  | [] => .ok []
  | m :: memtables =>
    match newVectorIterator (m.scan start limit) start limit with
    | .error status => .error status
    | .ok it =>
      match memoryInputs start limit memtables with
      | .error status => .error status
      | .ok inputs => .ok (.memory it :: inputs)

namespace Handle

/-- The sequence that a read sees. -/
def readSequence (h : Handle) (snapshot : Option Snapshot) : ℕ :=
  match snapshot with
  | some s => s.sequence
  | none => h.nextSequence - 1

/-- The MemTables, the active one first. -/
def memtables (h : Handle) : List MemTable := h.memtable :: h.immutable.toList

/-- `NewIterator`. -/
def newIterator (h : Handle) (start limit : Bytes) (snapshot : Option Snapshot) :
    Result DbIterator :=
  if h.checkOpen.ok = false then .error h.checkOpen
  else if limit ≠ [] ∧ limit < start then
    .error (.invalidArgument "iterator begin is greater than end")
  else if ∃ s ∈ snapshot, s.own = false then
    .error (.invalidArgument "Snapshot belongs to another DB")
  else if h.manifest.liveTables.length ≠ h.tables.length then
    .error (.corruption "Manifest and Reader table sets differ")
  else
    match tableInputs start limit h.manifest.liveTables h.tables with
    | .error status => .error status
    | .ok disk =>
      match memoryInputs start limit h.memtables with
      | .error status => .error status
      | .ok memory =>
        match newMergingIterator (disk ++ memory) with
        | .error status => .error status
        | .ok merged =>
          match newVisibilityIterator merged (h.readSequence snapshot) with
          | .error status => .error status
          | .ok iterator => .ok ⟨iterator, start⟩

/-- `Scan`. -/
def scan (h : Handle) (start limit : Bytes) : Result (List (Bytes × Bytes)) :=
  match h.newIterator start limit none with
  | .error status => .error status
  | .ok it =>
    match InternalIterator.drain (InternalIterator.remaining it.iterator) it.iterator with
    | .error status => .error status
    | .ok entries => .ok (entries.map fun e => (e.userKey, e.value))

/-- `consider` in `Get`: an absent key leaves the newest version so far. -/
def consider (newest : Option InternalEntry) : Result InternalEntry → Result (Option InternalEntry)
  | .error status => if status.code = .notFound then .ok newest else .error status
  | .ok candidate =>
    match newest with
    | none => .ok (some candidate)
    | some e => .ok (some (if e.sequence < candidate.sequence then candidate else e))

/-- The MemTables in `Get`. -/
def considerMemory (key : Bytes) (sequence : ℕ) (newest : Option InternalEntry) :
    List MemTable → Result (Option InternalEntry)
  | [] => .ok newest
  | m :: memtables =>
    match consider newest (m.get key sequence) with
    | .error status => .error status
    | .ok newest => considerMemory key sequence newest memtables

/-- The tables in `Get`. -/
def considerTables (cached : Bool) (key : Bytes) (sequence : ℕ) (newest : Option InternalEntry) :
    List TableMeta → List Table → Result (Option InternalEntry)
  | m :: metas, t :: tables =>
    if key < m.smallestKey ∨ m.largestKey < key then
      considerTables cached key sequence newest metas tables
    else
      match consider newest (t.reader.get cached key sequence) with
      | .error status => .error status
      | .ok newest => considerTables cached key sequence newest metas tables
  | _, _ => .ok newest

/-- `Get`; the cache is enabled unless it has no room. -/
def get (o : Options) (h : Handle) (key : Bytes) (snapshot : Option Snapshot) : Result Bytes :=
  if h.checkOpen.ok = false then .error h.checkOpen
  else if ∃ s ∈ snapshot, s.own = false then
    .error (.invalidArgument "Snapshot belongs to another DB")
  else
    match considerMemory key (h.readSequence snapshot) none h.memtables with
    | .error status => .error status
    | .ok newest =>
      if h.manifest.liveTables.length ≠ h.tables.length then
        .error (.corruption "Manifest and Reader table sets differ")
      else
        match considerTables (o.blockCacheBytes ≠ 0) key (h.readSequence snapshot) newest
            h.manifest.liveTables h.tables with
        | .error status => .error status
        | .ok none => .error (.notFound "key is absent or deleted")
        | .ok (some e) =>
          if e.type = .tombstone then .error (.notFound "key is absent or deleted") else .ok e.value

/-- `GetSnapshot`. -/
def getSnapshot (o : Options) (h : Handle) : Handle × Result Snapshot :=
  if h.checkOpen.ok = false then (h, .error h.checkOpen)
  else if o.maxActiveSnapshots ≠ 0 ∧ o.maxActiveSnapshots ≤ h.snapshots.length then
    (h, .error (.resourceExhausted "active Snapshot limit is reached"))
  else ({ h with snapshots := (h.nextSequence - 1) :: h.snapshots }, .ok ⟨true, h.nextSequence - 1⟩)

end Handle

end TinyLsm
