import TinyLsm.Db.Handle

/-!
# Flush and compaction

The locked regions of `FlushImmutableMemTable` and `CompactTablePrefix`, and the choice of the
entries a compaction keeps.
-/

namespace TinyLsm

/-- What a sweep meets: the result of `ListDir`, and the removals that fail. -/
structure SweepFaults where
  listed : Option (List FileName)
  fails : FileName → Bool

/-! ## Flush -/

/-- What the first region of `FlushImmutableMemTable` takes with it. -/
structure FlushJob where
  tableNumber : ℕ
  immutableWal : ℕ
  entries : List InternalEntry

namespace Handle

/-- The first region of `FlushImmutableMemTable`. -/
def beginFlush (h : Handle) (sweep : SweepFaults) : Handle × Except Status FlushJob :=
  match h.immutable with
  | none => (h, .error .okay)
  | some immutable =>
    if h.manifest.immutableWalNumber = 0 then
      (h, .error (.corruption "immutable MemTable has no Manifest WAL"))
    else if h.manifest.liveTables.length ≠ h.tables.length then
      (h, .error (.corruption "Manifest and Reader table sets differ"))
    else if h.manifest.activeWalNumber < 2 then
      (h, .error (.corruption "immutable flush has no reserved SSTable number"))
    else
      let entries := immutable.scan [] []
      (h.cleanupObsoleteFiles sweep.listed sweep.fails,
        if entries = [] then .error (.corruption "immutable MemTable is empty")
        else .ok ⟨h.manifest.activeWalNumber - 1, h.manifest.immutableWalNumber, entries⟩)

/-- The Manifest that a flush publishes. -/
def flushedManifest (m : ManifestSnapshot) (out : Output) : ManifestSnapshot :=
  { m with
    immutableWalNumber := 0
    lastSequence := out.info.maxSequence
    liveTables := m.liveTables ++ [out.tableMeta] }

/-- The state switch of `FlushImmutableMemTable` behind the published Manifest. -/
def installFlush (o : Options) (out : Output) (h : Handle) : Handle :=
  let h := { h with tables := h.tables ++ [out.table], immutable := none }
  { h with compactionRequested := h.compactionRequested || h.needsBackgroundCompaction o }

/-- The second region of `FlushImmutableMemTable`. -/
def commitFlush (o : Options) (h : Handle) (job : FlushJob) (out : Output)
    (fault : Option PublishFault) : Handle × Status :=
  if h.immutable.isNone ∨ h.manifest.immutableWalNumber ≠ job.immutableWal ∨
      h.manifest.activeWalNumber ≠ job.tableNumber + 1 then
    (h, .corruption "immutable flush state changed unexpectedly")
  else if out.tableMeta.matches out.properties = false then
    (h, .corruption "built immutable SSTable metadata does not match file")
  else
    published (h.publish (flushedManifest h.manifest out) fault)
      ("publish immutable flush MANIFEST: replacement may be visible; close and reopen " ++
        "the database") "publish immutable flush MANIFEST" (installFlush o out)

end Handle

/-! ## The entries a compaction keeps -/

/-- No registered snapshot (`no_snapshot`). -/
def noSnapshot : ℕ := 2 ^ 64 - 1

/-- `SnapshotState::OldestOr(no_snapshot)`. -/
def oldestSnapshot (snapshots : List ℕ) : ℕ := snapshots.min?.getD noSnapshot

/-- The retention loop of `CompactTablePrefix`. `previous` is `previous_key` behind the first entry,
`retained` is `retained_watermark_version`. -/
def retainEntries (coversAll : Bool) (watermark : ℕ) :
    Option Bytes → Bool → List InternalEntry → List InternalEntry
  | _, _, [] => []
  | previous, retained, e :: rest =>
    let retained := retained && decide (previous = some e.userKey)
    if coversAll = false then e :: retainEntries coversAll watermark (some e.userKey) retained rest
    else if watermark = noSnapshot then
      if retained = false ∧ e.type = .value then
        e :: retainEntries coversAll watermark (some e.userKey) true rest
      else retainEntries coversAll watermark (some e.userKey) true rest
    else if watermark < e.sequence then
      e :: retainEntries coversAll watermark (some e.userKey) retained rest
    else if retained = false then
      e :: retainEntries coversAll watermark (some e.userKey) true rest
    else retainEntries coversAll watermark (some e.userKey) retained rest

/-- The input iterators of a compaction. -/
def compactionInputs : List Table → Result (List TableIterator)
  | [] => .ok []
  | t :: tables =>
    match t.reader.newIterator [] [] with
    | .error status => .error (status.withContext "create compaction input iterator")
    | .ok it =>
      match compactionInputs tables with
      | .error status => .error status
      | .ok its => .ok (it :: its)

/-- The merged entries of the selected tables. -/
def mergedEntries (tables : List Table) : Result (List InternalEntry) :=
  match compactionInputs tables with
  | .error status => .error status
  | .ok inputs =>
    match newMergingIterator inputs with
    | .error status => .error (status.withContext "create compaction merge iterator")
    | .ok merged =>
      match InternalIterator.drain (InternalIterator.remaining merged) merged with
      | .error status => .error (status.withContext "read compaction input")
      | .ok entries => .ok entries

/-! ## Compaction -/

/-- What the first region of `CompactTablePrefix` takes with it. -/
structure CompactionJob where
  number : ℕ
  metas : List TableMeta
  tables : List Table
  coversAll : Bool

/-- The metadata comparison of `CompactTablePrefix` before the rename. -/
def compactionChecked (out : Output) : Option Status :=
  if out.tableMeta.matches out.properties then none
  else some (.corruption "compacted SSTable metadata does not match file")

namespace Handle

section
variable (o : Options)

/-- The selection of the first region of `CompactTablePrefix`. -/
def selectTables (h : Handle) (inputCount : ℕ) : CompactionJob :=
  ⟨h.manifest.nextFileNumber, h.manifest.liveTables.take inputCount, h.tables.take inputCount,
    inputCount = h.manifest.liveTables.length⟩

/-- The checks at the start of `CompactTablePrefix`: none when it goes on. -/
def compactionStatus (h : Handle) (inputCount : ℕ) (background : Bool) : Option Status :=
  if h.checkOpen.ok = false then some h.checkOpen
  else if inputCount = 0 ∨ h.tables.length < inputCount then some .okay
  else if h.manifest.liveTables.length ≠ h.tables.length then
    some (.corruption "Manifest and Reader table sets differ")
  else if background ∧ inputCount ≠ o.compactionTableTrigger then
    some (.corruption "background compaction input count is invalid")
  else none

/-- The status when no file number is left for the output. -/
def numberExhausted : Status := .resourceExhausted "file number space is exhausted"

/-- The first region of a background `CompactTablePrefix`, which reserves the output number. -/
def beginBackgroundCompaction (h : Handle) (fault : Option PublishFault) :
    Handle × Except Status CompactionJob :=
  match h.compactionStatus o o.compactionTableTrigger true with
  | some status => (h, .error status)
  | none =>
    if h.manifest.nextFileNumber = 2 ^ 64 - 1 then (h, .error numberExhausted)
    else
      let r := published (h.publish
          { h.manifest with nextFileNumber := h.manifest.nextFileNumber + 1 } fault)
        "reserve compaction file number: close and reopen the database"
        "reserve compaction file number" id
      (r.1, if r.2.ok then .ok (h.selectTables o.compactionTableTrigger) else .error r.2)

/-- The Manifest that a compaction publishes. -/
def compactedManifest (m : ManifestSnapshot) (job : CompactionJob) (replacement : Option Output) :
    ManifestSnapshot :=
  let rest := m.liveTables.drop job.metas.length
  match replacement with
  | some out =>
    { m with
      liveTables := out.tableMeta :: rest
      nextFileNumber := if m.nextFileNumber = job.number then m.nextFileNumber + 1
        else m.nextFileNumber }
  | none =>
    { m with
      liveTables := rest
      nextFileNumber := if m.nextFileNumber = job.number + 1 then job.number
        else m.nextFileNumber }

/-- The state switch of `CompactTablePrefix` behind the published Manifest, and the removal of the
input files, still under the lock. -/
def installCompaction (job : CompactionJob) (replacement : Option Output) (fails : FileName → Bool)
    (h : Handle) : Handle :=
  { h with
    tables := (replacement.map Output.table).toList ++ h.tables.drop job.metas.length }.removeAll
    (job.metas.map fun t : TableMeta => .sst t.fileNumber) fails

/-- The last region of `CompactTablePrefix`. -/
def commitCompaction (h : Handle) (job : CompactionJob) (replacement : Option Output)
    (fault : Option PublishFault) (fails : FileName → Bool) : Handle × Status :=
  if h.manifest.liveTables.length ≠ h.tables.length ∨ h.tables.length < job.metas.length then
    (h, .corruption "compaction version changed unexpectedly")
  else if (h.manifest.liveTables.take job.metas.length).map TableMeta.fileNumber ≠
      job.metas.map TableMeta.fileNumber then
    (h, .corruption "compaction input is no longer the oldest table prefix")
  else
    published (h.publish (compactedManifest h.manifest job replacement) fault)
      ("publish compaction MANIFEST: replacement may be visible; close and reopen " ++
        "the database") "publish compaction MANIFEST" (installCompaction job replacement fails)

/-- The failures of an explicit compaction. -/
structure CompactFaults where
  sweep : SweepFaults
  /-- A read of an input fails. -/
  read : Option Failure := none
  create : Option Failure := none
  write : Option Failure := none
  verify : Option Failure := none
  rename : Option Failure := none
  syncDir : Option Failure := none
  publish : Option PublishFault := none
  fails : FileName → Bool := fun _ => false

/-- All steps that make an output file, under the lock. -/
def buildOutput (h : Handle) (number : ℕ) (entries : List InternalEntry) (f : CompactFaults) :
    Handle × Except Status Output :=
  let step := buildStep o compactionContext compactionChecked number entries
  match step f.create h .create with
  | (h, .error status) => (h, .error status)
  | (h, .ok phase) =>
    match step f.write h phase with
    | (h, .error status) => (h, .error status)
    | (h, .ok phase) =>
      match step f.verify h phase with
      | (h, .error status) => (h, .error status)
      | (h, .ok phase) =>
        match step f.rename h phase with
        | (h, .error status) => (h, .error status)
        | (h, .ok phase) =>
          match step f.syncDir h phase with
          | (h, .error status) => (h, .error status)
          | (h, .ok (.ready out)) => (h, .ok out)
          | (h, .ok _) => (h, .error .okay)

/-- `CompactTablePrefix` of an explicit `Compact`, which holds the lock throughout. -/
def compactTablePrefix (h : Handle) (inputCount : ℕ) (f : CompactFaults) : Handle × Status :=
  match h.compactionStatus o inputCount false with
  | some status => (h, status)
  | none =>
    let h := h.cleanupObsoleteFiles f.sweep.listed f.sweep.fails
    if h.manifest.nextFileNumber = 2 ^ 64 - 1 then (h, numberExhausted)
    else
      let job := h.selectTables inputCount
      match f.read, mergedEntries job.tables with
      | some status, _ => (h, status.1.withContext "read compaction input")
      | none, .error status => (h, status)
      | none, .ok merged =>
        let entries := retainEntries job.coversAll (oldestSnapshot h.snapshots) none false merged
        if entries = [] then h.commitCompaction job none f.publish f.fails
        else
          match h.buildOutput o job.number entries f with
          | (h, .error status) => (h, status)
          | (h, .ok out) => h.commitCompaction job (some out) f.publish f.fails

end

end Handle

end TinyLsm
