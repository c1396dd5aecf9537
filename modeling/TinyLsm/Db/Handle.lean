import TinyLsm.Db.GroupCommit
import TinyLsm.Manifest.Snapshot
import TinyLsm.Sstable.Failures
import TinyLsm.Sstable.TableIterator
import TinyLsm.Iterator.MergingIterator

/-!
# The database handle

The state of `DB::Impl` under `mutex_` and the database directory, with the regions of `db_impl.cpp`
that hold the lock: commit of a write group, rotation, the two ends of a flush and of a compaction,
and the orphan sweep. Every file operation is recorded in order, and may fail where a fault says so.
-/

namespace TinyLsm

/-! ## The directory -/

/-- The numbered file names of `filename.h`. -/
inductive FileName where
  | wal (number : ℕ)
  | sst (number : ℕ)
  | sstTmp (number : ℕ)
deriving DecidableEq, Repr

/-- A file and how many of its bytes were synced. -/
structure File where
  data : Bytes
  synced : ℕ
deriving DecidableEq, Repr

/-- The database directory: the numbered files, and what `MANIFEST` decodes to. -/
structure Directory where
  files : FileName → Option File
  manifest : Option ManifestSnapshot

/-- The file operations that change the directory. -/
inductive DirOp where
  /-- `OpenWritable` of a new or emptied file. -/
  | create (name : FileName)
  | append (name : FileName) (bytes : Bytes)
  | sync (name : FileName)
  | truncate (name : FileName) (size : ℕ)
  | rename (source target : FileName)
  | remove (name : FileName)
  /-- The rename of a complete and synced `MANIFEST.tmp`. -/
  | publish (snapshot : ManifestSnapshot)
  | syncDir
deriving DecidableEq, Repr

/-- What a file operation does. Appending to an unlinked file leaves no trace in the directory. -/
def DirOp.apply (d : Directory) : DirOp → Directory
  | create name => { d with files := Function.update d.files name (some ⟨[], 0⟩) }
  | append name bytes =>
    { d with
      files := Function.update d.files name
        ((d.files name).map fun f => { f with data := f.data ++ bytes }) }
  | sync name =>
    { d with
      files := Function.update d.files name
        ((d.files name).map fun f => { f with synced := f.data.length }) }
  | truncate name size =>
    { d with
      files := Function.update d.files name
        ((d.files name).map fun f => ⟨f.data.take size, min f.synced size⟩) }
  | rename source target =>
    match d.files source with
    | none => d
    | some f =>
      { d with files := Function.update (Function.update d.files target (some f)) source none }
  | remove name => { d with files := Function.update d.files name none }
  | publish snapshot => { d with manifest := some snapshot }
  | syncDir => d

/-! ## State -/

/-- An `SSTableReader` in `tables_`, with its file number. -/
structure Table where
  number : ℕ
  reader : SSTableReader

/-- The entries a table holds. -/
def Table.entries (t : Table) : List InternalEntry :=
  match t.reader.scan [] [] with
  | .ok entries => entries
  | .error _ => []

/-- The state of `DB::Impl` under `mutex_`, and the directory. -/
@[ext]
structure Handle where
  memtable : MemTable
  /-- `immutable_memtable_`. -/
  immutable : Option MemTable
  tables : List Table
  /-- `manifest_->current()`. -/
  manifest : ManifestSnapshot
  nextSequence : ℕ
  terminalError : Option Status
  backgroundError : Option Status
  pendingCleanup : List FileName
  /-- The sequences of the registered snapshots. -/
  snapshots : List ℕ
  closed : Bool
  closing : Bool
  flushRequested : Bool
  compactionRequested : Bool
  flushRunning : Bool
  compactionRunning : Bool
  workerStopping : Bool
  dir : Directory
  /-- History: the file operations, in order. -/
  trace : List DirOp

namespace Handle

/-- `CheckOpen`. -/
def checkOpen (h : Handle) : Status :=
  if h.closed || h.closing then .alreadyClosed "database is closed"
  else
    match h.terminalError with
    | some status => status
    | none => h.backgroundError.getD .okay

/-- A file operation that succeeds. -/
@[simps]
def perform (h : Handle) (op : DirOp) : Handle :=
  { h with dir := op.apply h.dir, trace := h.trace ++ [op] }

/-- `NeedsBackgroundCompaction`. -/
def needsBackgroundCompaction (o : Options) (h : Handle) : Bool :=
  o.compactionTableTrigger ≠ 0 && decide (o.compactionTableTrigger ≤ h.tables.length)

end Handle

/-! ## Publishing a Manifest -/

/-- Where `ManifestState::Publish` fails. -/
inductive PublishFault where
  /-- Before the rename. -/
  | notPublished (status : Failure)
  /-- The directory sync behind the rename. -/
  | syncDir (status : Failure)

/-- `ManifestPublishOutcome`. -/
inductive PublishOutcome where
  | notPublished (status : Status)
  | visibleNotDurable (status : Status)
  | durable
deriving DecidableEq, Repr

namespace Handle

/-- `ManifestState::Publish`. -/
def publish (h : Handle) (next : ManifestSnapshot) (fault : Option PublishFault) :
    Handle × PublishOutcome :=
  match encodeManifest next with
  | .error status => (h, .notPublished status)
  | .ok _ =>
    match fault with
    | some (.notPublished status) => (h, .notPublished status.1)
    | some (.syncDir status) => (h.perform (.publish next), .visibleNotDurable status.1)
    | none => ({ (h.perform (.publish next)).perform .syncDir with manifest := next }, .durable)

/-- What callers of `Publish` do with the outcome: a visible but not durable Manifest is a terminal
error. -/
def published (r : Handle × PublishOutcome) (terminal context : String) (durable : Handle → Handle) :
    Handle × Status :=
  match r.2 with
  | .durable => (durable r.1, .okay)
  | .visibleNotDurable status =>
    ({ r.1 with terminalError := some (status.withContext terminal) }, status.withContext terminal)
  | .notPublished status => (r.1, status.withContext context)

end Handle

/-! ## Rotation -/

/-- Where `RotateMemTable` fails. -/
inductive RotateFault where
  | createWal (status : Failure)
  | syncWal (status : Failure)
  | publish (fault : PublishFault)

namespace Handle

/-- The state switch of `RotateMemTable` behind the published Manifest. -/
@[simps]
def switchMemTable (h : Handle) : Handle :=
  { h with memtable := .empty, immutable := some h.memtable, flushRequested := true }

/-- The Manifest that `RotateMemTable` publishes. -/
def rotatedManifest (m : ManifestSnapshot) : ManifestSnapshot :=
  { m with
    activeWalNumber := m.nextFileNumber + 1
    immutableWalNumber := m.activeWalNumber
    nextFileNumber := m.nextFileNumber + 2 }

/-- `RotateMemTable`. -/
def rotateMemTable (h : Handle) (fault : Option RotateFault) : Handle × Status :=
  if h.immutable.isSome then (h, .corruption "cannot rotate while immutable MemTable exists")
  else if h.memtable.isEmpty then (h, .okay)
  else if h.manifest.liveTables.length ≠ h.tables.length then
    (h, .corruption "Manifest and Reader table sets differ")
  else if 2 ^ 64 - 2 ≤ h.manifest.nextFileNumber then
    (h, .resourceExhausted "file number space is exhausted")
  else
    let name := FileName.wal (h.manifest.nextFileNumber + 1)
    match fault with
    | some (.createWal status) => (h, status.1.withContext "create replacement WAL")
    | some (.syncWal status) => (h.perform (.create name), status.1.withContext "sync replacement WAL")
    | some (.publish fault) =>
      published ((((h.perform (.create name)).perform (.sync name)).publish
          (rotatedManifest h.manifest) (some fault)))
        ("publish WAL rotation MANIFEST: replacement may be visible; close and reopen " ++
          "the database") "publish WAL rotation MANIFEST" switchMemTable
    | none =>
      published ((((h.perform (.create name)).perform (.sync name)).publish
          (rotatedManifest h.manifest) none))
        ("publish WAL rotation MANIFEST: replacement may be visible; close and reopen " ++
          "the database") "publish WAL rotation MANIFEST" switchMemTable

end Handle

/-! ## Commit of a write group -/

/-- Where `ApplyWriteGroup` fails. -/
structure WriteFaults where
  rotateBefore : Option RotateFault := none
  /-- The append failed behind some bytes. -/
  append : Option (Failure × ℕ) := none
  sync : Option Failure := none
  rotateAfter : Option RotateFault := none

namespace Handle

section
variable [EntrySize] (o : Options)

/-- `PrepareForWrite`: none while it waits. -/
def prepareForWrite (h : Handle) (fault : Option RotateFault) : Option (Handle × Status) :=
  if h.immutable.isSome ∧ o.memtableBytes ≤ h.memtable.bytes then none
  else if h.checkOpen.ok = false then some (h, h.checkOpen)
  else if h.immutable.isNone ∧ o.memtableBytes ≤ h.memtable.bytes then
    some (h.rotateMemTable fault)
  else some (h, .okay)

/-- `WalWriter::AppendBatch` on the active WAL. -/
def appendBatch (h : Handle) (entries : List InternalEntry) (fault : Option (Failure × ℕ)) :
    Handle × Status :=
  match encodeWalBatch entries o.limits with
  | .error status => (h, status)
  | .ok bytes =>
    let name := FileName.wal h.manifest.activeWalNumber
    match fault with
    | some (status, written) => (h.perform (.append name (bytes.take written)), status.1)
    | none => (h.perform (.append name bytes), .okay)

/-- `ApplyWriteGroup` behind the WAL. -/
def storeEntries (h : Handle) (entries : List InternalEntry) (fault : Option RotateFault) :
    Handle × Status :=
  let h := { h with nextSequence := h.nextSequence + entries.length }
  match h.memtable.applyBatch entries with
  | .error status => (h, status)
  | .ok memtable =>
    let h := { h with memtable }
    if o.memtableBytes ≤ h.memtable.bytes ∧ h.immutable.isNone then h.rotateMemTable fault
    else (h, .okay)

/-- `ApplyWriteGroup` behind `PrepareForWrite`. -/
def commitGroup (h : Handle) (group : List WriterRequest) (f : WriteFaults) : Handle × Status :=
  match countGroup 0 0 group with
  | .error status => (h, status)
  | .ok operationCount =>
    if 2 ^ 64 - 1 - h.nextSequence < operationCount then
      (h, .resourceExhausted "group exceeds sequence space")
    else
      let entries := groupEntries h.nextSequence group
      let (h, status) := appendBatch o h entries f.append
      if status.ok = false then (h, status)
      else if o.syncOnWrite then
        match f.sync with
        | some status => (h, status.1)
        | none => (h.perform (.sync (.wal h.manifest.activeWalNumber))).storeEntries o entries
            f.rotateAfter
      else h.storeEntries o entries f.rotateAfter

/-- `ApplyWriteGroup`: none while it waits. -/
def applyWriteGroup (h : Handle) (group : List WriterRequest) (f : WriteFaults) :
    Option (Handle × Status) :=
  if group = [] then some (h, .okay)
  else
    match h.prepareForWrite o f.rotateBefore with
    | none => none
    | some (h, status) =>
      if status.ok = false then some (h, status) else some (h.commitGroup o group f)

end

/-! ## The orphan sweep -/

/-- `BestEffortRemove`. -/
def bestEffortRemove (h : Handle) (name : FileName) (fails : Bool) : Handle :=
  if fails then
    if name ∈ h.pendingCleanup then h
    else { h with pendingCleanup := h.pendingCleanup ++ [name] }
  else h.perform (.remove name)

/-- Several removals in order. -/
def removeAll (h : Handle) (names : List FileName) (fails : FileName → Bool) : Handle :=
  names.foldl (fun h name => h.bestEffortRemove name (fails name)) h

/-- The files that the Manifest does not name. -/
def obsolete (m : ManifestSnapshot) : FileName → Bool
  | .wal number => number ≠ m.activeWalNumber && number ≠ m.immutableWalNumber
  | .sst number => decide (∀ t ∈ m.liveTables, t.fileNumber ≠ number)
  | .sstTmp _ => true

/-- `CleanupObsoleteFiles`; `listed` is what `ListDir` returned. -/
def cleanupObsoleteFiles (h : Handle) (listed : Option (List FileName)) (fails : FileName → Bool) :
    Handle :=
  let h := { h with pendingCleanup := [] }.removeAll h.pendingCleanup fails
  match listed with
  | none => h
  | some names => h.removeAll (names.filter (obsolete h.manifest)) fails

end Handle

/-! ## Building a table -/

/-- The contexts of the errors while a table is built. -/
structure BuildContext where
  create : String
  build : String
  finish : String
  «open» : String
  validate : String
  validateData : String
  rename : String
  syncDir : String

/-- The contexts in `FlushImmutableMemTable`. -/
def flushContext : BuildContext where
  create := "create temporary immutable SSTable"
  build := "build immutable SSTable"
  finish := "finish immutable SSTable"
  «open» := "open immutable SSTable for validation"
  validate := "validate immutable SSTable"
  validateData := "validate immutable SSTable data"
  rename := "publish immutable SSTable filename"
  syncDir := "sync database directory after immutable SSTable rename"

/-- The contexts in `CompactTablePrefix`. -/
def compactionContext : BuildContext where
  create := "create temporary compacted SSTable"
  build := "build temporary compacted SSTable"
  finish := "finish temporary compacted SSTable"
  «open» := "open temporary compacted SSTable"
  validate := "validate temporary compacted SSTable"
  validateData := "validate temporary compacted SSTable data"
  rename := "publish compacted SSTable filename"
  syncDir := "sync database directory after compaction rename"

/-- A table that was built and verified. -/
structure Output where
  table : Table
  info : BuiltTableInfo
  properties : SSTableProperties

/-- `Matches`. -/
def TableMeta.matches (m : TableMeta) (p : SSTableProperties) : Bool :=
  m.fileSize = p.fileSize && m.smallestKey = p.smallestKey && m.largestKey = p.largestKey &&
    m.minSequence = p.minSequence && m.maxSequence = p.maxSequence

/-- The Manifest entry of an output. -/
def Output.tableMeta (out : Output) : TableMeta :=
  ⟨out.table.number, out.info.fileSize, out.info.smallestKey, out.info.largestKey,
    out.info.minSequence, out.info.maxSequence⟩

/-- The steps that make an output file, one file operation each. -/
inductive BuildPhase where
  | create
  | write
  | verify (info : BuiltTableInfo)
  | rename (output : Output)
  | syncDir (output : Output)
  | ready (output : Output)

namespace Handle

/-- The context of a failed build: `Add` and `Finish` have their own. -/
def buildFailure (o : Options) (context : BuildContext) (entries : List InternalEntry) : String :=
  if ((SSTableBuilder.new o.sstableBlockBytes o.sstableRestartInterval).addAll entries).2.isSome then
    context.build
  else context.finish

/-- One step of building table `number` from `entries`. `checked` is the test behind the
verification (`CompactTablePrefix` compares the metadata there). -/
def buildStep (o : Options) (context : BuildContext) (checked : Output → Option Status) (number : ℕ)
    (entries : List InternalEntry) (fault : Option Failure) (h : Handle) :
    BuildPhase → Handle × Except Status BuildPhase
  | .create =>
    match fault with
    | some status => (h, .error (status.1.withContext context.create))
    | none => (h.perform (.create (.sstTmp number)), .ok .write)
  | .write =>
    match fault with
    | some status => (h, .error (status.1.withContext context.build))
    | none =>
      match buildTable o.sstableBlockBytes o.sstableRestartInterval entries with
      | (spans, .error status) =>
        (h.perform (.append (.sstTmp number) spans.flatten),
          .error (status.withContext (buildFailure o context entries)))
      | (spans, .ok info) =>
        ((h.perform (.append (.sstTmp number) spans.flatten)).perform (.sync (.sstTmp number)),
          .ok (.verify info))
  | .verify info =>
    match fault with
    | some status => (h, .error (status.1.withContext context.open))
    | none =>
      match h.dir.files (.sstTmp number) with
      | none => (h, .error ((Status.ioError "open").withContext context.open))
      | some file =>
        match SSTableReader.open file.data number with
        | .error status => (h, .error (status.withContext context.validate))
        | .ok reader =>
          match reader.validateAndGetProperties with
          | .error status => (h, .error (status.withContext context.validateData))
          | .ok properties =>
            let output : Output := ⟨⟨number, reader⟩, info, properties⟩
            match checked output with
            | some status => (h, .error status)
            | none => (h, .ok (.rename output))
  | .rename output =>
    match fault, h.dir.files (.sstTmp number) with
    | some status, _ => (h, .error (status.1.withContext context.rename))
    | none, none => (h, .error ((Status.ioError "rename").withContext context.rename))
    | none, some _ => (h.perform (.rename (.sstTmp number) (.sst number)), .ok (.syncDir output))
  | .syncDir output =>
    match fault with
    | some status => (h, .error (status.1.withContext context.syncDir))
    | none => (h.perform .syncDir, .ok (.ready output))
  | .ready output => (h, .ok (.ready output))

end Handle

end TinyLsm
