import TinyLsm.Db.System

/-!
# Open

`DB::Impl::Open` of `db_impl.cpp` on a directory: the initial Manifest of a new database, the tables
and the WALs that the Manifest names, and the start of the worker.
-/

namespace TinyLsm

namespace Handle

/-- A handle before anything is recovered. -/
def blank (d : Directory) (m : ManifestSnapshot) (trace : List DirOp) : Handle where
  memtable := .empty
  immutable := none
  tables := []
  manifest := m
  nextSequence := 1
  terminalError := none
  backgroundError := none
  pendingCleanup := []
  snapshots := []
  closed := false
  closing := false
  flushRequested := false
  compactionRequested := false
  flushRunning := false
  compactionRunning := false
  workerStopping := false
  dir := d
  trace := trace

end Handle

/-! ## A new database -/

/-- A directory without files. -/
def Directory.empty : Directory := ⟨fun _ => none, none⟩

/-- What `ListDir` shows of a directory without a Manifest: whether there is a `MANIFEST.tmp`, and
the numbered files. -/
structure Listing where
  manifestTemp : Bool
  names : List FileName

/-- The loop of `InspectInitialFiles`, and what follows it. -/
def inspectNames (d : Directory) (manifestTemp : Bool) : Bool → List FileName → Result Bool
  | false, [] =>
    if manifestTemp then
      .error (.corruption "database without MANIFEST has an incomplete initialization state")
    else .ok false
  | true, [] =>
    match d.files (.wal 1) with
    | none => .error ((Status.ioError "open").withContext "inspect pre-Manifest WAL")
    | some file =>
      if file.data ≠ [] then
        .error (.notSupported "non-empty pre-Manifest WAL migration is not supported")
      else .ok true
  | _, .wal number :: names =>
    if number ≠ 1 then
      .error (.corruption "database without MANIFEST contains an unexpected WAL")
    else inspectNames d manifestTemp true names
  | _, .sst _ :: _ | _, .sstTmp _ :: _ =>
    .error (.corruption "database without MANIFEST contains an SSTable")

/-- `InspectInitialFiles`: whether the initial WAL is there. -/
def inspectInitialFiles (d : Directory) (listing : Listing) : Result Bool :=
  inspectNames d listing.manifestTemp false listing.names

/-- The Manifest of a new database. -/
def initialManifest : ManifestSnapshot := { activeWalNumber := 1, nextFileNumber := 2 }

/-- `CreateInitialManifest`. -/
def createInitialManifest (o : Options) (d : Directory) (listing : Listing) : Result Handle :=
  if o.createIfMissing = false then .error (.notFound "database manifest does not exist")
  else
    match inspectInitialFiles d listing with
    | .error status => .error status
    | .ok hasInitialWal =>
      let h := Handle.blank d initialManifest []
      let h := if hasInitialWal then h else h.perform (.create (.wal 1))
      .ok (((h.perform (.sync (.wal 1))).perform (.publish initialManifest)).perform .syncDir)

/-- `LoadManifest`; decoding ends with `ValidateSnapshot`. -/
def loadManifest (d : Directory) (m : ManifestSnapshot) : Result Handle :=
  match m.validate with
  | some invalid => .error ((Status.corruption invalid).withContext "load MANIFEST")
  | none => .ok (Handle.blank d m [])

/-! ## Tables -/

/-- The loop of `OpenManifestSSTables`. -/
def openTables (d : Directory) : List TableMeta → Result (List Table)
  | [] => .ok []
  | t :: rest =>
    match d.files (.sst t.fileNumber) with
    | none => .error (.corruption "manifest references a missing SSTable")
    | some file =>
      match SSTableReader.open file.data t.fileNumber with
      | .error status => .error (status.withContext "open Manifest SSTable reader")
      | .ok reader =>
        if reader.fileSize ≠ t.fileSize then
          .error (.corruption "manifest SSTable size does not match file")
        else
          match reader.validateAndGetProperties with
          | .error status => .error (status.withContext "validate Manifest SSTable data")
          | .ok properties =>
            if t.matches properties = false then
              .error (.corruption "manifest SSTable metadata does not match file")
            else
              match openTables d rest with
              | .error status => .error status
              | .ok tables => .ok (⟨t.fileNumber, reader⟩ :: tables)

namespace Handle

/-- `OpenManifestSSTables`. -/
def openManifestSSTables (h : Handle) : Result Handle :=
  match openTables h.dir h.manifest.liveTables with
  | .error status => .error status
  | .ok tables => .ok { h with tables }

/-! ## WALs -/

section
variable [EntrySize] (o : Options)

/-- `RecoverWal` into an empty MemTable: the largest sequence and the MemTable. -/
def recoverWal (h : Handle) (number floor : ℕ) : Result (Handle × ℕ × MemTable) :=
  match h.dir.files (.wal number) with
  | none => .error (.corruption "manifest references a missing WAL")
  | some file =>
    match replay MemTable.applyBatch o.limits floor file.data MemTable.empty with
    | .error status => .error (status.withContext "replay WAL")
    | .ok (result, target) =>
      .ok (if result.truncatedTail then h.perform (.truncate (.wal number) result.validBytes) else h,
        max floor result.maxSequence, target)

/-- The part of `RecoverWals` behind the immutable WAL. -/
def recoverActive (h : Handle) (floor : ℕ) : Result Handle :=
  match h.recoverWal o h.manifest.activeWalNumber floor with
  | .error status => .error (status.withContext "replay active WAL")
  | .ok (h, recoveredMax, memtable) =>
    if recoveredMax = 2 ^ 64 - 1 then .error (.resourceExhausted "sequence space is exhausted")
    else .ok { h with memtable, nextSequence := recoveredMax + 1 }

/-- `RecoverWals`. -/
def recoverWals (h : Handle) : Result Handle :=
  if h.manifest.immutableWalNumber = 0 then h.recoverActive o h.manifest.lastSequence
  else
    match h.recoverWal o h.manifest.immutableWalNumber h.manifest.lastSequence with
    | .error status => .error (status.withContext "replay immutable WAL")
    | .ok (h, recoveredMax, immutable) =>
      if immutable.isEmpty then .error (.corruption "manifest immutable WAL is empty")
      else { h with immutable := some immutable }.recoverActive o recoveredMax

/-- `StartBackgroundWorker`. -/
def startBackgroundWorker (h : Handle) : Handle :=
  { h with
    flushRequested := h.immutable.isSome
    compactionRequested := h.needsBackgroundCompaction o }

/-- `Open` behind the Manifest. -/
def recover (h : Handle) (sweep : SweepFaults) : Result Handle :=
  match h.openManifestSSTables with
  | .error status => .error status
  | .ok h =>
    match h.recoverWals o with
    | .error status => .error status
    | .ok h => .ok ((h.cleanupObsoleteFiles sweep.listed sweep.fails).startBackgroundWorker o)

/-- `Open` on a directory that exists. -/
def «open» (d : Directory) (listing : Listing) (sweep : SweepFaults) : Result Handle :=
  match d.manifest with
  | some m =>
    match loadManifest d m with
    | .error status => .error status
    | .ok h => h.recover o sweep
  | none =>
    match createInitialManifest o d listing with
    | .error status => .error status
    | .ok h => h.recover o sweep

variable {o} in
theorem open_eq_ok_of_toOption {d : Directory} {listing : Listing} {sweep : SweepFaults} {h : Handle}
    (hopen : (Handle.open o d listing sweep).toOption = some h) :
    Handle.open o d listing sweep = .ok h := by
  cases hresult : Handle.open o d listing sweep with
  | error status =>
    rw [hresult] at hopen
    cases hopen
  | ok h' =>
    rw [hresult] at hopen
    rw [Option.some.inj hopen]

end

end Handle

/-! ## Runs of a handle -/

namespace System

/-- The threads when `Open` returns. -/
def started (h : Handle) : System := ⟨h, .waiting, fun _ => .idle⟩

/-- The runs of a handle that `Open` returned. -/
def system [EntrySize] (o : Options) (faultFree : Bool) : TransitionSystem System where
  init s := ∃ d listing sweep h, (faultFree → sweep.fails = fun _ => false) ∧
    Handle.open o d listing sweep = .ok h ∧ s = started h
  step := Step o faultFree

end System

end TinyLsm
