import TinyLsm.Library.CrashDisk
import TinyLsm.Db.Naming
import TinyLsm.Db.Recovery
import TinyLsm.Manifest.Codec

/-!
# Open, request by request

`DB::Impl::Open` of `db_impl.cpp` and `ManifestState` as a program of file-system requests on the
names and bytes of the directory, each of which may fail. `Db/Recovery` has the same code on the
decoded directory, without the requests.
-/

namespace TinyLsm

namespace Creation

open CrashDisk

/-- A program of file-system requests that may return a status. -/
abbrev Io (α : Type) := ExceptT Status (Program String Failure) α

/-- A request whose failure is returned with a context. -/
def callWith (context : String) (q : Request String) : Io q.Answer :=
  call (fun e => e.1.withContext context) q

/-- A request whose failure is returned as it is. -/
def callPlain (q : Request String) : Io q.Answer := call Subtype.val q

/-! ## The directory and the Manifest -/

/-- `EnsureDatabaseDirectory`. -/
def ensureDatabaseDirectory (o : Options) : Io Unit := do
  let pathExists ← callWith "open database" .dirExists
  if pathExists then return ()
  else if o.createIfMissing = false then throw (.notFound "database directory does not exist")
  else callWith "create database directory" .createDir

/-- What `ManifestState::Load` returns, and `ManifestCodec::Decode`. -/
def loadDecoded (parse : Bytes → Option ManifestMessage) : Io ManifestSnapshot := do
  let file ← callPlain (.openRead "MANIFEST")
  let size ← callPlain (.size file)
  if kMaxManifestFileBytes < size then throw (.corruption "manifest is too large")
  else
    let bytes ← callPlain (.read file 0 size)
    ofResult (decodeManifest parse bytes)

/-- `LoadManifest`. -/
def loadManifest (parse : Bytes → Option ManifestMessage) : Io ManifestSnapshot :=
  (loadDecoded parse).tryCatch fun status => throw (status.withContext "load MANIFEST")

/-- The loop of `InspectInitialFiles`: whether there is a `MANIFEST.tmp`, and the initial WAL. -/
def inspectListed : Bool → Bool → List String → Result (Bool × Bool)
  | manifestTemp, initialWal, [] => .ok (manifestTemp, initialWal)
  | manifestTemp, initialWal, name :: names =>
    if name = "MANIFEST.tmp" then inspectListed true initialWal names
    else
      match parseNumberedFileName name with
      | some ⟨number, .wal⟩ =>
        if number ≠ 1 then
          .error (.corruption "database without MANIFEST contains an unexpected WAL")
        else inspectListed manifestTemp true names
      | some ⟨_, .sstable⟩ | some ⟨_, .sstableTemp⟩ =>
        .error (.corruption "database without MANIFEST contains an SSTable")
      | none => inspectListed manifestTemp initialWal names

/-- `InspectInitialFiles`: whether the initial WAL is there. -/
def inspectInitialFiles : Io Bool := do
  let listed ← callWith "inspect database directory" .list
  let (manifestTemp, initialWal) ← ofResult (inspectListed false false listed)
  if initialWal = false then
    if manifestTemp then
      throw (.corruption "database without MANIFEST has an incomplete initialization state")
    else return false
  else
    let wal ← callWith "inspect pre-Manifest WAL" (.openRead (walFileName 1))
    let size ← callWith "inspect pre-Manifest WAL size" (.size wal)
    if size ≠ 0 then
      throw (.notSupported "non-empty pre-Manifest WAL migration is not supported")
    else return true

/-- `ManifestState::Publish` up to the rename. -/
def writeManifest (encoded : Bytes) : Io Unit := do
  let file ← callPlain (.openWrite "MANIFEST.tmp" false)
  callPlain (.append file encoded)
  callPlain (.sync file)
  callPlain (.close file)
  callPlain (.rename "MANIFEST.tmp" "MANIFEST")

/-- `ManifestState::Publish`. -/
def publish (next : ManifestSnapshot) : Program String Failure PublishOutcome :=
  match encodeManifest next with
  | .error status => pure (.notPublished status)
  | .ok encoded => do
    match ← (writeManifest encoded).run with
    | .error status => return .notPublished status
    | .ok () =>
      match ← Program.request .syncDir with
      | .error status => return .visibleNotDurable status.1
      | .ok () => return .durable

/-- `CreateInitialManifest`. -/
def createInitialManifest (o : Options) : Io ManifestSnapshot :=
  if o.createIfMissing = false then throw (.notFound "database manifest does not exist")
  else do
    let initialWal ← inspectInitialFiles
    let initial ← callWith "create initial WAL" (.openWrite (walFileName 1) initialWal)
    callWith "sync initial WAL" (.sync initial)
    callWith "close initial WAL" (.close initial)
    match ← ExceptT.lift (publish initialManifest) with
    | .durable => return initialManifest
    | .visibleNotDurable status =>
      throw (status.withContext
        "publish initial MANIFEST: replacement may be visible; retry DB::Open")
    | .notPublished status => throw (status.withContext "publish initial MANIFEST")

/-! ## Recovery -/

/-- The loop of `OpenManifestSSTables`. -/
def openManifestSSTables : List TableMeta → Io (List Table)
  | [] => return []
  | t :: rest => do
    let tableExists ← callWith "inspect Manifest SSTable" (.fileExists (sstableFileName t.fileNumber))
    if tableExists = false then throw (.corruption "manifest references a missing SSTable")
    else
      let file ← callWith "open Manifest SSTable" (.openRead (sstableFileName t.fileNumber))
      let data ← callWith "open Manifest SSTable reader" (.readAll file)
      match SSTableReader.open data t.fileNumber with
      | .error status => throw (status.withContext "open Manifest SSTable reader")
      | .ok reader =>
        if reader.fileSize ≠ t.fileSize then
          throw (.corruption "manifest SSTable size does not match file")
        else
          match reader.validateAndGetProperties with
          | .error status => throw (status.withContext "validate Manifest SSTable data")
          | .ok properties =>
            if t.matches properties = false then
              throw (.corruption "manifest SSTable metadata does not match file")
            else
              let tables ← openManifestSSTables rest
              return ⟨t.fileNumber, reader⟩ :: tables

section
variable [EntrySize] (o : Options)

/-- `RecoverWal` into an empty MemTable: the largest sequence and the MemTable. -/
def recoverWal (number floor : ℕ) : Io (ℕ × MemTable) := do
  let walExists ← callWith "inspect WAL" (.fileExists (walFileName number))
  if walExists = false then throw (.corruption "manifest references a missing WAL")
  else
    let file ← callWith "open WAL for replay" (.openRead (walFileName number))
    let data ← callWith "replay WAL" (.readAll file)
    match replay MemTable.applyBatch o.limits floor data MemTable.empty with
    | .error status => throw (status.withContext "replay WAL")
    | .ok (result, target) =>
      if result.truncatedTail then
        callWith "truncate incomplete WAL tail" (.truncate (walFileName number) result.validBytes)
        return (max floor result.maxSequence, target)
      else return (max floor result.maxSequence, target)

/-- What `Open` keeps in memory. -/
structure Opened where
  manifest : ManifestSnapshot
  tables : List Table
  memtable : MemTable
  immutable : Option MemTable
  nextSequence : ℕ

/-- `RecoverWals` behind the immutable WAL. -/
def recoverActive (snapshot : ManifestSnapshot) (tables : List Table)
    (immutable : Option MemTable) (floor : ℕ) : Io Opened := do
  let (recoveredMax, memtable) ←
    (recoverWal o snapshot.activeWalNumber floor).tryCatch fun status =>
      throw (status.withContext "replay active WAL")
  if recoveredMax = 2 ^ 64 - 1 then throw (.resourceExhausted "sequence space is exhausted")
  else
    let _ ← callWith "open active WAL for append"
      (.openWrite (walFileName snapshot.activeWalNumber) true)
    return ⟨snapshot, tables, memtable, immutable, recoveredMax + 1⟩

/-- `RecoverWals`. -/
def recoverWals (snapshot : ManifestSnapshot) (tables : List Table) : Io Opened :=
  if snapshot.immutableWalNumber = 0 then
    recoverActive o snapshot tables none snapshot.lastSequence
  else do
    let (recoveredMax, immutable) ←
      (recoverWal o snapshot.immutableWalNumber snapshot.lastSequence).tryCatch fun status =>
        throw (status.withContext "replay immutable WAL")
    if immutable.isEmpty then throw (.corruption "manifest immutable WAL is empty")
    else recoverActive o snapshot tables (some immutable) recoveredMax

end

/-- Whether `CleanupObsoleteFiles` removes a file. -/
def obsolete (current : ManifestSnapshot) (name : String) : Bool :=
  match parseNumberedFileName name with
  | some ⟨number, .wal⟩ =>
    decide (number ≠ current.activeWalNumber ∧ number ≠ current.immutableWalNumber)
  | some ⟨number, .sstable⟩ => current.liveTables.all fun t => decide (t.fileNumber ≠ number)
  | some ⟨_, .sstableTemp⟩ => true
  | none => decide (name = "MANIFEST.tmp")

/-- The removals of `CleanupObsoleteFiles`: whether one succeeded. -/
def removeObsolete (current : ManifestSnapshot) :
    Bool → List String → Program String Failure Bool
  | removedAny, [] => pure removedAny
  | removedAny, name :: names =>
    if obsolete current name then do
      let removed ← Program.request (.remove name)
      removeObsolete current (removed.isOk || removedAny) names
    else removeObsolete current removedAny names

/-- `CleanupObsoleteFiles` of a new handle, which has nothing left to clean up. -/
def cleanupObsoleteFiles (current : ManifestSnapshot) : Program String Failure Unit := do
  match ← Program.request .list with
  | .error _ => return ()
  | .ok listed =>
    let removedAny ← removeObsolete current false listed
    if removedAny then
      let _ ← Program.request .syncDir
      return ()
    else return ()

/-- The option checks of `Open`. -/
def checkOptions (o : Options) : Result Unit :=
  if o.memtableBytes = 0 ∨ o.sstableBlockBytes = 0 ∨ o.sstableRestartInterval = 0 ∨
      o.maxPendingWriteRequests = 0 ∨ o.maxPendingWriteBytes = 0 ∨ o.maxGroupCommitRequests = 0 ∨
      o.maxGroupCommitBytes = 0 then
    .error (.invalidArgument "size options must be non-zero")
  else if o.compactionTableTrigger = 1 then
    .error (.invalidArgument "compaction table trigger must be zero or at least two")
  else .ok ()

/-- `Open` up to the start of the worker. -/
def «open» [EntrySize] (parse : Bytes → Option ManifestMessage) (o : Options) : Io Opened := do
  ofResult (checkOptions o)
  ensureDatabaseDirectory o
  callWith "open database" (.lock "LOCK")
  let manifestExists ← callWith "inspect MANIFEST" (.fileExists "MANIFEST")
  let snapshot ← (if manifestExists then loadManifest parse else createInitialManifest o)
  let tables ← openManifestSSTables snapshot.liveTables
  let opened ← recoverWals o snapshot tables
  ExceptT.lift (cleanupObsoleteFiles opened.manifest)
  return opened

end Creation

/-! ## The names of the files -/

/-- `FormatNumberedFileName` and `ParseNumberedFileName` are inverse to each other on the numbers and
types and the names of the directory, so that no two numbered files share a name, and
`CleanupObsoleteFiles` finds no file obsolete but `MANIFEST.tmp` and those with such names. -/
theorem file_names_are_a_bijection :
    Function.Injective textOf ∧
    (∀ number type, 0 < number → number < 2 ^ 64 →
      (∃ name, textOf name = formatNumberedFileName number type) ∧
        parseNumberedFileName (formatNumberedFileName number type) = some ⟨number, type⟩) ∧
    (∀ (name : Bytes) parsed, parseNumberedFileName (textOf name) = some parsed →
      1 ≤ parsed.number ∧ parsed.number < 2 ^ 64 ∧
        formatNumberedFileName parsed.number parsed.type = textOf name) ∧
    (∀ number type number' type', 0 < number → number < 2 ^ 64 → 0 < number' → number' < 2 ^ 64 →
      formatNumberedFileName number type = formatNumberedFileName number' type' →
        number = number' ∧ type = type') ∧
    ∀ current (name : Bytes), Creation.obsolete current (textOf name) = true →
      textOf name = "MANIFEST.tmp" ∨ ∃ number type, 0 < number ∧ number < 2 ^ 64 ∧
        textOf name = formatNumberedFileName number type := by
  refine ⟨textOf_injective, fun number type hpos hlt => ?_, fun name parsed h => ?_,
    fun number type number' type' hpos hlt hpos' hlt' h => ?_, fun current name h => ?_⟩
  · exact ⟨exists_textOf_formatNumberedFileName number type,
      parse_formatNumberedFileName hpos hlt type⟩
  · exact parseNumberedFileName_canonical h
  · have hparsed := parse_formatNumberedFileName hpos hlt type
    rw [h, parse_formatNumberedFileName hpos' hlt' type'] at hparsed
    obtain ⟨rfl, rfl⟩ := NumberedFileName.mk.inj (Option.some.inj hparsed)
    exact ⟨rfl, rfl⟩
  · cases hparsed : parseNumberedFileName (textOf name) with
    | none =>
      rw [Creation.obsolete, hparsed] at h
      exact .inl (of_decide_eq_true h)
    | some parsed =>
      obtain ⟨hpos, hlt, hformat⟩ := parseNumberedFileName_canonical hparsed
      exact .inr ⟨_, _, hpos, hlt, hformat.symm⟩

/-- A number of seven digits, and a type whose suffix extends another one. -/
theorem file_names_are_a_bijection_million :
    parseNumberedFileName (formatNumberedFileName 1000000 .sstableTemp) =
        some ⟨1000000, .sstableTemp⟩ ∧
      formatNumberedFileName 1000000 .sstableTemp ≠ formatNumberedFileName 1000000 .sstable := by
  obtain ⟨-, hread, -, hunique, -⟩ := file_names_are_a_bijection
  refine ⟨(hread 1000000 .sstableTemp (by decide) (by decide)).2, fun h => ?_⟩
  have hsame := hunique 1000000 .sstableTemp 1000000 .sstable (by decide) (by decide) (by decide)
    (by decide) h
  exact absurd hsame.2 (by decide)

end TinyLsm
