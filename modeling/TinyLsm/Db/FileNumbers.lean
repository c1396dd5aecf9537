import TinyLsm.Db.Building

/-!
# File numbers

No two tables of a handle ever share a number: the numbers of failed outputs are handed out again,
those of published tables are not. With it goes what every directory of a run satisfies, at every
point where the process may stop.
-/

namespace TinyLsm

/-! ## Directories along a run -/

namespace ManifestSnapshot

/-- The Manifest names a WAL of this number. -/
def NamesWal (m : ManifestSnapshot) (n : ℕ) : Prop :=
  n = m.activeWalNumber ∨ m.immutableWalNumber ≠ 0 ∧ n = m.immutableWalNumber

/-- The number before the active WAL is kept for the table of the immutable WAL. -/
def FlushNumber (m : ManifestSnapshot) (n : ℕ) : Prop :=
  m.immutableWalNumber ≠ 0 ∧ n + 1 = m.activeWalNumber

/-- Neither a WAL nor the table of the immutable WAL has this number. -/
structure FreeOfWals (m : ManifestSnapshot) (n : ℕ) : Prop where
  wal : ¬ m.NamesWal n
  flush : ¬ m.FlushNumber n

/-- The WALs, the tables and the table of the immutable WAL have numbers of their own. -/
structure KeepsFlushNumber (m : ManifestSnapshot) : Prop where
  wal : ∀ n, m.NamesWal n → ¬ m.FlushNumber n
  tables : ∀ t ∈ m.liveTables, m.FreeOfWals t.fileNumber

/-- The WALs are those of `m`, or a rotation made the active one immutable. -/
def WalsFollow (m next : ManifestSnapshot) : Prop :=
  (next.immutableWalNumber = m.immutableWalNumber ∧ next.activeWalNumber = m.activeWalNumber) ∨
    next.immutableWalNumber = m.activeWalNumber ∧ m.nextFileNumber < next.activeWalNumber

variable {m next : ManifestSnapshot} {n : ℕ}

theorem Valid.namesWal_lt (h : m.Valid) (hn : m.NamesWal n) : n < m.nextFileNumber := by
  rcases hn with rfl | ⟨-, rfl⟩
  · exact h.active_lt
  · exact h.immutable_lt

theorem WalsFollow.namesWal (h : m.WalsFollow next) (hn : n < m.nextFileNumber)
    (hold : ¬ m.NamesWal n) : ¬ next.NamesWal n := by
  unfold NamesWal at hold ⊢
  rcases h with h | h <;> omega

theorem WalsFollow.flushNumber (h : m.WalsFollow next) (hn : n < m.nextFileNumber)
    (hold : ¬ m.FlushNumber n) : ¬ next.FlushNumber n := by
  unfold FlushNumber at hold ⊢
  rcases h with h | h <;> omega

theorem WalsFollow.freeOfWals (h : m.WalsFollow next) (hn : n < m.nextFileNumber)
    (hold : m.FreeOfWals n) : next.FreeOfWals n :=
  ⟨h.namesWal hn hold.wal, h.flushNumber hn hold.flush⟩

theorem FreeOfWals.congr (h : m.FreeOfWals n)
    (himmutable : next.immutableWalNumber = m.immutableWalNumber)
    (hactive : next.activeWalNumber = m.activeWalNumber) : next.FreeOfWals n := by
  obtain ⟨hwal, hflush⟩ := h
  unfold NamesWal at hwal
  unfold FlushNumber at hflush
  rw [← himmutable, ← hactive] at hwal hflush
  exact ⟨hwal, hflush⟩

/-- Behind a flush only the active WAL is left. -/
theorem FreeOfWals.of_ne_active (himmutable : m.immutableWalNumber = 0)
    (hactive : n ≠ m.activeWalNumber) : m.FreeOfWals n where
  wal := by
    rintro (rfl | ⟨h0, -⟩)
    · exact hactive rfl
    · exact h0 himmutable
  flush hflush := hflush.1 himmutable

end ManifestSnapshot

/-- A complete table file of the current version. -/
structure File.IsTable (f : File) : Prop where
  synced : f.synced = f.data.length
  version : ∀ number reader, SSTableReader.open f.data number = .ok reader →
    reader.version = kSstableVersion

/-- What the program leaves in a directory. -/
structure Directory.Sound (d : Directory) : Prop where
  manifest : ∀ m, d.manifest = some m → m.KeepsFlushNumber
  tables : ∀ number f, d.files (.sst number) = some f → f.IsTable

/-- The property holds of the directory behind every operation since `d₀`. -/
structure Handle.Always (G : Directory → Prop) (d₀ : Directory) (h : Handle) : Prop where
  replayed : h.trace.foldl DirOp.apply d₀ = h.dir
  holds : ∀ ops, ops <+: h.trace → G (ops.foldl DirOp.apply d₀)

namespace Handle.Always

variable {G : Directory → Prop} {d₀ : Directory} {h : Handle}

theorem now (ha : h.Always G d₀) : G h.dir := by
  rw [← ha.replayed]
  exact ha.holds _ (List.prefix_refl _)

theorem perform {op : DirOp} (ha : h.Always G d₀) (hop : G (op.apply h.dir)) :
    (h.perform op).Always G d₀ := by
  have hreplayed : (h.trace ++ [op]).foldl DirOp.apply d₀ = op.apply h.dir := by
    rw [List.foldl_append, ha.replayed]
    rfl
  refine ⟨hreplayed, fun ops hops => ?_⟩
  rcases List.prefix_concat_iff.mp hops with rfl | hops
  · rw [hreplayed]
    exact hop
  · exact ha.holds ops hops

end Handle.Always

/-- Operations on WALs and temporary files, removals and directory syncs. -/
def DirOp.Benign : DirOp → Prop
  | create name | append name _ | sync name | truncate name _ => ∀ number, name ≠ .sst number
  | remove _ | syncDir => True
  | rename _ _ | publish _ => False

namespace Directory.Sound

variable {d : Directory}

theorem benign {op : DirOp} (hop : op.Benign) (hs : d.Sound) : (op.apply d).Sound := by
  have hkeeps : ∀ number, (op.apply d).files (.sst number) = d.files (.sst number) ∨
      (op.apply d).files (.sst number) = none := by
    intro number
    refine Directory.Keeps.apply op d _ fun hw => ?_
    cases op with
    | create name | append name | sync name | truncate name => exact hop number hw.symm
    | rename => exact hop
    | remove | syncDir => exact hw
    | publish => exact hop
  have hmanifest : (op.apply d).manifest = d.manifest := by
    cases op <;> first | rfl | exact hop.elim
  refine ⟨fun m hm => hs.manifest m (hmanifest ▸ hm), fun number f hf => ?_⟩
  rcases hkeeps number with heq | hnone
  · exact hs.tables number f (heq ▸ hf)
  · rw [hnone] at hf
    cases hf

theorem publish {next : ManifestSnapshot} (hnext : next.KeepsFlushNumber) (hs : d.Sound) :
    ((DirOp.publish next).apply d).Sound :=
  ⟨fun m hm => by cases hm; exact hnext, hs.tables⟩

theorem rename {number : ℕ} (hfile : ∀ f, d.files (.sstTmp number) = some f → f.IsTable)
    (hs : d.Sound) : ((DirOp.rename (.sstTmp number) (.sst number)).apply d).Sound := by
  cases htmp : d.files (.sstTmp number) with
  | none =>
    have : (DirOp.rename (.sstTmp number) (.sst number)).apply d = d := by simp [DirOp.apply, htmp]
    rwa [this]
  | some f =>
    refine ⟨fun m hm => hs.manifest m (by simpa [DirOp.apply, htmp] using hm), fun n g hg => ?_⟩
    simp only [DirOp.apply, htmp] at hg
    rw [Function.update_of_ne (by simp)] at hg
    by_cases hn : n = number
    · subst hn
      rw [Function.update_self] at hg
      cases hg
      exact hfile f htmp
    · rw [Function.update_of_ne (by simpa using hn)] at hg
      exact hs.tables n g hg

end Directory.Sound

/-- A built table is one. -/
theorem isTable_tableBytes {o : Options} {entries : List InternalEntry} {info : BuiltTableInfo}
    (h : (buildTable o.sstableBlockBytes o.sstableRestartInterval entries).2 = .ok info) :
    File.IsTable ⟨Handle.tableBytes o entries, (Handle.tableBytes o entries).length⟩ where
  synced := rfl
  version _ _ hopen := buildTable_version (Prod.ext rfl h) hopen

namespace Handle.Always

variable {d₀ : Directory} {h h' : Handle}

theorem benign {op : DirOp} (hop : op.Benign) (ha : h.Always Directory.Sound d₀) :
    (h.perform op).Always Directory.Sound d₀ :=
  ha.perform (ha.now.benign hop)

theorem congr {G : Directory → Prop} (ha : h.Always G d₀) (hdir : h'.dir = h.dir)
    (htrace : h'.trace = h.trace) : h'.Always G d₀ := by
  refine ⟨?_, ?_⟩
  · rw [htrace, hdir]
    exact ha.replayed
  · rw [htrace]
    exact ha.holds

theorem bestEffortRemove (ha : h.Always Directory.Sound d₀) (name : FileName) (fails : Bool) :
    (h.bestEffortRemove name fails).Always Directory.Sound d₀ := by
  unfold Handle.bestEffortRemove
  split
  · split
    · exact ha
    · exact ha.congr rfl rfl
  · exact ha.benign trivial

theorem removeAll (ha : h.Always Directory.Sound d₀) (names : List FileName)
    (fails : FileName → Bool) : (h.removeAll names fails).Always Directory.Sound d₀ := by
  unfold Handle.removeAll
  induction names generalizing h with
  | nil => exact ha
  | cons name names ih => exact ih (ha.bestEffortRemove name (fails name))

theorem cleanupObsoleteFiles (ha : h.Always Directory.Sound d₀) (listed : Option (List FileName))
    (fails : FileName → Bool) : (h.cleanupObsoleteFiles listed fails).Always Directory.Sound d₀ := by
  have hcleared : Handle.Always Directory.Sound d₀ { h with pendingCleanup := [] } := ha.congr rfl rfl
  have hpending := hcleared.removeAll h.pendingCleanup fails
  cases listed with
  | none => exact hpending
  | some names => exact hpending.removeAll _ _

end Handle.Always

/-! ## Allocation -/

namespace Worker

/-- The output number of a running compaction. -/
def compactionNumber? : Worker → Option ℕ
  | merging job | compacting job _ _ | dropping job => some job.number
  | _ => none

/-- The job of a running flush. -/
def flushJob? : Worker → Option FlushJob
  | flushing job _ => some job
  | _ => none

end Worker

/-- The reader is one of the table, of the current version and validated. -/
structure Table.Readable (t : Table) : Prop where
  number_eq : t.reader.tableNumber = t.number
  version : t.reader.version = kSstableVersion
  validated : ∃ properties, t.reader.validateAndGetProperties = .ok properties

theorem Output.Built.readable {o : Options} {number : ℕ} {entries : List InternalEntry}
    {out : Output} (h : out.Built o number entries) : out.table.Readable where
  number_eq := (SSTableReader.open_tableNumber h.opened).trans h.number_eq.symm
  version := buildTable_version (Prod.ext rfl h.built) h.opened
  validated := ⟨_, h.validated⟩

/-- The tables that were ever live are numbered apart, and so are the numbers in use. `readers` are
those tables. -/
structure Allocated (o : Options) (d₀ : Directory) (h : Handle) (w : Worker) (readers : Set Table) :
    Prop where
  valid : h.manifest.Valid
  numbers : h.tables.map Table.number = h.manifest.liveTables.map TableMeta.fileNumber
  live : ∀ t ∈ h.tables, t ∈ readers
  lt_next : ∀ t ∈ readers, t.number < h.manifest.nextFileNumber
  unique : ∀ t ∈ readers, ∀ t' ∈ readers, t.number = t'.number → t = t'
  readable : ∀ t ∈ readers, t.Readable
  pending : ∀ n, h.manifest.NamesWal n → ¬ h.manifest.FlushNumber n
  free : ∀ t ∈ readers, h.manifest.FreeOfWals t.number
  flush : ∀ job, w.flushJob? = some job → job.tableNumber < h.manifest.nextFileNumber ∧
    (∀ t ∈ readers, t.number ≠ job.tableNumber) ∧ ¬ h.manifest.NamesWal job.tableNumber
  compaction : ∀ number, w.compactionNumber? = some number → number < h.manifest.nextFileNumber ∧
    (∀ t ∈ readers, t.number ≠ number) ∧ h.manifest.FreeOfWals number
  builds : w.Builds o h.dir
  always : h.Always Directory.Sound d₀

namespace Allocated

variable {o : Options} {d₀ : Directory} {h h' : Handle} {w w' : Worker} {readers : Set Table}

/-- Only the Manifest, the tables and the files matter. -/
theorem congr (ha : Allocated o d₀ h w readers) (hmanifest : h'.manifest = h.manifest)
    (htables : h'.tables = h.tables) (hdir : h'.dir = h.dir) (htrace : h'.trace = h.trace) :
    Allocated o d₀ h' w readers := by
  refine ⟨hmanifest ▸ ha.valid, ?_, htables ▸ ha.live, hmanifest ▸ ha.lt_next, ha.unique,
    ha.readable, hmanifest ▸ ha.pending, hmanifest ▸ ha.free, hmanifest ▸ ha.flush,
    hmanifest ▸ ha.compaction, hdir ▸ ha.builds, ha.always.congr hdir htrace⟩
  rw [htables, hmanifest]
  exact ha.numbers

/-- The directory changes, and the output of the worker does not, except that it may be removed. -/
theorem files (ha : Allocated o d₀ h w readers) (hfiles : h.OnlyFiles h')
    (hbuilds : w.Builds o h'.dir) (halways : h'.Always Directory.Sound d₀) :
    Allocated o d₀ h' w readers := by
  obtain ⟨d, t, p, rfl⟩ := hfiles
  exact ⟨ha.valid, ha.numbers, ha.live, ha.lt_next, ha.unique, ha.readable, ha.pending,
    ha.free, ha.flush, ha.compaction, hbuilds, halways⟩

theorem builds_keeps (ha : Allocated o d₀ h w readers) {S : FileName → Prop} {d' : Directory}
    (hk : h.dir.Keeps S d')
    (hS : ∀ number, number < h.manifest.nextFileNumber → ¬ S (.sstTmp number) ∧ ¬ S (.sst number)) :
    w.Builds o d' := by
  have hb := ha.builds
  cases w with
  | flushing job phase =>
    obtain ⟨htmp, hsst⟩ := hS _ (ha.flush job rfl).1
    exact BuildPhase.Holds.keeps hk htmp hsst hb
  | compacting job entries phase =>
    obtain ⟨htmp, hsst⟩ := hS _ (ha.compaction job.number rfl).1
    exact BuildPhase.Holds.keeps hk htmp hsst hb
  | _ => trivial

theorem not_isWal {number : ℕ} :
    ¬ FileName.IsWal (.sstTmp number) ∧ ¬ FileName.IsWal (.sst number) := by
  constructor
  · rintro ⟨n, hn⟩
    cases hn
  · rintro ⟨n, hn⟩
    cases hn

/-- An operation on a WAL, a removal or a directory sync. -/
theorem perform (ha : Allocated o d₀ h w readers) {op : DirOp}
    (hwal : ∀ name, op.writes name → name.IsWal) (hbenign : op.Benign) :
    Allocated o d₀ (h.perform op) w readers :=
  ha.files (.perform h op) (ha.builds_keeps (Handle.keeps_perform h op hwal) fun _ _ => not_isWal)
    (ha.always.benign hbenign)

/-- Files are removed. -/
theorem removed (ha : Allocated o d₀ h w readers) (hfiles : h.OnlyFiles h')
    (hkeeps : h.dir.Keeps FileName.IsWal h'.dir) (halways : h'.Always Directory.Sound d₀) :
    Allocated o d₀ h' w readers :=
  ha.files hfiles (ha.builds_keeps hkeeps fun _ _ => not_isWal) halways

theorem bestEffortRemove (ha : Allocated o d₀ h w readers) (name : FileName) (fails : Bool) :
    Allocated o d₀ (h.bestEffortRemove name fails) w readers :=
  ha.removed (.bestEffortRemove h name fails) (Handle.keeps_bestEffortRemove _ h name fails)
    (ha.always.bestEffortRemove name fails)

theorem removeAll (ha : Allocated o d₀ h w readers) (names : List FileName)
    (fails : FileName → Bool) : Allocated o d₀ (h.removeAll names fails) w readers :=
  ha.removed (.removeAll names fails h) (Handle.keeps_removeAll _ names fails h)
    (ha.always.removeAll names fails)

theorem cleanupObsoleteFiles (ha : Allocated o d₀ h w readers) (listed : Option (List FileName))
    (fails : FileName → Bool) : Allocated o d₀ (h.cleanupObsoleteFiles listed fails) w readers :=
  ha.removed (.cleanupObsoleteFiles h listed fails)
    (Handle.keeps_cleanupObsoleteFiles _ h listed fails) (ha.always.cleanupObsoleteFiles listed fails)

/-! ## Publishing -/

theorem keepsFlushNumber (ha : Allocated o d₀ h w readers) : h.manifest.KeepsFlushNumber := by
  refine ⟨ha.pending, fun t ht => ?_⟩
  have hmem : t.fileNumber ∈ h.tables.map Table.number := by
    rw [ha.numbers]
    exact List.mem_map_of_mem ht
  obtain ⟨u, hu, hnumber⟩ := List.mem_map.mp hmem
  rw [← hnumber]
  exact ha.free u (ha.live u hu)

theorem publish (ha : Allocated o d₀ h w readers) {next : ManifestSnapshot}
    (hnext : next.KeepsFlushNumber) : Allocated o d₀ (h.perform (.publish next)) w readers :=
  ha.files (.perform h _) (ha.builds_keeps (Handle.keeps_publish FileName.IsWal h next)
    fun _ _ => not_isWal) (ha.always.perform (ha.always.now.publish hnext))

theorem terminal (ha : Allocated o d₀ h w readers) (status : Status) :
    Allocated o d₀ { h with terminalError := some status } w readers :=
  ha.congr rfl rfl rfl rfl

/-- The files behind a durable Manifest. -/
theorem withManifest_files (ha : Allocated o d₀ h w readers) {next : ManifestSnapshot}
    (hnext : next.KeepsFlushNumber) :
    w.Builds o (h.withManifest next).dir ∧ (h.withManifest next).Always Directory.Sound d₀ := by
  have hsynced : Allocated o d₀ ((h.perform (.publish next)).perform .syncDir) w readers :=
    (ha.publish hnext).perform (fun _ hw => hw.elim) trivial
  exact ⟨hsynced.builds, hsynced.always.replayed, hsynced.always.holds⟩

/-- A Manifest with the same tables, whose WALs are the old ones or new. -/
theorem withManifest (ha : Allocated o d₀ h w readers) {next : ManifestSnapshot}
    (hvalid : next.Valid) (hlive : next.liveTables = h.manifest.liveTables)
    (hle : h.manifest.nextFileNumber ≤ next.nextFileNumber)
    (hwals : h.manifest.WalsFollow next) : Allocated o d₀ (h.withManifest next) w readers := by
  have hpending : ∀ n, next.NamesWal n → ¬ next.FlushNumber n := by
    intro n hwal
    by_cases hn : h.manifest.NamesWal n
    · have hlt := ha.valid.namesWal_lt hn
      exact hwals.flushNumber hlt (ha.pending n hn)
    · intro hflush
      have hactive := ha.valid.active_lt
      unfold ManifestSnapshot.NamesWal at hn hwal
      unfold ManifestSnapshot.FlushNumber at hflush
      rcases hwals with h | h <;> omega
  have hnext : next.KeepsFlushNumber := by
    refine ⟨hpending, fun t ht => ?_⟩
    rw [hlive] at ht
    exact hwals.freeOfWals (ha.valid.tables t ht).number_lt (ha.keepsFlushNumber.tables t ht)
  obtain ⟨hbuilds, halways⟩ := ha.withManifest_files hnext
  refine ⟨hvalid, ?_, ha.live, fun t ht => (ha.lt_next t ht).trans_le hle, ha.unique,
    ha.readable, hpending, fun t ht => hwals.freeOfWals (ha.lt_next t ht) (ha.free t ht),
    fun job hjob => ?_, fun number hnumber => ?_, hbuilds, halways⟩
  · exact ha.numbers.trans (by rw [Handle.withManifest_manifest, hlive])
  · obtain ⟨hlt, hfresh, hold⟩ := ha.flush job hjob
    exact ⟨hlt.trans_le hle, hfresh, hwals.namesWal hlt hold⟩
  · obtain ⟨hlt, hne, hold⟩ := ha.compaction number hnumber
    exact ⟨hlt.trans_le hle, hne, hwals.freeOfWals hlt hold⟩

theorem withWal (ha : Allocated o d₀ h w readers) : Allocated o d₀ h.withWal w readers := by
  have hcreated : Allocated o d₀ (h.perform (.create (.wal (h.manifest.nextFileNumber + 1)))) w
      readers :=
    ha.perform (fun _ hw => ⟨_, hw⟩) (by simp [DirOp.Benign])
  exact hcreated.perform (fun _ hw => ⟨_, hw⟩) (by simp [DirOp.Benign])

theorem rotate {fault : Option RotateFault} {status : Status}
    (hr : h.rotateMemTable fault = (h', status)) (ha : Allocated o d₀ h w readers) :
    Allocated o d₀ h' w readers := by
  have hmanifest : h.withWal.manifest = h.manifest := by simp [Handle.withWal]
  rcases Handle.rotateMemTable_cases hr with
    ⟨hwal, -⟩ | ⟨rfl, -⟩ | ⟨rfl, -, -, -, -, bytes, hencode⟩
  · cases hwal with
    | start => exact ha
    | created => exact ha.perform (fun _ hw => ⟨_, hw⟩) (by simp [DirOp.Benign])
    | synced => exact ha.withWal
  · refine (ha.withWal.publish ⟨fun n hwal hflush => ?_, fun t ht => ?_⟩).terminal status
    · have hactive := ha.valid.active_lt
      simp only [ManifestSnapshot.NamesWal, ManifestSnapshot.FlushNumber, Handle.rotatedManifest]
        at hwal hflush
      omega
    · exact ManifestSnapshot.WalsFollow.freeOfWals (.inr ⟨rfl, Nat.lt_succ_self _⟩)
        (ha.valid.tables t ht).number_lt (ha.keepsFlushNumber.tables t ht)
  · have hrotated : Allocated o d₀ (h.withWal.withManifest (Handle.rotatedManifest h.manifest)) w
        readers :=
      ha.withWal.withManifest (valid_of_encodeManifest hencode) (by rw [hmanifest]; rfl)
        (by simp only [hmanifest, Handle.rotatedManifest]; omega)
        (.inr ⟨by rw [hmanifest]; rfl, by rw [hmanifest]; exact Nat.lt_succ_self _⟩)
    exact hrotated.congr rfl rfl rfl rfl

/-! ## The worker -/

/-- The worker stands where it uses no number. -/
theorem idle (ha : Allocated o d₀ h w readers) (hflush : w'.flushJob? = none)
    (hcompaction : w'.compactionNumber? = none) : Allocated o d₀ h w' readers := by
  refine ⟨ha.valid, ha.numbers, ha.live, ha.lt_next, ha.unique, ha.readable,
    ha.pending, ha.free, ?_, ?_, ?_, ha.always⟩
  · simp [hflush]
  · simp [hcompaction]
  · cases w' with
    | flushing => cases hflush
    | compacting => cases hcompaction
    | _ => trivial

/-- The tables that are or were live. -/
def grown (readers : Set Table) (h : Handle) : Set Table := readers ∪ { t | t ∈ h.tables }

theorem grow (ha : Allocated o d₀ h w readers) : Allocated o d₀ h w (grown readers h) := by
  have heq : grown readers h = readers := Set.union_eq_self_of_subset_right ha.live
  rwa [heq]

theorem commitFlush {job : FlushJob} {out : Output} {fault : Option PublishFault} {status : Status}
    (hr : h.commitFlush o job out fault = (h', status))
    (ha : Allocated o d₀ h (.flushing job (.ready out)) readers) (hflush : w'.flushJob? = none)
    (hcompaction : w'.compactionNumber? = none) :
    Allocated o d₀ h' w' (grown readers h') := by
  obtain ⟨hlt, hfresh, hwal⟩ := ha.flush job rfl
  have hbuilt : out.Built o job.tableNumber job.entries := ha.builds.1
  have hnumber := hbuilt.number_eq
  have hnext : (Handle.flushedManifest h.manifest out).KeepsFlushNumber := by
    refine ⟨fun n _ hflush => hflush.1 rfl, fun t ht => .of_ne_active rfl ?_⟩
    show t.fileNumber ≠ h.manifest.activeWalNumber
    rcases List.mem_append.mp ht with ht | ht
    · exact fun heq => (ha.keepsFlushNumber.tables t ht).wal (.inl heq)
    · obtain rfl := List.mem_singleton.mp ht
      exact fun heq => hwal (.inl (hnumber.symm.trans heq))
  rcases Handle.commitFlush_cases hr with
    ⟨rfl, -⟩ | ⟨rfl, -⟩ | ⟨rfl, -, -, -, -, -, -, bytes, hencode⟩
  · exact (ha.idle hflush hcompaction).grow
  · exact (((ha.publish hnext).terminal status).idle hflush hcompaction).grow
  · rw [← hnumber] at hfresh
    obtain ⟨-, halways⟩ := ha.withManifest_files hnext
    have hmem : ∀ t ∈ grown readers ((h.withManifest
        (Handle.flushedManifest h.manifest out)).installFlush o out), t ∈ readers ∨ t = out.table := by
      rintro t (ht | ht)
      · exact .inl ht
      · rcases List.mem_append.mp ht with ht | ht
        · exact .inl (ha.live t ht)
        · exact .inr (List.mem_singleton.mp ht)
    have hinstalled : Allocated o d₀ ((h.withManifest
        (Handle.flushedManifest h.manifest out)).installFlush o out) .waiting
        (grown readers ((h.withManifest (Handle.flushedManifest h.manifest out)).installFlush o out)) := by
      refine ⟨valid_of_encodeManifest hencode, ?_, fun t ht => .inr ht, fun t ht => ?_,
        fun t ht t' ht' heq => ?_, fun t ht => ?_, hnext.wal, fun t ht => .of_ne_active rfl ?_,
        by intros; contradiction, by intros; contradiction, trivial, halways.replayed,
        halways.holds⟩
      · show (h.tables ++ [out.table]).map Table.number =
          (h.manifest.liveTables ++ [out.tableMeta]).map TableMeta.fileNumber
        rw [List.map_append, List.map_append, ha.numbers]
        rfl
      · rcases hmem t ht with ht | rfl
        · exact ha.lt_next t ht
        · exact hnumber ▸ hlt
      · rcases hmem t ht with ht | rfl <;> rcases hmem t' ht' with ht' | rfl
        · exact ha.unique t ht t' ht' heq
        · exact absurd heq (hfresh t ht)
        · exact absurd heq.symm (hfresh t' ht')
        · rfl
      · rcases hmem t ht with ht | rfl
        · exact ha.readable t ht
        · exact hbuilt.readable
      · show t.number ≠ h.manifest.activeWalNumber
        rcases hmem t ht with ht | rfl
        · exact fun heq => (ha.free t ht).wal (.inl heq)
        · exact fun heq => hwal (.inl (hnumber.symm.trans heq))
    exact hinstalled.idle hflush hcompaction

theorem reserved_valid {m : ManifestSnapshot} (hm : m.Valid) : (Handle.reservedManifest m).Valid where
  active_pos := hm.active_pos
  wals_ne := hm.wals_ne
  active_lt := hm.active_lt.trans (Nat.lt_succ_self _)
  immutable_lt := hm.immutable_lt.trans (Nat.lt_succ_self _)
  tables t ht :=
    have h := hm.tables t ht
    ⟨h.1, h.2, h.3, h.4.trans (Nat.lt_succ_self _), h.5, h.6, h.7, h.8, h.9, h.10⟩
  numbers := hm.numbers
  increasing := hm.increasing

/-- The next number is free. -/
theorem next_free (ha : Allocated o d₀ h w readers) :
    h.manifest.FreeOfWals h.manifest.nextFileNumber := by
  refine ⟨fun hwal => (ha.valid.namesWal_lt hwal).false, fun hflush => ?_⟩
  have hactive := ha.valid.active_lt
  unfold ManifestSnapshot.FlushNumber at hflush
  omega

theorem beginCompaction {fault : Option PublishFault} {r : Except Status CompactionJob}
    (hr : h.beginBackgroundCompaction o fault = (h', r)) (ha : Allocated o d₀ h w readers) :
    Allocated o d₀ h' (System.continued false .merging r) readers := by
  rcases Handle.beginBackgroundCompaction_cases hr with
    ⟨rfl, status, rfl⟩ | ⟨status, rfl, rfl, -⟩ | ⟨rfl, rfl, -⟩
  · exact ha.idle rfl rfl
  · have hpublished : Allocated o d₀ (h.perform (.publish (Handle.reservedManifest h.manifest))) w
        readers :=
      ha.publish ⟨ha.keepsFlushNumber.wal, fun t ht =>
        (ha.keepsFlushNumber.tables t ht).congr rfl rfl⟩
    exact (hpublished.terminal status).idle rfl rfl
  · have hreserved : Allocated o d₀ (h.withManifest (Handle.reservedManifest h.manifest)) w readers :=
      ha.withManifest (reserved_valid ha.valid) rfl (Nat.le_succ _) (.inl ⟨rfl, rfl⟩)
    refine ⟨hreserved.valid, hreserved.numbers, hreserved.live, hreserved.lt_next, hreserved.unique,
      hreserved.readable, hreserved.pending, hreserved.free, by intros; contradiction,
      fun number hnumber => ?_, trivial, hreserved.always⟩
    obtain rfl : h.manifest.nextFileNumber = number := Option.some.inj hnumber
    exact ⟨Nat.lt_succ_self _, fun t ht => (ha.lt_next t ht).ne, ha.next_free.congr rfl rfl⟩

/-- Numbers in use stay below the next one. -/
theorem lt_compacted_next {m : ManifestSnapshot} {job : CompactionJob}
    {replacement : Option Output} {n : ℕ} (hn : n < m.nextFileNumber) (hne : n ≠ job.number) :
    n < (Handle.compactedManifest m job replacement).nextFileNumber := by
  cases replacement with
  | none =>
    simp only [Handle.compactedManifest]
    split <;> omega
  | some out =>
    simp only [Handle.compactedManifest]
    split <;> omega

theorem lt_compacted_next_some {m : ManifestSnapshot} {job : CompactionJob} {out : Output}
    (hle : job.number ≤ m.nextFileNumber) :
    job.number < (Handle.compactedManifest m job (some out)).nextFileNumber := by
  simp only [Handle.compactedManifest]
  split <;> omega

/-- The last region of a compaction whose output number is fresh. -/
theorem commitCompaction {job : CompactionJob} {replacement : Option Output}
    {fault : Option PublishFault} {fails : FileName → Bool} {status : Status}
    (hr : h.commitCompaction job replacement fault fails = (h', status))
    (ha : Allocated o d₀ h w readers)
    (hbuilt : ∀ out, replacement = some out → ∃ entries, out.Built o job.number entries)
    (hle : job.number ≤ h.manifest.nextFileNumber)
    (hfresh : ∀ t ∈ readers, t.number ≠ job.number)
    (hfree : h.manifest.FreeOfWals job.number)
    (hworker : (w.flushJob? = none ∧ w.compactionNumber? = none) ∨
      job.number = h.manifest.nextFileNumber) :
    Allocated o d₀ h' w (grown readers h') := by
  have hnumber : ∀ out, replacement = some out → out.table.number = job.number := by
    intro out hout
    obtain ⟨entries, hb⟩ := hbuilt out hout
    exact hb.number_eq
  have hdrop : ∀ t ∈ h.manifest.liveTables.drop job.metas.length,
      h.manifest.FreeOfWals t.fileNumber := fun t ht =>
    ha.keepsFlushNumber.tables t (List.mem_of_mem_drop ht)
  have hnext : (Handle.compactedManifest h.manifest job replacement).KeepsFlushNumber := by
    cases replacement with
    | none => exact ⟨ha.pending, fun t ht => (hdrop t ht).congr rfl rfl⟩
    | some out =>
      refine ⟨ha.pending, fun t ht => ?_⟩
      rcases List.mem_cons.mp ht with rfl | ht
      · have hout : h.manifest.FreeOfWals out.table.number := (hnumber out rfl).symm ▸ hfree
        exact hout.congr rfl rfl
      · exact (hdrop t ht).congr rfl rfl
  rcases Handle.commitCompaction_cases hr with
    ⟨rfl, -⟩ | ⟨rfl, -⟩ | ⟨rfl, -, -, -, -, -, bytes, hencode⟩
  · exact ha.grow
  · exact ((ha.publish hnext).terminal status).grow
  · set next := Handle.compactedManifest h.manifest job replacement with hnextdef
    set h₁ : Handle := { h.withManifest next with
      tables := (replacement.map Output.table).toList ++ h.tables.drop job.metas.length } with hh₁
    have hmem : ∀ t ∈ grown readers h₁, t ∈ readers ∨ ∃ out, replacement = some out ∧ t = out.table := by
      rintro t (ht | ht)
      · exact .inl ht
      · rcases List.mem_append.mp ht with ht | ht
        · obtain ⟨out, hout, rfl⟩ := Option.map_eq_some_iff.mp (Option.mem_toList.mp ht)
          exact .inr ⟨out, hout, rfl⟩
        · exact .inl (ha.live t (List.mem_of_mem_drop ht))
    obtain ⟨hbuilds, halways⟩ := ha.withManifest_files hnext
    have hactive : next.activeWalNumber = h.manifest.activeWalNumber := by
      cases replacement <;> rfl
    have himmutable : next.immutableWalNumber = h.manifest.immutableWalNumber := by
      cases replacement <;> rfl
    have hlt : ∀ t ∈ grown readers h₁, t.number < next.nextFileNumber := by
      intro t ht
      rcases hmem t ht with ht | ⟨out, rfl, rfl⟩
      · exact lt_compacted_next (ha.lt_next t ht) (hfresh t ht)
      · rw [hnumber out rfl]
        exact lt_compacted_next_some hle
    have hsame : (∃ n, w.flushJob? = some n) ∨ (∃ n, w.compactionNumber? = some n) →
        job.number = h.manifest.nextFileNumber := by
      rintro hsome
      refine hworker.resolve_left ?_
      rintro ⟨h1, h2⟩
      simp [h1, h2] at hsome
    have hinstalled : Allocated o d₀ h₁ w (grown readers h₁) := by
      refine ⟨valid_of_encodeManifest hencode, ?_, fun t ht => .inr ht, hlt,
        fun t ht t' ht' heq => ?_, fun t ht => ?_, hnext.wal, fun t ht => ?_,
        fun flush hflush => ?_, fun number hn => ?_, hbuilds, halways.replayed, halways.holds⟩
      · have hdrop := congrArg (List.drop job.metas.length) ha.numbers
        rw [← List.map_drop, ← List.map_drop] at hdrop
        show ((replacement.map Output.table).toList ++ h.tables.drop job.metas.length).map
          Table.number = next.liveTables.map TableMeta.fileNumber
        cases replacement with
        | none => exact hdrop
        | some out => exact congrArg (List.cons out.table.number) hdrop
      · rcases hmem t ht with ht | ⟨out, hout, rfl⟩ <;> rcases hmem t' ht' with ht' | ⟨out', hout', rfl⟩
        · exact ha.unique t ht t' ht' heq
        · exact absurd (heq.trans (hnumber out' hout')) (hfresh t ht)
        · exact absurd (heq.symm.trans (hnumber out hout)) (hfresh t' ht')
        · rw [hout] at hout'
          cases hout'
          rfl
      · rcases hmem t ht with ht | ⟨out, hout, rfl⟩
        · exact ha.readable t ht
        · obtain ⟨entries, hb⟩ := hbuilt out hout
          exact hb.readable
      · refine ManifestSnapshot.FreeOfWals.congr (m := h.manifest) ?_ himmutable hactive
        rcases hmem t ht with ht | ⟨out, hout, rfl⟩
        · exact ha.free t ht
        · rw [hnumber out hout]
          exact hfree
      · have heq := hsame (.inl ⟨flush, hflush⟩)
        obtain ⟨hflt, hffresh, hfwal⟩ := ha.flush flush hflush
        refine ⟨lt_compacted_next hflt (by omega), fun t ht => ?_, ?_⟩
        · rcases hmem t ht with ht | ⟨out, hout, rfl⟩
          · exact hffresh t ht
          · rw [hnumber out hout]
            omega
        · exact ManifestSnapshot.WalsFollow.namesWal (.inl ⟨himmutable, hactive⟩) hflt hfwal
      · have heq := hsame (.inr ⟨number, hn⟩)
        obtain ⟨hnlt, hne, hnfree⟩ := ha.compaction number hn
        refine ⟨lt_compacted_next hnlt (by omega), fun t ht => ?_, hnfree.congr himmutable hactive⟩
        rcases hmem t ht with ht | ⟨out, hout, rfl⟩
        · exact hne t ht
        · rw [hnumber out hout]
          omega
    have hremoved := hinstalled.removeAll (job.metas.map fun t : TableMeta => .sst t.fileNumber) fails
    have hgrown : ∀ h₂, h₁.OnlyFiles h₂ → grown readers h₂ = grown readers h₁ := by
      rintro h₂ ⟨d, t, p, rfl⟩
      rfl
    rw [← hgrown _ (.removeAll _ _ _)] at hremoved
    exact hremoved

/-! ## Builds -/

theorem always_buildsTo {checked : Output → Option Status} {number : ℕ}
    {entries : List InternalEntry} {phase phase' : BuildPhase}
    (hb : Handle.BuildsTo o checked number entries h phase h' phase')
    (hp : phase.Holds o number entries h.dir) (halways : h.Always Directory.Sound d₀) :
    h'.Always Directory.Sound d₀ := by
  cases hb with
  | create => exact halways.benign (by simp [DirOp.Benign])
  | write =>
    have happended : (h.perform (.append (.sstTmp number) (Handle.tableBytes o entries))).Always
        Directory.Sound d₀ :=
      halways.benign (by simp [DirOp.Benign])
    exact happended.benign (by simp [DirOp.Benign])
  | verify => exact halways
  | rename =>
    refine halways.perform (halways.now.rename fun f hf => ?_)
    obtain ⟨hbuilt, hnone | hholds⟩ := hp
    · rw [hnone] at hf
      cases hf
    · rw [hholds] at hf
      cases hf
      exact isTable_tableBytes hbuilt.built
  | syncDir => exact halways.benign trivial

/-- The worker builds its output. -/
theorem buildsTo (ha : Allocated o d₀ h w readers) {checked : Output → Option Status} {number : ℕ}
    {entries : List InternalEntry} {phase phase' : BuildPhase}
    (hb : Handle.BuildsTo o checked number entries h phase h' phase')
    (hp : phase.Holds o number entries h.dir) (hflush : w'.flushJob? = w.flushJob?)
    (hcompaction : w'.compactionNumber? = w.compactionNumber?) (hbuilds : w'.Builds o h'.dir) :
    Allocated o d₀ h' w' readers := by
  have halways := always_buildsTo hb hp ha.always
  obtain ⟨d, t, p, rfl⟩ := hb.onlyFiles
  exact ⟨ha.valid, ha.numbers, ha.live, ha.lt_next, ha.unique, ha.readable, ha.pending, ha.free,
    hflush ▸ ha.flush, hcompaction ▸ ha.compaction, hbuilds, halways⟩

/-- A build failed behind some bytes. -/
theorem failedWrite (ha : Allocated o d₀ h w readers) {number : ℕ} {bytes : Bytes}
    (hflush : w'.flushJob? = none) (hcompaction : w'.compactionNumber? = none) :
    Allocated o d₀ (h.perform (.append (.sstTmp number) bytes)) w' readers := by
  have hidle := ha.idle hflush hcompaction
  refine hidle.files (.perform h _) ?_ (ha.always.benign (by simp [DirOp.Benign]))
  cases w' with
  | flushing => cases hflush
  | compacting => cases hcompaction
  | _ => trivial

/-- An explicit compaction builds the table of the next number, which no job of the worker uses. -/
theorem buildOutput {entries : List InternalEntry} {f : Handle.CompactFaults}
    {r : Except Status Output}
    (hr : h.buildOutput o h.manifest.nextFileNumber entries f = (h', r))
    (ha : Allocated o d₀ h w readers) :
    Allocated o d₀ h' w readers ∧ ∀ out, r = .ok out →
      out.Built o h.manifest.nextFileNumber entries := by
  set number := h.manifest.nextFileNumber with hnumber
  have hapart : ∀ n, n < number → ¬ FileName.IsTable number (.sstTmp n) ∧
      ¬ FileName.IsTable number (.sst n) := by
    intro n hn
    constructor
    · rintro (heq | heq) <;> cases heq
      exact lt_irrefl _ hn
    · rintro (heq | heq) <;> cases heq
      exact lt_irrefl _ hn
  have hrule := Handle.buildOutput_rule
    (fun phase h₁ => Allocated o d₀ h₁ w readers ∧ h₁.manifest.nextFileNumber = number ∧
      phase.Holds o number entries h₁.dir)
    (fun h₁ => Allocated o d₀ h₁ w readers) ?_ (fun _ _ hP => hP.1) ?_ hr ⟨ha, rfl, trivial⟩
  · cases r with
    | ok out => exact ⟨hrule.1, fun out' hout => by cases hout; exact hrule.2.2.1⟩
    | error status => exact ⟨hrule.2, by intros; contradiction⟩
  · rintro phase phase' h₁ h₂ hb ⟨ha₁, hn, hp⟩
    refine ⟨ha₁.buildsTo hb hp rfl rfl (ha₁.builds_keeps hb.keeps fun n hlt =>
      hapart n (hn ▸ hlt)), ?_, hp.step hb⟩
    obtain ⟨d, t, p, rfl⟩ := hb.onlyFiles
    exact hn
  · rintro h₁ ⟨ha₁, hn, -⟩
    have hk : h₁.dir.Keeps (FileName.IsTable number)
        (h₁.perform (.append (.sstTmp number) (Handle.tableBytes o entries))).dir :=
      Handle.keeps_perform h₁ _ fun _ hw => .inr hw
    exact ha₁.files (.perform h₁ _) (ha₁.builds_keeps hk fun n hlt => hapart n (hn ▸ hlt))
      (ha₁.always.benign (by simp [DirOp.Benign]))

theorem compactTablePrefix {inputCount : ℕ} {f : Handle.CompactFaults} {status : Status}
    (hr : h.compactTablePrefix o inputCount f = (h', status))
    (ha : Allocated o d₀ h w readers) : Allocated o d₀ h' w (grown readers h') := by
  have hcommit : ∀ {h₁ : Handle} {replacement : Option Output} {h' status},
      Allocated o d₀ h₁ w readers →
      (∀ out, replacement = some out → ∃ entries, out.Built o h₁.manifest.nextFileNumber entries) →
      ∀ {job : CompactionJob}, job.number = h₁.manifest.nextFileNumber →
      h₁.commitCompaction job replacement f.publish f.fails = (h', status) →
      Allocated o d₀ h' w (grown readers h') := by
    intro h₁ replacement h' status ha₁ hout job hjob hc
    refine commitCompaction hc ha₁ (fun out ho => hjob ▸ hout out ho) hjob.le
      (fun t ht => ?_) (hjob ▸ ha₁.next_free) (.inr hjob)
    rw [hjob]
    exact (ha₁.lt_next t ht).ne
  rcases Handle.compactTablePrefix_cases hr with
    ⟨rfl, -⟩ | ⟨-, h₁, rfl, rfl | ⟨_, -, -, hc⟩ | ⟨_, h₂, r, -, -, hbuild, hend⟩⟩
  · exact ha.grow
  · exact (ha.cleanupObsoleteFiles _ _).grow
  · exact hcommit (ha.cleanupObsoleteFiles _ _) (by intros; contradiction) rfl hc
  · obtain ⟨ha₂, hbuilt⟩ := (ha.cleanupObsoleteFiles _ _).buildOutput hbuild
    rcases hend with ⟨-, rfl⟩ | ⟨out, rfl, hc⟩
    · exact ha₂.grow
    · obtain ⟨d, t, p, rfl⟩ := Handle.OnlyFiles.buildOutput hbuild
      refine hcommit ha₂ (fun out' ho => ?_) rfl hc
      cases ho
      exact ⟨_, hbuilt out rfl⟩

/-! ## Runs -/

theorem applyWriteGroup [EntrySize] {group : List WriterRequest} {f : WriteFaults} {status : Status}
    (hr : h.applyWriteGroup o group f = some (h', status)) (ha : Allocated o d₀ h w readers) :
    Allocated o d₀ h' w readers := by
  refine Handle.applyWriteGroup_keeps (Allocated o d₀ · w readers) ?_
    (fun _ _ _ _ ha => ha.congr rfl rfl rfl rfl) (fun _ _ _ _ hr ha => ha.rotate hr) hr ha
  rintro h₁ op (rfl | ⟨bytes, rfl⟩) ha₁
  · exact ha₁.perform (fun _ hw => ⟨_, hw⟩) (by simp [DirOp.Benign])
  · exact ha₁.perform (fun _ hw => ⟨_, hw⟩) (by simp [DirOp.Benign])

theorem beginFlush {sweep : SweepFaults} {r : Except Status FlushJob}
    (hr : h.beginFlush sweep = (h', r)) (ha : Allocated o d₀ h w readers) :
    Allocated o d₀ h' (System.continued true (.flushing · .create) r) readers := by
  obtain ⟨hfiles, ⟨status, rfl, -⟩ | ⟨m, -, hwal, hactive, -, -, rfl, rfl⟩⟩ :=
    Handle.beginFlush_cases hr
  · have hswept : Allocated o d₀ h' w readers := by
      rcases Handle.beginFlush_dir hr with rfl | rfl
      · exact ha
      · exact ha.cleanupObsoleteFiles _ _
    exact hswept.idle rfl rfl
  · have hswept := ha.cleanupObsoleteFiles sweep.listed sweep.fails
    obtain ⟨d, t, p, heq⟩ := hfiles
    refine ⟨hswept.valid, hswept.numbers, hswept.live, hswept.lt_next, hswept.unique,
      hswept.readable, hswept.pending, hswept.free,
      fun job hjob => ?_, by intros; contradiction, trivial, hswept.always⟩
    cases hjob
    have hflush : h.manifest.FlushNumber (h.manifest.activeWalNumber - 1) := by
      unfold ManifestSnapshot.FlushNumber
      omega
    have hlt : h.manifest.activeWalNumber - 1 < h.manifest.nextFileNumber := by
      have := ha.valid.active_lt
      omega
    rw [heq]
    exact ⟨hlt, fun t ht hnumber => (ha.free t ht).flush (hnumber ▸ hflush),
      fun hnames => ha.pending _ hnames hflush⟩

theorem step [EntrySize] {faultFree : Bool} {s s' : System} (hstep : System.Step o faultFree s s')
    (ha : Allocated o d₀ s.handle s.worker readers) :
    Allocated o d₀ s'.handle s'.worker (grown readers s'.handle) := by
  cases hstep with
  | write f _ happly => exact (ha.applyWriteGroup happly).grow
  | getSnapshot | releaseSnapshot =>
    refine grow ?_
    exact ha.congr rfl rfl rfl rfl
  | workerExit => exact (ha.idle rfl rfl).grow
  | workerClaim =>
    have hclaimed : Allocated o d₀ s.handle.claim.1 s.worker readers := by
      simp only [Handle.claim]
      split
      · exact ha.congr rfl rfl rfl rfl
      · split <;> exact ha.congr rfl rfl rfl rfl
    refine (hclaimed.idle ?_ ?_).grow
    · simp only [Handle.claim]
      split
      · rfl
      · split <;> rfl
    · simp only [Handle.claim]
      split
      · rfl
      · split <;> rfl
  | flushBegin sweep _ _ hr => exact (ha.beginFlush hr).grow
  | @flushBuild job phase _ r fault _ hworker hphase hr =>
    rw [hworker] at ha
    refine grow ?_
    cases r with
    | ok phase' =>
      have hb := Handle.buildStep_ok hphase hr
      exact ha.buildsTo hb ha.builds rfl rfl (BuildPhase.Holds.step hb ha.builds)
    | error status =>
      rcases (Handle.buildStep_error (by simp) hr).2 with rfl | ⟨-, rfl⟩
      · exact ha.idle rfl rfl
      · exact ha.failedWrite rfl rfl
  | @flushCommit job out _ status fault _ hworker hr =>
    rw [hworker] at ha
    refine ha.commitFlush hr ?_ ?_
    · split <;> rfl
    · split <;> rfl
  | flushRemove fails => exact ((ha.bestEffortRemove _ _).idle rfl rfl).grow
  | compactBegin fault _ _ hr => exact (ha.beginCompaction hr).grow
  | @compactMerge job fault _ hworker =>
    rw [hworker] at ha
    refine grow ?_
    dsimp only
    split
    · exact ha.idle rfl rfl
    · exact ha.idle rfl rfl
    · split
      · exact ⟨ha.valid, ha.numbers, ha.live, ha.lt_next, ha.unique, ha.readable, ha.pending,
          ha.free, by intros; contradiction, ha.compaction, trivial, ha.always⟩
      · exact ⟨ha.valid, ha.numbers, ha.live, ha.lt_next, ha.unique, ha.readable, ha.pending,
          ha.free, by intros; contradiction, ha.compaction, trivial, ha.always⟩
  | @compactBuild job entries phase _ r fault _ hworker hphase hr =>
    rw [hworker] at ha
    refine grow ?_
    cases r with
    | ok phase' =>
      have hb := Handle.buildStep_ok hphase hr
      exact ha.buildsTo hb ha.builds rfl rfl (BuildPhase.Holds.step hb ha.builds)
    | error status =>
      rcases (Handle.buildStep_error Handle.compactionChecked_error hr).2 with rfl | ⟨-, rfl⟩
      · exact ha.idle rfl rfl
      · exact ha.failedWrite rfl rfl
  | @compactCommit job entries out _ status fault fails _ hworker hr =>
    rw [hworker] at ha
    obtain ⟨hlt, hfresh, hfree⟩ := ha.compaction job.number rfl
    refine commitCompaction hr (ha.idle rfl rfl) (fun out' ho => ?_) hlt.le hfresh hfree
      (.inl ⟨rfl, rfl⟩)
    cases ho
    exact ⟨_, ha.builds.1⟩
  | @compactDrop job _ status fault fails _ hworker hr =>
    rw [hworker] at ha
    obtain ⟨hlt, hfresh, hfree⟩ := ha.compaction job.number rfl
    exact commitCompaction hr (ha.idle rfl rfl) (by intros; contradiction) hlt.le hfresh hfree
      (.inl ⟨rfl, rfl⟩)
  | workerException => exact (ha.idle rfl rfl).grow
  | workerAccount =>
    refine (idle (w := s.worker) ?_ rfl rfl).grow
    simp only [Handle.account]
    repeat' split
    all_goals exact ha.congr rfl rfl rfl rfl
  | compactCall | compactResume | closeWake | next => exact ha.grow
  | compactRun f _ _ hr => exact ha.compactTablePrefix hr
  | closeCall =>
    split
    · exact ha.grow
    · refine grow ?_
      exact ha.congr rfl rfl rfl rfl
  | closeRound fault _ _ hr =>
    refine grow ?_
    unfold Handle.closeRound at hr
    split at hr
    · cases hr
      exact ha
    split at hr
    · cases hr
      exact ha
    split at hr
    · cases hr
      exact ha.congr rfl rfl rfl rfl
    split at hr
    · rcases hrotate : s.handle.rotateMemTable fault with ⟨h₁, s₁⟩
      have ha₁ := ha.rotate hrotate
      rw [hrotate] at hr
      cases hr
      split
      · exact ha₁
      · exact ha₁.congr rfl rfl rfl rfl
    · cases hr
      exact ha
  | closeSync fault _ _ hr =>
    refine grow ?_
    unfold Handle.closeSyncWal at hr
    split at hr
    · split at hr
      · cases hr
        exact ha.congr rfl rfl rfl rfl
      · cases hr
        have hsynced : Allocated o d₀
            (s.handle.perform (.sync (.wal s.handle.manifest.activeWalNumber))) s.worker readers :=
          ha.perform (fun _ hw => ⟨_, hw⟩) (by simp [DirOp.Benign])
        exact hsynced.congr rfl rfl rfl rfl
    · cases hr
      exact ha.congr rfl rfl rfl rfl
  | closeJoined fault _ _ _ hr =>
    cases hr
    refine grow ?_
    exact ha.congr rfl rfl rfl rfl

/-! ## Open -/

section
variable [EntrySize]

theorem always_recoverWal {number floor recoveredMax : ℕ} {target : MemTable}
    (hr : h.recoverWal o number floor = .ok (h', recoveredMax, target))
    (ha : h.Always Directory.Sound d₀) : h'.Always Directory.Sound d₀ := by
  unfold Handle.recoverWal at hr
  split at hr
  · cases hr
  split at hr
  · cases hr
  cases hr
  split
  · exact ha.benign (by simp [DirOp.Benign])
  · exact ha

theorem always_recoverActive {floor : ℕ} (hr : h.recoverActive o floor = .ok h')
    (ha : h.Always Directory.Sound d₀) : h'.Always Directory.Sound d₀ := by
  unfold Handle.recoverActive at hr
  split at hr
  · cases hr
  rename_i h₁ recoveredMax m hwal
  split at hr
  · cases hr
  cases hr
  exact (always_recoverWal hwal ha).congr rfl rfl

theorem always_recoverWals (hr : h.recoverWals o = .ok h') (ha : h.Always Directory.Sound d₀) :
    h'.Always Directory.Sound d₀ := by
  unfold Handle.recoverWals at hr
  split at hr
  · exact always_recoverActive hr ha
  split at hr
  · cases hr
  rename_i h₁ recoveredMax immutable hwal
  split at hr
  · cases hr
  have ha₁ := always_recoverWal hwal ha
  exact always_recoverActive hr (ha₁.congr rfl rfl)

theorem recovered {sweep : SweepFaults} {m : ManifestSnapshot} {d : Directory} {t : List DirOp}
    (hvalid : m.Valid) (hr : (Handle.blank d m t).recover o sweep = .ok h)
    (hm : m.KeepsFlushNumber) (ha : (Handle.blank d m t).Always Directory.Sound d₀) :
    Allocated o d₀ h .waiting { t | t ∈ h.tables } := by
  obtain ⟨hopened, rfl⟩ := Handle.recover_opened hvalid hr
  have htables := Handle.openTables_eq_ok hopened.tables
  have halways : h.Always Directory.Sound d₀ := by
    unfold Handle.recover at hr
    split at hr
    · cases hr
    rename_i h₁ hload
    split at hr
    · cases hr
    rename_i h₂ hwals
    unfold Handle.openManifestSSTables at hload
    split at hload
    · cases hload
    cases hload
    cases hr
    have ha₁ := always_recoverWals hwals (ha.congr rfl rfl)
    exact (ha₁.cleanupObsoleteFiles sweep.listed sweep.fails).congr rfl rfl
  have hnumbers := Handle.OpensAs.map_number htables
  have hmeta : ∀ t ∈ h.tables, ∃ m ∈ h.manifest.liveTables, Handle.OpensAs d m t := fun t ht =>
    TableFile.forall₂_exists htables.flip ht
  refine ⟨hvalid, hnumbers, fun _ ht => ht, fun t ht => ?_, fun t ht t' ht' heq => ?_, fun t ht => ?_,
    hm.wal, fun t ht => ?_, by intros; contradiction, by intros; contradiction, trivial, halways⟩
  · obtain ⟨m, hmem, hm⟩ := hmeta t ht
    rw [hm.number_eq]
    exact (hvalid.tables m hmem).number_lt
  · have hnodup := hvalid.numbers
    rw [← hnumbers] at hnodup
    exact List.inj_on_of_nodup_map hnodup ht ht' heq
  · obtain ⟨m, hmem, hm⟩ := hmeta t ht
    obtain ⟨f, hf, hopen⟩ := hm.opened
    obtain ⟨p, hp, -⟩ := hm.validated
    exact ⟨(SSTableReader.open_tableNumber hopen).trans hm.number_eq.symm,
      (ha.now.tables _ f hf).version _ _ hopen, p, hp⟩
  · obtain ⟨m, hmem, hmt⟩ := hmeta t ht
    rw [hmt.number_eq]
    exact hm.tables m hmem

/-- What `Open` returns. -/
theorem opened {d : Directory} {listing : Listing} {sweep : SweepFaults}
    (hr : Handle.open o d listing sweep = .ok h) (hd : d.Sound) :
    Allocated o d h .waiting { t | t ∈ h.tables } := by
  have hblank : ∀ m, (Handle.blank d m []).Always Directory.Sound d := by
    refine fun m => ⟨rfl, fun ops hops => ?_⟩
    obtain rfl := List.prefix_nil.mp hops
    exact hd
  obtain ⟨m, hvalid, ⟨hm, hrecover⟩ | ⟨-, rfl, h₁, hcreate, hrecover, heq⟩⟩ := Handle.open_eq_ok hr
  · exact recovered hvalid hrecover (hd.manifest m hm) (hblank m)
  · have hinitial : initialManifest.KeepsFlushNumber :=
      ⟨fun _ _ hflush => hflush.1 rfl, by intros; contradiction⟩
    have hpublished : ∀ h₂ : Handle, h₂.Always Directory.Sound d →
        (((h₂.perform (.sync (.wal 1))).perform (.publish initialManifest)).perform .syncDir).Always
          Directory.Sound d := by
      intro h₂ ha₂
      have hsynced : (h₂.perform (.sync (.wal 1))).Always Directory.Sound d :=
        ha₂.benign (by simp [DirOp.Benign])
      exact (hsynced.perform (hsynced.now.publish hinitial)).benign trivial
    have ha₁ : h₁.Always Directory.Sound d := by
      unfold createInitialManifest at hcreate
      split at hcreate
      · cases hcreate
      split at hcreate
      · cases hcreate
      rename_i hasInitialWal hinspect
      cases hcreate
      cases hasInitialWal with
      | true => exact hpublished _ (hblank _)
      | false => exact hpublished _ ((hblank _).benign (by simp [DirOp.Benign]))
    rw [heq] at hrecover ha₁
    exact recovered hvalid hrecover hinitial ha₁

end

end Allocated

end TinyLsm
