import TinyLsm.Db.Read
import TinyLsm.Db.Regions
import TinyLsm.Sstable.Validation
import TinyLsm.Wal.Canonical

/-!
# The layers of a handle

The versions of a handle lie in layers: the tables in the order of the Manifest, the immutable
MemTable and the active one. The sequences of a layer are above those of the layers before it, and
the Manifest describes its tables, so that no two layers share a version. This holds in every state
of every run, whatever directory the handle was opened on.
-/

namespace TinyLsm

/-! ## Tables and their metadata -/

/-- The version lies in the ranges of the Manifest entry. -/
structure TableMeta.Spans (m : TableMeta) (e : InternalEntry) : Prop where
  smallest_le : m.smallestKey ≤ e.userKey
  le_largest : e.userKey ≤ m.largestKey
  min_le : m.minSequence ≤ e.sequence
  le_max : e.sequence ≤ m.maxSequence

/-- The table can be read, and its versions lie in the ranges of its Manifest entry. -/
def TableMeta.Describes (m : TableMeta) (t : Table) : Prop :=
  ∃ bss, t.reader.Valid bss ∧ ∀ e ∈ bss.flatten, m.Spans e

theorem TableMeta.describes_of_matches {m : TableMeta} {t : Table} {p : SSTableProperties}
    (hvalidate : t.reader.validateAndGetProperties = .ok p) (hmatches : m.matches p) :
    m.Describes t := by
  obtain ⟨bss, hvalid, -, -, rfl⟩ := SSTableReader.validate_sound hvalidate
  simp only [TableMeta.matches, Bool.and_eq_true, decide_eq_true_eq] at hmatches
  obtain ⟨⟨⟨⟨-, hsmallest⟩, hlargest⟩, hmin⟩, hmax⟩ := hmatches
  have hord := hvalid.ordered.flatten
  refine ⟨bss, hvalid, fun e he => ⟨?_, ?_, ?_, ?_⟩⟩
  · exact hsmallest ▸ groupKey_le_of_mem hord he
  · exact hlargest ▸ le_lastKeyOf_of_mem [] hord he
  · exact hmin ▸ (sequence_bounds _ e he).1
  · exact hmax ▸ (sequence_bounds _ e he).2

/-- The output of a build, verified. -/
def BuildPhase.Verified (o : Options) (entries : List InternalEntry)
    (checked : Output → Option Status) : BuildPhase → Prop
  | create | write => True
  | verify info => (buildTable o.sstableBlockBytes o.sstableRestartInterval entries).2 = .ok info
  | rename out | syncDir out | ready out =>
    (buildTable o.sstableBlockBytes o.sstableRestartInterval entries).2 = .ok out.info ∧
      out.table.reader.validateAndGetProperties = .ok out.properties ∧ checked out = none

theorem BuildPhase.Verified.step {o : Options} {checked : Output → Option Status} {number : ℕ}
    {entries : List InternalEntry} {h h' : Handle} {phase phase' : BuildPhase}
    (hb : Handle.BuildsTo o checked number entries h phase h' phase')
    (hv : phase.Verified o entries checked) : phase'.Verified o entries checked := by
  cases hb with
  | create => trivial
  | write hbuild => exact hbuild
  | verify hfile hopen hvalidate hchecked => exact ⟨hv, hvalidate, hchecked⟩
  | rename => exact hv
  | syncDir => exact hv

/-! ## A MemTable from a WAL -/

section
variable [EntrySize] {limits : DecodeLimits} {floor : ℕ}

/-- The versions of a MemTable lie above the floor, and none is newer than the bound. -/
structure MemTable.Between (m : MemTable) (floor bound : ℕ) : Prop where
  inv : m.Inv
  sequences : ∀ e ∈ m.contents, floor < e.sequence ∧ e.sequence ≤ bound

theorem MemTable.Between.applyBatch {m m' : MemTable} {bound : ℕ} {es : List InternalEntry}
    (h : m.Between floor bound) (hfloor : floor ≤ bound) (hfront : ∀ e ∈ es.head?, bound < e.sequence)
    (happly : m.applyBatch es = .ok m') :
    m'.Between floor (lastSequence es bound) ∧ bound ≤ lastSequence es bound := by
  obtain ⟨hinv, hmem, -, -, hpair⟩ := h.inv.applyBatch happly
  have hbatch : ∀ e ∈ es, bound < e.sequence ∧ e.sequence ≤ lastSequence es bound := by
    intro e he
    refine ⟨?_, ?_⟩
    · cases es with
      | nil => cases he
      | cons a es =>
        have ha := hfront a rfl
        rcases List.mem_cons.mp he with rfl | he
        · exact ha
        · exact ha.trans ((List.pairwise_cons.mp hpair).1 e he)
    · obtain ⟨l, hl⟩ : ∃ l, es.getLast? = some l :=
        Option.ne_none_iff_exists'.mp (by simpa using List.ne_nil_of_mem he)
      rw [← List.dropLast_append_getLast? l hl] at he hpair
      rw [lastSequence, hl]
      rcases List.mem_append.mp he with he | he
      · exact ((List.pairwise_append.mp hpair).2.2 e he l (by simp)).le
      · rw [List.mem_singleton.mp he]
  have hle : bound ≤ lastSequence es bound := by
    cases es with
    | nil => exact le_rfl
    | cons a es =>
      obtain ⟨hlt, hle⟩ := hbatch a List.mem_cons_self
      exact hlt.le.trans hle
  refine ⟨⟨hinv, fun e he => ?_⟩, hle⟩
  rcases (hmem e).mp he with he | he
  · exact ⟨(h.sequences e he).1, (h.sequences e he).2.trans hle⟩
  · exact ⟨hfloor.trans_lt (hbatch e he).1, (hbatch e he).2⟩

theorem replayLoop_between {fuel : ℕ} {rest : Bytes} {previous : ℕ}
    {result result' : WalReplayResult} {m m' : MemTable}
    (h : replayLoop MemTable.applyBatch limits fuel rest previous result m = .ok (result', m'))
    (hm : m.Between floor previous) (hfloor : floor ≤ previous)
    (hprevious : previous ≤ max floor result.maxSequence) :
    m'.Between floor (max floor result'.maxSequence) := by
  have hdone : ∀ r : WalReplayResult, r.maxSequence = result.maxSequence →
      m.Between floor (max floor r.maxSequence) := by
    intro r hr
    exact ⟨hm.inv, fun e he =>
      ⟨(hm.sequences e he).1, (hm.sequences e he).2.trans (hr ▸ hprevious)⟩⟩
  induction fuel generalizing rest previous result m with
  | zero =>
    cases h
    exact hdone _ rfl
  | succ fuel ih =>
    simp only [replayLoop] at h
    split at h
    · cases h
      exact hdone _ rfl
    split at h
    · cases h
      exact hdone _ rfl
    split at h
    · cases h
    split at h
    · cases h
    split at h
    · cases h
      exact hdone _ rfl
    split at h
    · cases h
    rename_i es hframe
    split at h
    · cases h
    rename_i m₁ happly
    obtain ⟨-, -, -, -, hfront⟩ := decodeFrame_eq_ok hframe
    obtain ⟨hm₁, hle⟩ := hm.applyBatch hfloor hfront happly
    refine ih h hm₁ (hfloor.trans hle) (le_max_right _ _) fun r hr => ?_
    rw [hr]
    exact ⟨hm₁.inv, fun e he =>
      ⟨(hm₁.sequences e he).1, (hm₁.sequences e he).2.trans (le_max_right _ _)⟩⟩

theorem Handle.recoverWal_between {o : Options} {h h' : Handle} {number recoveredMax : ℕ}
    {m : MemTable} (hr : h.recoverWal o number floor = .ok (h', recoveredMax, m)) :
    m.Between floor recoveredMax ∧ floor ≤ recoveredMax := by
  unfold Handle.recoverWal at hr
  split at hr
  · cases hr
  split at hr
  · cases hr
  rename_i result target hreplay
  cases hr
  have hempty : MemTable.empty.Between floor floor := ⟨MemTable.inv_empty, by simp [MemTable.empty,
    MemTable.contents]⟩
  exact ⟨replayLoop_between hreplay hempty le_rfl (le_max_left _ _), le_max_left _ _⟩

end

/-! ## The invariant -/

/-- What is known of the output of the worker: a flush writes the immutable MemTable. -/
def Worker.Verified (o : Options) (immutable : Option MemTable) : Worker → Prop
  | flushing job phase => (∃ m, immutable = some m ∧ job.entries = m.contents) ∧
      phase.Verified o job.entries fun _ => none
  | compacting _ entries phase => phase.Verified o entries compactionChecked
  | _ => True

/-- The layers of a handle. -/
structure Layered (o : Options) (h : Handle) (w : Worker) : Prop where
  valid : h.manifest.Valid
  tables : List.Forall₂ TableMeta.Describes h.manifest.liveTables h.tables
  memtable : h.memtable.Inv
  immutable : ∀ m, h.immutable = some m → m.Inv
  active : ∀ e ∈ h.memtable.contents,
    h.manifest.lastSequence < e.sequence ∧ e.sequence < h.nextSequence
  sealed : ∀ m, h.immutable = some m → ∀ e ∈ m.contents,
    h.manifest.lastSequence < e.sequence ∧ e.sequence < h.nextSequence ∧
      ∀ e' ∈ h.memtable.contents, e.sequence < e'.sequence
  next : h.manifest.lastSequence < h.nextSequence
  output : w.Verified o h.immutable

namespace Layered

variable {o : Options} {h h' : Handle} {w w' : Worker}

/-- Only the layers matter. -/
theorem congr (hl : Layered o h w) (hmanifest : h'.manifest = h.manifest)
    (htables : h'.tables = h.tables) (hmemtable : h'.memtable = h.memtable)
    (himmutable : h'.immutable = h.immutable) (hnext : h'.nextSequence = h.nextSequence) :
    Layered o h' w := by
  refine ⟨?_, ?_, ?_, ?_, ?_, ?_, ?_, ?_⟩
  · rw [hmanifest]
    exact hl.valid
  · rw [hmanifest, htables]
    exact hl.tables
  · rw [hmemtable]
    exact hl.memtable
  · rw [himmutable]
    exact hl.immutable
  · rw [hmanifest, hmemtable, hnext]
    exact hl.active
  · rw [hmanifest, himmutable, hmemtable, hnext]
    exact hl.sealed
  · rw [hmanifest, hnext]
    exact hl.next
  · rw [himmutable]
    exact hl.output

theorem onlyFiles (hfiles : h.OnlyFiles h') (hl : Layered o h w) : Layered o h' w := by
  obtain ⟨d, t, p, rfl⟩ := hfiles
  exact hl.congr rfl rfl rfl rfl rfl

theorem terminal (hl : Layered o h w) (status : Status) :
    Layered o { h with terminalError := some status } w :=
  hl.congr rfl rfl rfl rfl rfl

theorem worker (hl : Layered o h w) (hw : w'.Verified o h.immutable) : Layered o h w' :=
  ⟨hl.valid, hl.tables, hl.memtable, hl.immutable, hl.active, hl.sealed, hl.next, hw⟩

theorem memtables_inv (hl : Layered o h w) : ∀ m ∈ h.memtables, m.Inv := by
  intro m hm
  rcases List.mem_cons.mp hm with rfl | hm
  · exact hl.memtable
  · exact hl.immutable m (by simpa using hm)

/-- A Manifest with the same tables and the same last sequence. -/
theorem withManifest (hl : Layered o h w) {next : ManifestSnapshot} (hvalid : next.Valid)
    (hlive : next.liveTables = h.manifest.liveTables)
    (hlast : next.lastSequence = h.manifest.lastSequence) : Layered o (h.withManifest next) w := by
  refine ⟨hvalid, ?_, hl.memtable, hl.immutable, ?_, ?_, ?_, hl.output⟩
  · rw [Handle.withManifest_manifest, hlive]
    exact hl.tables
  · rw [Handle.withManifest_manifest, hlast]
    exact hl.active
  · rw [Handle.withManifest_manifest, hlast]
    exact hl.sealed
  · rw [Handle.withManifest_manifest, hlast]
    exact hl.next

/-! ## Writes -/

theorem store [EntrySize] {m : MemTable} {n : ℕ} (hstores : h.Stores m n) (hl : Layered o h w) :
    Layered o { h with memtable := m, nextSequence := n } w := by
  obtain ⟨ops, rfl, -, hm⟩ := hstores
  -- a version of the MemTable is an old one, or has one of the new sequences
  have hversion : m.Inv ∧ ∀ e ∈ m.contents, e ∈ h.memtable.contents ∨
      h.nextSequence ≤ e.sequence ∧ e.sequence < h.nextSequence + ops.length := by
    rcases hm with rfl | hm
    · exact ⟨hl.memtable, fun e he => .inl he⟩
    · obtain ⟨hinv, hmem, -⟩ := hl.memtable.applyBatch hm
      refine ⟨hinv, fun e he => ?_⟩
      rcases (hmem e).mp he with he | he
      · exact .inl he
      · exact .inr (sequence_assignSequences he)
  obtain ⟨hinv, hversion⟩ := hversion
  have hnext := hl.next
  refine ⟨hl.valid, hl.tables, hinv, hl.immutable, fun e he => ?_, fun m' hm' e he => ?_, ?_,
    hl.output⟩
  · rcases hversion e he with he | he
    · have hold := hl.active e he
      exact ⟨hold.1, by simp only; omega⟩
    · exact ⟨by simp only; omega, he.2⟩
  · obtain ⟨hlast, hlt, hnewer⟩ := hl.sealed m' hm' e he
    refine ⟨hlast, by simp only; omega, fun e' he' => ?_⟩
    rcases hversion e' he' with he' | he'
    · exact hnewer e' he'
    · omega
  · simp only
    omega

theorem rotate {fault : Option RotateFault} {status : Status}
    (hr : h.rotateMemTable fault = (h', status)) (hl : Layered o h w) : Layered o h' w := by
  rcases Handle.rotateMemTable_cases hr with
    ⟨hw, -⟩ | ⟨rfl, -⟩ | ⟨rfl, -, -, himmutable, -, bytes, hencode⟩
  · exact hl.onlyFiles hw.onlyFiles
  · exact ((hl.onlyFiles h.onlyFiles_withWal).onlyFiles (.perform _ _)).terminal status
  · have hlog : Layered o (h.withWal.withManifest (Handle.rotatedManifest h.manifest)) w :=
      (hl.onlyFiles h.onlyFiles_withWal).withManifest (valid_of_encodeManifest hencode) rfl rfl
    have hnone : h.immutable = none := himmutable
    refine ⟨hlog.valid, hlog.tables, MemTable.inv_empty, fun m hm => ?_, by
      simp [Handle.rotated, MemTable.empty, MemTable.contents], fun m hm e he => ?_, hlog.next, ?_⟩
    · obtain rfl := Option.some.inj hm
      exact hlog.memtable
    · obtain rfl := Option.some.inj hm
      have hold := hlog.active e he
      exact ⟨hold.1, hold.2, by simp [Handle.rotated, MemTable.empty, MemTable.contents]⟩
    · have houtput := hl.output
      rw [hnone] at houtput
      cases w with
      | flushing job phase =>
        obtain ⟨⟨m, hm, -⟩, -⟩ := houtput
        cases hm
      | compacting job entries phase => exact houtput
      | _ => trivial

theorem applyWriteGroup [EntrySize] {group : List WriterRequest} {f : WriteFaults} {status : Status}
    (hr : h.applyWriteGroup o group f = some (h', status)) (hl : Layered o h w) : Layered o h' w :=
  Handle.applyWriteGroup_keeps (Layered o · w) (fun h op _ hl => hl.onlyFiles (.perform h op))
    (fun _ _ _ hstores hl => hl.store hstores) (fun _ _ _ _ hr hl => hl.rotate hr) hr hl

/-! ## Flush -/

theorem beginFlush {sweep : SweepFaults} {r : Except Status FlushJob}
    (hr : h.beginFlush sweep = (h', r)) (hl : Layered o h w) :
    Layered o h' (System.continued true (.flushing · .create) r) := by
  obtain ⟨hfiles, ⟨status, rfl, -⟩ | ⟨m, hm, -, -, -, -, -, rfl⟩⟩ := Handle.beginFlush_cases hr
  · exact (hl.onlyFiles hfiles).worker trivial
  · refine (hl.onlyFiles hfiles).worker ⟨⟨m, ?_, m.scan_all⟩, trivial⟩
    obtain ⟨d, t, p, rfl⟩ := hfiles
    exact hm

theorem commitFlush {job : FlushJob} {out : Output} {fault : Option PublishFault} {status : Status}
    (hr : h.commitFlush o job out fault = (h', status))
    (hl : Layered o h (.flushing job (.ready out))) (hw : ∀ immutable, w.Verified o immutable) :
    Layered o h' w := by
  rcases Handle.commitFlush_cases hr with
    ⟨rfl, -⟩ | ⟨rfl, -⟩ | ⟨rfl, -, -, -, -, -, hmatches, bytes, hencode⟩
  · exact hl.worker (hw _)
  · exact ((hl.onlyFiles (.perform h _)).terminal status).worker (hw _)
  obtain ⟨⟨m, hm, hentries⟩, hbuild, hvalidate, -⟩ := hl.output
  obtain ⟨hne, hmax⟩ := buildTable_maxSequence hbuild
  -- the new last sequence is that of a version of the immutable MemTable
  obtain ⟨-, e, he, hsequence⟩ := exists_minSequenceOf hne
  rw [← hmax] at hsequence
  obtain ⟨-, hlt, hnewer⟩ := hl.sealed m hm e (hentries ▸ he)
  rw [hsequence] at hlt hnewer
  refine ⟨valid_of_encodeManifest hencode, ?_, hl.memtable, by simp [Handle.installFlush],
    fun e' he' => ⟨hnewer e' he', (hl.active e' he').2⟩, by simp [Handle.installFlush], hlt, hw _⟩
  exact List.rel_append hl.tables (.cons (TableMeta.describes_of_matches hvalidate hmatches) .nil)

/-! ## Compaction -/

theorem beginCompaction {fault : Option PublishFault} {r : Except Status CompactionJob}
    (hr : h.beginBackgroundCompaction o fault = (h', r)) (hl : Layered o h w) :
    Layered o h' (System.continued false .merging r) := by
  rcases Handle.beginBackgroundCompaction_cases hr with
    ⟨rfl, status, rfl⟩ | ⟨status, rfl, rfl, -⟩ | ⟨rfl, rfl, -, -, bytes, hencode⟩
  · exact hl.worker trivial
  · exact ((hl.onlyFiles (.perform h _)).terminal status).worker trivial
  · exact (hl.withManifest (valid_of_encodeManifest hencode) rfl rfl).worker trivial

theorem commitCompaction {job : CompactionJob} {replacement : Option Output}
    {fault : Option PublishFault} {fails : FileName → Bool} {status : Status}
    (hr : h.commitCompaction job replacement fault fails = (h', status)) (hl : Layered o h w)
    (hout : ∀ out, replacement = some out →
      out.table.reader.validateAndGetProperties = .ok out.properties ∧
        compactionChecked out = none) : Layered o h' w := by
  rcases Handle.commitCompaction_cases hr with
    ⟨rfl, -⟩ | ⟨rfl, -⟩ | ⟨rfl, -, -, -, -, -, bytes, hencode⟩
  · exact hl
  · exact (hl.onlyFiles (.perform h _)).terminal status
  have hrest := List.forall₂_drop job.metas.length hl.tables
  refine onlyFiles (.removeAll _ _ _) ?_
  have hvalid := valid_of_encodeManifest hencode
  cases replacement with
  | none =>
    exact ⟨hvalid, hrest, hl.memtable, hl.immutable, hl.active, hl.sealed, hl.next, hl.output⟩
  | some out =>
    obtain ⟨hvalidate, hchecked⟩ := hout out rfl
    have hmatches := Handle.matches_of_compactionChecked hchecked
    exact ⟨hvalid, .cons (TableMeta.describes_of_matches hvalidate hmatches) hrest, hl.memtable,
      hl.immutable, hl.active, hl.sealed, hl.next, hl.output⟩

theorem buildOutput {number : ℕ} {entries : List InternalEntry} {f : Handle.CompactFaults}
    {out : Output} (hr : h.buildOutput o number entries f = (h', .ok out)) :
    out.table.reader.validateAndGetProperties = .ok out.properties ∧
      compactionChecked out = none := by
  have hrule := Handle.buildOutput_rule (fun phase _ => phase.Verified o entries compactionChecked)
    (fun _ => True) (fun _ _ _ _ hb hv => hv.step hb) (fun _ _ _ => trivial) (fun _ _ => trivial) hr
    trivial
  exact hrule.2

theorem compactTablePrefix {inputCount : ℕ} {f : Handle.CompactFaults} {status : Status}
    (hr : h.compactTablePrefix o inputCount f = (h', status)) (hl : Layered o h w) :
    Layered o h' w := by
  rcases Handle.compactTablePrefix_cases hr with
    ⟨rfl, -⟩ | ⟨-, h₁, rfl, rfl | ⟨_, -, -, hc⟩ | ⟨_, h₂, r, -, -, hbuild, hend⟩⟩
  · exact hl
  · exact hl.onlyFiles (.cleanupObsoleteFiles _ _ _)
  · exact (hl.onlyFiles (.cleanupObsoleteFiles _ _ _)).commitCompaction hc (by simp)
  · have hl₂ := (hl.onlyFiles (.cleanupObsoleteFiles _ _ _)).onlyFiles
      (Handle.OnlyFiles.buildOutput hbuild)
    rcases hend with ⟨-, rfl⟩ | ⟨out, rfl, hc⟩
    · exact hl₂
    · refine hl₂.commitCompaction hc fun out' hout' => ?_
      obtain rfl := Option.some.inj hout'
      exact buildOutput hbuild

/-! ## Runs -/

theorem onlyFlags (hflags : h.OnlyFlags h') (hl : Layered o h w) : Layered o h' w := by
  obtain ⟨e, c₁, c₂, r₁, r₂, f₁, f₂, stop, rfl⟩ := hflags
  exact hl.congr rfl rfl rfl rfl rfl

/-- A step of a build. -/
theorem buildStep {context : BuildContext} {checked : Output → Option Status} {number : ℕ}
    {entries : List InternalEntry} {fault : Option Failure} {phase : BuildPhase}
    {r : Except Status BuildPhase} {flush : Bool} {next : BuildPhase → Worker}
    (hchecked : ∀ out s, checked out = some s → s.ok = false)
    (hphase : ∀ out, phase ≠ .ready out)
    (hr : h.buildStep o context checked number entries fault phase = (h', r))
    (hl : Layered o h w) (hv : phase.Verified o entries checked)
    (hnext : ∀ phase', phase'.Verified o entries checked → (next phase').Verified o h.immutable) :
    Layered o h' (System.continued flush next r) := by
  have hfiles := Handle.OnlyFiles.buildStep hchecked hphase hr
  refine onlyFiles hfiles (hl.worker ?_)
  cases r with
  | ok phase' => exact hnext phase' (hv.step (Handle.buildStep_ok hphase hr))
  | error status => trivial

theorem step [EntrySize] {faultFree : Bool} {s s' : System} (hstep : System.Step o faultFree s s')
    (hl : Layered o s.handle s.worker) : Layered o s'.handle s'.worker := by
  cases hstep with
  | write f _ happly => exact hl.applyWriteGroup happly
  | getSnapshot | releaseSnapshot => exact hl.congr rfl rfl rfl rfl rfl
  | workerExit => exact hl.worker trivial
  | workerClaim =>
    refine (hl.onlyFlags (.claim _)).worker ?_
    simp only [Handle.claim]
    split
    · trivial
    · split <;> trivial
  | flushBegin sweep _ _ hr => exact hl.beginFlush hr
  | @flushBuild job phase _ r fault _ hworker hphase hr =>
    rw [hworker] at hl
    exact hl.buildStep (by simp) hphase hr hl.output.2 fun phase' hv => ⟨hl.output.1, hv⟩
  | flushCommit fault _ hworker hr =>
    rw [hworker] at hl
    refine hl.commitFlush hr fun _ => ?_
    split <;> trivial
  | flushRemove fails => exact (hl.onlyFiles (.bestEffortRemove _ _ _)).worker trivial
  | compactBegin fault _ _ hr => exact hl.beginCompaction hr
  | compactMerge fault _ hworker =>
    refine hl.worker ?_
    split
    · trivial
    · trivial
    · dsimp only
      split <;> trivial
  | @compactBuild job entries phase _ r fault _ hworker hphase hr =>
    rw [hworker] at hl
    exact hl.buildStep Handle.compactionChecked_error hphase hr hl.output fun phase' hv => hv
  | compactCommit fault fails _ hworker hr =>
    rw [hworker] at hl
    have hidle : Layered o s.handle (.finished false .okay) := hl.worker trivial
    refine (hidle.commitCompaction hr fun out hout => ?_).worker trivial
    obtain rfl := Option.some.inj hout
    exact hl.output.2
  | compactDrop fault fails _ hworker hr =>
    exact (hl.commitCompaction hr (by simp)).worker trivial
  | workerException => exact hl.worker trivial
  | workerAccount => exact (hl.onlyFlags (.account _ _ _)).worker trivial
  | compactCall | compactResume | closeWake | next => exact hl
  | compactRun f _ _ hr => exact hl.compactTablePrefix hr
  | closeCall =>
    split
    · exact hl
    · exact hl.congr rfl rfl rfl rfl rfl
  | closeRound fault _ _ hr =>
    rcases Handle.closeRound_cases hr with hflags | ⟨h₁, status, hrotate, hflags⟩
    · exact hl.onlyFlags hflags
    · exact (hl.rotate hrotate).onlyFlags hflags
  | closeSync fault _ _ hr =>
    rcases Handle.closeSyncWal_cases hr with hflags | hflags
    · exact hl.onlyFlags hflags
    · exact (hl.onlyFiles (.perform _ _)).onlyFlags hflags
  | closeJoined fault _ _ _ hr =>
    cases hr
    exact hl.congr rfl rfl rfl rfl rfl

/-! ## Open -/

section
variable [EntrySize] {floor : ℕ}

theorem recoverActive_between (hr : h.recoverActive o floor = .ok h') :
    ∃ bound, h'.memtable.Between floor bound ∧ floor ≤ bound ∧ h'.nextSequence = bound + 1 ∧
      h'.immutable = h.immutable ∧ h'.manifest = h.manifest ∧ h'.tables = h.tables := by
  unfold Handle.recoverActive at hr
  split at hr
  · cases hr
  rename_i h₁ bound m hwal
  split at hr
  · cases hr
  cases hr
  obtain ⟨hbetween, hle⟩ := Handle.recoverWal_between hwal
  obtain ⟨d, t, p, rfl⟩ := Handle.recoverWal_eq_ok hwal
  exact ⟨bound, hbetween, hle, rfl, rfl, rfl, rfl⟩

/-- The MemTables that are recovered from the WALs are layers behind the tables. -/
theorem recoverWals (hvalid : h.manifest.Valid)
    (htables : List.Forall₂ TableMeta.Describes h.manifest.liveTables h.tables)
    (himmutable : h.immutable = none) (hr : h.recoverWals o = .ok h') : Layered o h' .waiting := by
  unfold Handle.recoverWals at hr
  split at hr
  · obtain ⟨bound, hactive, hle, hnext, himm, hmanifest, htabs⟩ := recoverActive_between hr
    rw [himmutable] at himm
    refine ⟨hmanifest ▸ hvalid, hmanifest ▸ htabs ▸ htables, hactive.inv, by simp [himm],
      fun e he => ?_, by simp [himm], ?_, trivial⟩
    · obtain ⟨hlt, hbound⟩ := hactive.sequences e he
      rw [hmanifest, hnext]
      exact ⟨hlt, by omega⟩
    · rw [hmanifest, hnext]
      omega
  split at hr
  · cases hr
  rename_i h₁ bound₁ m hwal
  split at hr
  · cases hr
  obtain ⟨hsealed, hle₁⟩ := Handle.recoverWal_between hwal
  obtain ⟨d, t, p, rfl⟩ := Handle.recoverWal_eq_ok hwal
  obtain ⟨bound, hactive, hle, hnext, himm, hmanifest, htabs⟩ := recoverActive_between hr
  have hlast : h'.manifest.lastSequence = h.manifest.lastSequence :=
    congrArg ManifestSnapshot.lastSequence hmanifest
  refine ⟨hmanifest ▸ hvalid, hmanifest ▸ htabs ▸ htables, hactive.inv, fun m' hm' => ?_,
    fun e he => ?_, fun m' hm' e he => ?_, ?_, trivial⟩
  · obtain rfl := Option.some.inj (himm.symm.trans hm')
    exact hsealed.inv
  · obtain ⟨hlt, hbound⟩ := hactive.sequences e he
    rw [hlast, hnext]
    omega
  · obtain rfl := Option.some.inj (himm.symm.trans hm')
    obtain ⟨hlt, hbound⟩ := hsealed.sequences e he
    refine ⟨by rw [hlast]; exact hlt, by rw [hnext]; omega, fun e' he' => ?_⟩
    exact hbound.trans_lt (hactive.sequences e' he').1
  · rw [hlast, hnext]
    omega

theorem recovered {sweep : SweepFaults} {d : Directory} {m : ManifestSnapshot} {t : List DirOp}
    (hvalid : m.Valid) (hr : (Handle.blank d m t).recover o sweep = .ok h) :
    Layered o h .waiting := by
  unfold Handle.recover at hr
  split at hr
  · cases hr
  rename_i h₁ htables
  split at hr
  · cases hr
  rename_i h₂ hwals
  unfold Handle.openManifestSSTables at htables
  split at htables
  · cases htables
  rename_i tables hopen
  cases htables
  cases hr
  have hdescribes : List.Forall₂ TableMeta.Describes m.liveTables tables := by
    refine (Handle.openTables_eq_ok hopen).imp fun entry table hopens => ?_
    obtain ⟨p, hvalidate, hmatches⟩ := hopens.validated
    exact TableMeta.describes_of_matches hvalidate hmatches
  have hl : Layered o h₂ .waiting := recoverWals hvalid hdescribes rfl hwals
  exact (hl.onlyFiles (.cleanupObsoleteFiles h₂ _ _)).congr rfl rfl rfl rfl rfl

/-- What `Open` returns, whatever the directory holds. -/
theorem opened {d : Directory} {listing : Listing} {sweep : SweepFaults}
    (hopen : Handle.open o d listing sweep = .ok h) : Layered o h .waiting := by
  obtain ⟨m, hvalid, ⟨-, hrecover⟩ | ⟨-, rfl, h₁, -, hrecover, hblank⟩⟩ := Handle.open_eq_ok hopen
  · exact recovered hvalid hrecover
  · rw [hblank] at hrecover
    exact recovered hvalid hrecover

/-- Every state of every run. -/
theorem of_reachable {faultFree : Bool} {s : System}
    (hs : (System.system o faultFree).Reachable s) : Layered o s.handle s.worker := by
  refine hs.invariant (P := fun s => Layered o s.handle s.worker) ?_ fun _ _ hstep hl => hl.step hstep
  rintro s ⟨d, listing, sweep, h, -, hopen, rfl⟩
  exact opened hopen

end

end Layered

end TinyLsm
