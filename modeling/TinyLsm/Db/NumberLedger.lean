import TinyLsm.Db.Lifetime
import TinyLsm.Db.Schedule

/-!
# File numbers along a run

What a published Manifest names under a number, no later one names otherwise. The numbers of an
earlier state are entered in a ledger, and every step keeps the state off it: a rotation and a
reservation take numbers from `next_file_number` on, a flush the one kept for it, and a compaction
gives a number back only when nothing got it.
-/

namespace TinyLsm

/-- The Manifest names a table of this number. -/
def ManifestSnapshot.NamesTable (m : ManifestSnapshot) (n : ℕ) : Prop :=
  n ∈ m.liveTables.map TableMeta.fileNumber

/-- The number of the output that a background compaction builds. -/
def Worker.outputNumber? : Worker → Option ℕ
  | compacting job _ _ => some job.number
  | _ => none

/-- A flush takes this number, or will. -/
def System.FlushNumber (s : System) (n : ℕ) : Prop :=
  s.handle.manifest.FlushNumber n ∨ ∃ job, s.worker.flushJob? = some job ∧ job.tableNumber = n

/-- Numbers of an earlier state. -/
structure Ledger where
  wals : Set ℕ
  tables : Set ℕ
  /-- Outputs of a background compaction. -/
  outputs : Set ℕ
  /-- Kept for the table of an immutable WAL. -/
  flushes : Set ℕ

namespace Ledger

/-- The numbers that some file has. -/
def used (l : Ledger) : Set ℕ := { n | n ∈ l.wals ∨ n ∈ l.tables ∨ n ∈ l.outputs }

/-- The Manifest and the worker use no number of the ledger for something else. -/
structure Respected (l : Ledger) (m : ManifestSnapshot) (w : Worker) : Prop where
  used_lt : ∀ n ∈ l.used, n < m.nextFileNumber
  flushes_lt : ∀ n ∈ l.flushes, n < m.nextFileNumber
  wals : ∀ n, m.NamesWal n → n ∉ l.tables ∧ n ∉ l.flushes
  tables : ∀ n, m.NamesTable n → n ∉ l.wals
  pending : ∀ n, m.FlushNumber n → n ∉ l.used
  flush : ∀ job, w.flushJob? = some job → job.tableNumber ∉ l.used
  compaction : ∀ n, w.compactionNumber? = some n →
    n ∉ l.wals ∧ n ∉ l.tables ∧ n ∉ l.flushes ∧ (w.outputNumber? = none → n ∉ l.outputs)

namespace Respected

variable {l : Ledger} {m : ManifestSnapshot} {w w' : Worker}

/-- Numbers from `next_file_number` on are new. -/
theorem not_mem_used (h : l.Respected m w) {n : ℕ} (hn : m.nextFileNumber ≤ n) : n ∉ l.used :=
  fun hmem => (h.used_lt n hmem).not_ge hn

theorem not_mem_flushes (h : l.Respected m w) {n : ℕ} (hn : m.nextFileNumber ≤ n) :
    n ∉ l.flushes :=
  fun hmem => (h.flushes_lt n hmem).not_ge hn

theorem idle (h : l.Respected m w) (hflush : w'.flushJob? = none)
    (hcompaction : w'.compactionNumber? = none) : l.Respected m w' :=
  ⟨h.used_lt, h.flushes_lt, h.wals, h.tables, h.pending, by simp [hflush], by simp [hcompaction]⟩

theorem rotated (h : l.Respected m w) : l.Respected (Handle.rotatedManifest m) w where
  used_lt n hn := (h.used_lt n hn).trans_le (Nat.le_add_right _ _)
  flushes_lt n hn := (h.flushes_lt n hn).trans_le (Nat.le_add_right _ _)
  wals n hn := by
    rcases hn with rfl | ⟨-, rfl⟩
    · have hused := h.not_mem_used (Nat.le_succ m.nextFileNumber)
      exact ⟨fun hmem => hused (.inr (.inl hmem)), h.not_mem_flushes (Nat.le_succ _)⟩
    · exact h.wals _ (.inl rfl)
  tables := h.tables
  pending n hn := by
    obtain rfl : n = m.nextFileNumber := Nat.succ.inj hn.2
    exact h.not_mem_used le_rfl
  flush := h.flush
  compaction := h.compaction

/-- The first region of a flush derives the number kept for it. -/
theorem flushing (h : l.Respected m w) {job : FlushJob} {phase : BuildPhase}
    (hjob : m.FlushNumber job.tableNumber) : l.Respected m (.flushing job phase) :=
  ⟨h.used_lt, h.flushes_lt, h.wals, h.tables, h.pending,
    fun _ heq => Option.some.inj heq ▸ h.pending _ hjob, by intros; contradiction⟩

theorem flushed {job : FlushJob} {phase : BuildPhase} {out : Output}
    (h : l.Respected m (.flushing job phase)) (hnumber : out.table.number = job.tableNumber)
    (hflush : w'.flushJob? = none) (hcompaction : w'.compactionNumber? = none) :
    l.Respected (Handle.flushedManifest m out) w' where
  used_lt := h.used_lt
  flushes_lt := h.flushes_lt
  wals n hn := by
    rcases hn with rfl | ⟨h0, -⟩
    · exact h.wals _ (.inl rfl)
    · exact absurd rfl h0
  tables n hn := by
    rw [ManifestSnapshot.NamesTable, Handle.flushedManifest, List.map_append, List.mem_append] at hn
    rcases hn with hn | hn
    · exact h.tables n hn
    · obtain rfl : n = out.table.number := List.mem_singleton.mp hn
      exact fun hmem => h.flush job rfl (.inl (hnumber ▸ hmem))
  pending n hn := absurd rfl hn.1
  flush := by simp [hflush]
  compaction := by simp [hcompaction]

theorem reserved (h : l.Respected m w) {job : CompactionJob} (hjob : job.number = m.nextFileNumber) :
    l.Respected (Handle.reservedManifest m) (.merging job) where
  used_lt n hn := (h.used_lt n hn).trans (Nat.lt_succ_self _)
  flushes_lt n hn := (h.flushes_lt n hn).trans (Nat.lt_succ_self _)
  wals := h.wals
  tables := h.tables
  pending := h.pending
  flush := by intros; contradiction
  compaction n hn := by
    obtain rfl : job.number = n := Option.some.inj hn
    have hused := h.not_mem_used hjob.ge
    exact ⟨fun hmem => hused (.inl hmem), fun hmem => hused (.inr (.inl hmem)),
      h.not_mem_flushes hjob.ge, fun _ hmem => hused (.inr (.inr hmem))⟩

/-- The worker goes on with its compaction. -/
theorem compacting {job : CompactionJob} (h : l.Respected m w)
    (hold : w.compactionNumber? = some job.number) (hnew : w'.compactionNumber? = some job.number)
    (hflush : w'.flushJob? = none) (hout : w'.outputNumber? = none → w.outputNumber? = none) :
    l.Respected m w' := by
  refine ⟨h.used_lt, h.flushes_lt, h.wals, h.tables, h.pending, by simp [hflush], fun n hn => ?_⟩
  rw [hnew] at hn
  obtain rfl := Option.some.inj hn
  obtain ⟨hwal, htable, hkept, houtput⟩ := h.compaction _ hold
  exact ⟨hwal, htable, hkept, fun hnone => houtput (hout hnone)⟩

/-- A compaction names its output, or gives the number back that nothing got. -/
theorem compacted (h : l.Respected m w) {job : CompactionJob} {replacement : Option Output}
    (hnumber : ∀ out, replacement = some out → out.table.number = job.number)
    (hwals : job.number ∉ l.wals)
    (hback : replacement = none → job.number ∉ l.used ∧ job.number ∉ l.flushes) :
    l.Respected (Handle.compactedManifest m job replacement) w := by
  have hkept : ∀ {n}, n ∈ (m.liveTables.drop job.metas.length).map TableMeta.fileNumber →
      n ∉ l.wals := by
    intro n hn
    rw [List.map_drop] at hn
    exact h.tables n (List.mem_of_mem_drop hn)
  cases replacement with
  | none =>
    obtain ⟨hused, hflushes⟩ := hback rfl
    exact ⟨fun n hn => Allocated.lt_compacted_next (h.used_lt n hn) (ne_of_mem_of_not_mem hn hused),
      fun n hn => Allocated.lt_compacted_next (h.flushes_lt n hn)
        (ne_of_mem_of_not_mem hn hflushes),
      h.wals, fun n hn => hkept hn, h.pending, h.flush, h.compaction⟩
  | some out =>
    have hle : m.nextFileNumber ≤
        (Handle.compactedManifest m job (some out)).nextFileNumber := by
      simp only [Handle.compactedManifest]
      split <;> omega
    refine ⟨fun n hn => (h.used_lt n hn).trans_le hle, fun n hn => (h.flushes_lt n hn).trans_le hle,
      h.wals, fun n hn => ?_, h.pending, h.flush, h.compaction⟩
    rcases List.mem_cons.mp hn with rfl | hn
    · show out.table.number ∉ l.wals
      rwa [hnumber out rfl]
    · exact hkept hn

/-! ## Regions -/

variable {o : Options} {d₀ : Directory} {h h' : Handle} {readers : Set Table}

theorem onlyFiles (hl : l.Respected h.manifest w) (hfiles : h.OnlyFiles h') :
    l.Respected h'.manifest w := by
  obtain ⟨d, t, p, rfl⟩ := hfiles
  exact hl

theorem onlyFlags (hl : l.Respected h.manifest w) (hflags : h.OnlyFlags h') :
    l.Respected h'.manifest w := by
  obtain ⟨e, c₁, c₂, r₁, r₂, f₁, f₂, k, rfl⟩ := hflags
  exact hl

theorem rotate {fault : Option RotateFault} {status : Status}
    (hr : h.rotateMemTable fault = (h', status)) (hl : l.Respected h.manifest w) :
    l.Respected h'.manifest w := by
  rcases Handle.rotateMemTable_cases hr with ⟨hwal, -⟩ | ⟨rfl, -⟩ | ⟨rfl, -⟩
  · exact hl.onlyFiles hwal.onlyFiles
  · have hprepared := hl.onlyFiles h.onlyFiles_withWal
    exact hprepared
  · obtain ⟨d, t, heq⟩ := h.rotated_eq
    rw [heq]
    exact hl.rotated

theorem commitFlush {job : FlushJob} {out : Output} {fault : Option PublishFault} {status : Status}
    (hr : h.commitFlush o job out fault = (h', status))
    (hl : l.Respected h.manifest (.flushing job (.ready out)))
    (hnumber : out.table.number = job.tableNumber) (hflush : w'.flushJob? = none)
    (hcompaction : w'.compactionNumber? = none) : l.Respected h'.manifest w' := by
  rcases Handle.commitFlush_cases hr with ⟨rfl, -⟩ | ⟨rfl, -⟩ | ⟨rfl, -⟩
  · exact hl.idle hflush hcompaction
  · exact hl.idle hflush hcompaction
  · exact hl.flushed hnumber hflush hcompaction

theorem beginCompaction {fault : Option PublishFault} {r : Except Status CompactionJob}
    (hr : h.beginBackgroundCompaction o fault = (h', r)) (hl : l.Respected h.manifest w) :
    l.Respected h'.manifest (System.continued false .merging r) := by
  rcases Handle.beginBackgroundCompaction_cases hr with
    ⟨rfl, status, rfl⟩ | ⟨status, rfl, rfl, -⟩ | ⟨rfl, rfl, -⟩
  · exact hl.idle rfl rfl
  · exact hl.idle rfl rfl
  · exact hl.reserved rfl

theorem commitCompaction {job : CompactionJob} {replacement : Option Output}
    {fault : Option PublishFault} {fails : FileName → Bool} {status : Status}
    (hr : h.commitCompaction job replacement fault fails = (h', status))
    (hl : l.Respected h.manifest w)
    (hnumber : ∀ out, replacement = some out → out.table.number = job.number)
    (hwals : job.number ∉ l.wals)
    (hback : replacement = none → job.number ∉ l.used ∧ job.number ∉ l.flushes) :
    l.Respected h'.manifest w := by
  rcases Handle.commitCompaction_cases hr with ⟨rfl, -⟩ | ⟨rfl, -⟩ | ⟨rfl, -⟩
  · exact hl
  · exact hl
  · exact onlyFiles (hl.compacted hnumber hwals hback) (.removeAll _ _ _)

theorem compactTablePrefix {inputCount : ℕ} {f : Handle.CompactFaults} {status : Status}
    (hr : h.compactTablePrefix o inputCount f = (h', status))
    (ha : Allocated o d₀ h w readers) (hl : l.Respected h.manifest w) :
    l.Respected h'.manifest w := by
  have hcommit : ∀ {h₁ : Handle} {replacement : Option Output} {h' status}
      {job : CompactionJob}, l.Respected h₁.manifest w →
      job.number = h₁.manifest.nextFileNumber →
      (∀ out, replacement = some out → out.table.number = job.number) →
      h₁.commitCompaction job replacement f.publish f.fails = (h', status) →
      l.Respected h'.manifest w := by
    intro h₁ replacement h' status job hl₁ hjob hnumber hc
    have hused := hl₁.not_mem_used hjob.ge
    exact commitCompaction hc hl₁ hnumber (fun hmem => hused (.inl hmem))
      fun _ => ⟨hused, hl₁.not_mem_flushes hjob.ge⟩
  rcases Handle.compactTablePrefix_cases hr with
    ⟨rfl, -⟩ | ⟨-, h₁, rfl, rfl | ⟨_, -, -, hc⟩ | ⟨_, h₂, r, -, -, hbuild, hend⟩⟩
  · exact hl
  · exact hl.onlyFiles (.cleanupObsoleteFiles _ _ _)
  · exact hcommit (hl.onlyFiles (.cleanupObsoleteFiles _ _ _)) rfl (by intros; contradiction) hc
  · obtain ⟨-, hbuilt⟩ := (ha.cleanupObsoleteFiles _ _).buildOutput hbuild
    have hl₂ := (hl.onlyFiles (.cleanupObsoleteFiles _ _ _)).onlyFiles
      (Handle.OnlyFiles.buildOutput hbuild)
    rcases hend with ⟨-, rfl⟩ | ⟨out, rfl, hc⟩
    · exact hl₂
    · have hnext : (h.cleanupObsoleteFiles f.sweep.listed f.sweep.fails).manifest = h₂.manifest := by
        obtain ⟨d, t, p, rfl⟩ := Handle.OnlyFiles.buildOutput hbuild
        rfl
      refine hcommit hl₂ (congrArg ManifestSnapshot.nextFileNumber hnext) (fun out' ho => ?_) hc
      cases ho
      exact (hbuilt out rfl).number_eq

/-- The output of the worker has the number of its job. -/
theorem number_of_ready {out : Output} {number : ℕ} {entries : List InternalEntry}
    (hb : BuildPhase.Holds o number entries h.dir (.ready out)) : out.table.number = number :=
  hb.1.number_eq

/-- A step keeps the state off the ledger. -/
theorem step [EntrySize] {faultFree : Bool} {s s' : System} (hstep : System.Step o faultFree s s')
    (ha : Allocated o d₀ s.handle s.worker readers) (hl : l.Respected s.handle.manifest s.worker) :
    l.Respected s'.handle.manifest s'.worker := by
  cases hstep with
  | write f _ happly =>
    exact Handle.applyWriteGroup_keeps (fun h => l.Respected h.manifest s.worker)
      (fun _ _ _ hl => hl) (fun _ _ _ _ hl => hl) (fun _ _ _ _ hr hl => hl.rotate hr) happly hl
  | getSnapshot | releaseSnapshot | compactCall | compactResume | closeWake | next => exact hl
  | workerExit => exact hl.idle rfl rfl
  | workerClaim =>
    refine (hl.onlyFlags (.claim s.handle)).idle ?_ ?_
    · simp only [Handle.claim]
      repeat' split
      all_goals rfl
    · simp only [Handle.claim]
      repeat' split
      all_goals rfl
  | flushBegin sweep _ _ hr =>
    obtain ⟨hfiles, ⟨status, rfl, -⟩ | ⟨m, -, hwal, hactive, -, -, rfl, rfl⟩⟩ :=
      Handle.beginFlush_cases hr
    · exact (hl.onlyFiles hfiles).idle rfl rfl
    · obtain ⟨d, t, p, heq⟩ := hfiles
      rw [heq]
      exact hl.flushing ⟨hwal, Nat.sub_add_cancel (by omega)⟩
  | @flushBuild job phase _ r fault _ hworker hphase hr =>
    rw [hworker] at hl
    have hl' := hl.onlyFiles (Handle.OnlyFiles.buildStep (by simp) hphase hr)
    cases r with
    | ok phase' => exact ⟨hl'.used_lt, hl'.flushes_lt, hl'.wals, hl'.tables, hl'.pending, hl'.flush,
        by intros; contradiction⟩
    | error status => exact hl'.idle rfl rfl
  | @flushCommit job out _ status fault _ hworker hr =>
    rw [hworker] at ha hl
    refine commitFlush hr hl (number_of_ready ha.builds) ?_ ?_
    · split <;> rfl
    · split <;> rfl
  | flushRemove fails => exact (hl.onlyFiles (.bestEffortRemove _ _ _)).idle rfl rfl
  | compactBegin fault _ _ hr => exact beginCompaction hr hl
  | @compactMerge job fault _ hworker =>
    rw [hworker] at hl
    dsimp only
    split
    · exact hl.idle rfl rfl
    · exact hl.idle rfl rfl
    · split
      · exact hl.compacting rfl rfl rfl fun _ => rfl
      · exact hl.compacting rfl rfl rfl (by intros; contradiction)
  | @compactBuild job entries phase _ r fault _ hworker hphase hr =>
    rw [hworker] at hl
    have hl' := hl.onlyFiles (Handle.OnlyFiles.buildStep Handle.compactionChecked_error hphase hr)
    cases r with
    | ok phase' => exact hl'.compacting rfl rfl rfl (by intros; contradiction)
    | error status => exact hl'.idle rfl rfl
  | @compactCommit job entries out _ status fault fails _ hworker hr =>
    rw [hworker] at ha hl
    refine commitCompaction hr (hl.idle rfl rfl) (fun out' ho => ?_) (hl.compaction _ rfl).1
      (by intros; contradiction)
    cases ho
    exact number_of_ready ha.builds
  | @compactDrop job _ status fault fails _ hworker hr =>
    rw [hworker] at hl
    obtain ⟨hwal, htable, hflush, hout⟩ := hl.compaction _ rfl
    refine commitCompaction hr (hl.idle rfl rfl) (by intros; contradiction) hwal fun _ => ⟨?_, hflush⟩
    rintro (hmem | hmem | hmem)
    · exact hwal hmem
    · exact htable hmem
    · exact hout rfl hmem
  | workerException => exact hl.idle rfl rfl
  | workerAccount => exact (hl.onlyFlags (.account _ _ _)).idle rfl rfl
  | compactRun f _ _ hr => exact compactTablePrefix hr ha hl
  | closeCall => split <;> exact hl
  | closeRound fault _ _ hr =>
    rcases Handle.closeRound_cases hr with hflags | ⟨h₁, status, hrotate, hflags⟩
    · exact hl.onlyFlags hflags
    · exact (hl.rotate hrotate).onlyFlags hflags
  | closeSync fault _ _ hr =>
    rcases Handle.closeSyncWal_cases hr with hflags | hflags
    · exact hl.onlyFlags hflags
    · exact (hl.onlyFiles (.perform s.handle _)).onlyFlags hflags
  | closeJoined fault _ _ _ hr =>
    cases hr
    exact hl

end Respected

/-! ## Files -/

/-- The name is not that of a table of the ledger. -/
def Spares (l : Ledger) (name : FileName) : Prop := ∀ n ∈ l.tables, name ≠ .sst n

variable {l : Ledger}

theorem spares_of_isWal (name : FileName) (hname : name.IsWal) : l.Spares name := by
  obtain ⟨number, rfl⟩ := hname
  exact fun _ _ heq => by cases heq

theorem spares_of_isTable {number : ℕ} (hnumber : number ∉ l.tables) (name : FileName)
    (hname : name.IsTable number) : l.Spares name := by
  rintro n hn rfl
  rcases hname with heq | heq
  · exact hnumber (FileName.sst.inj heq ▸ hn)
  · cases heq

open Directory (Keeps)

/-- A step writes no table of the ledger. -/
theorem Respected.keeps_step [EntrySize] {o : Options} {faultFree : Bool} {s s' : System}
    (hstep : System.Step o faultFree s s') (hl : l.Respected s.handle.manifest s.worker) :
    Keeps l.Spares s.handle.dir s'.handle.dir := by
  have hflags : ∀ {h h' : Handle}, h.OnlyFlags h' → Keeps l.Spares h.dir h'.dir := by
    rintro h h' ⟨e, c₁, c₂, r₁, r₂, f₁, f₂, k, rfl⟩
    exact .refl _ _
  have hbuild : ∀ {context checked number entries fault phase} {h h' : Handle} {r},
      number ∉ l.tables → (∀ out s, checked out = some s → s.ok = false) →
      (∀ out, phase ≠ .ready out) →
      h.buildStep o context checked number entries fault phase = (h', r) →
      Keeps l.Spares h.dir h'.dir := by
    intro context checked number entries fault phase h h' r hnumber hchecked hphase hr
    cases r with
    | ok phase' =>
      exact (Handle.buildStep_ok hphase hr).keeps.mono (spares_of_isTable hnumber)
    | error status =>
      rcases (Handle.buildStep_error hchecked hr).2 with rfl | ⟨-, rfl⟩
      · exact .refl _ _
      · exact Handle.keeps_perform h _ fun _ hw => spares_of_isTable hnumber _ (.inr hw)
  have hused : ∀ {n}, n ∉ l.used → n ∉ l.tables := fun hn hmem => hn (.inr (.inl hmem))
  cases hstep with
  | write f _ happly => exact (Handle.keeps_applyWriteGroup happly).mono spares_of_isWal
  | getSnapshot | releaseSnapshot | compactCall | compactResume | closeWake | next | workerExit |
    compactMerge | workerException => exact .refl _ _
  | workerClaim => exact hflags (.claim s.handle)
  | flushBegin sweep _ _ hr =>
    rcases Handle.beginFlush_dir hr with rfl | rfl
    · exact .refl _ _
    · exact Handle.keeps_cleanupObsoleteFiles _ _ _ _
  | @flushBuild job phase _ r fault _ hworker hphase hr =>
    rw [hworker] at hl
    exact hbuild (hused (hl.flush job rfl)) (by simp) hphase hr
  | flushCommit fault _ _ hr => exact Handle.keeps_commitFlush _ hr
  | flushRemove fails => exact Handle.keeps_bestEffortRemove _ _ _ _
  | compactBegin fault _ _ hr => exact Handle.keeps_beginBackgroundCompaction _ hr
  | @compactBuild job entries phase _ r fault _ hworker hphase hr =>
    rw [hworker] at hl
    exact hbuild (hl.compaction _ rfl).2.1 Handle.compactionChecked_error hphase hr
  | compactCommit fault fails _ _ hr => exact Handle.keeps_commitCompaction _ hr
  | compactDrop fault fails _ _ hr => exact Handle.keeps_commitCompaction _ hr
  | workerAccount => exact hflags (.account _ _ _)
  | compactRun f _ _ hr =>
    exact (Handle.keeps_compactTablePrefix hr).mono
      (spares_of_isTable (hused (hl.not_mem_used le_rfl)))
  | closeCall => split <;> exact .refl _ _
  | closeRound fault _ _ hr =>
    rcases Handle.closeRound_cases hr with hf | ⟨h₁, status, hrotate, hf⟩
    · exact hflags hf
    · exact ((Handle.keeps_rotate hrotate).mono spares_of_isWal).trans (hflags hf)
  | closeSync fault _ _ hr =>
    rcases Handle.closeSyncWal_cases hr with hf | hf
    · exact hflags hf
    · have hsync : Keeps FileName.IsWal s.handle.dir
          (s.handle.perform (.sync (.wal s.handle.manifest.activeWalNumber))).dir :=
        Handle.keeps_perform s.handle _ fun _ hw => ⟨_, hw⟩
      exact (hsync.mono spares_of_isWal).trans (hflags hf)
  | closeJoined fault _ _ _ hr =>
    cases hr
    exact .refl _ _

end Ledger

/-! ## Runs -/

/-- The numbers that a state uses. -/
def System.ledger (s : System) : Ledger where
  wals := { n | s.handle.manifest.NamesWal n }
  tables := { n | s.handle.manifest.NamesTable n }
  outputs := { n | s.worker.outputNumber? = some n }
  flushes := { n | s.FlushNumber n }

/-- The files that a later state names are not others than those an earlier one named under the same
numbers. -/
structure System.KeepsNumbers (s s' : System) : Prop where
  /-- `next_file_number` stays above the numbers of the WALs, of the tables, of the table of the
  immutable WAL and of a background output. -/
  below : ∀ n, s.handle.manifest.NamesWal n ∨ s.handle.manifest.NamesTable n ∨ s.FlushNumber n ∨
    s.worker.outputNumber? = some n → n < s'.handle.manifest.nextFileNumber
  wal : ∀ n, s.handle.manifest.NamesWal n → ¬ s'.handle.manifest.NamesTable n
  table : ∀ n, s.handle.manifest.NamesTable n → ¬ s'.handle.manifest.NamesWal n
  /-- The readers are those of the tables that the Manifest names, ... -/
  readers : s.handle.tables.map Table.number =
    s.handle.manifest.liveTables.map TableMeta.fileNumber
  /-- ... with the same contents under the same number. -/
  contents : ∀ t ∈ s.handle.tables, ∀ t' ∈ s'.handle.tables, t.number = t'.number → t = t'
  files : ∀ n, s.handle.manifest.NamesTable n →
    s'.handle.dir.files (.sst n) = s.handle.dir.files (.sst n) ∨ s'.handle.dir.files (.sst n) = none
  /-- A flush does not take the number of a file, ... -/
  flush : ∀ n, s'.FlushNumber n → ¬ s.handle.manifest.NamesWal n ∧
    ¬ s.handle.manifest.NamesTable n ∧ s.worker.outputNumber? ≠ some n
  /-- ... and nothing else takes the number of a flush. -/
  reserved : ∀ n, s.FlushNumber n → ¬ s'.handle.manifest.NamesWal n ∧
    s'.worker.compactionNumber? ≠ some n

/-- A state is off its own ledger. -/
theorem Allocated.respected {o : Options} {d₀ : Directory} {readers : Set Table} {s : System}
    (ha : Allocated o d₀ s.handle s.worker readers) :
    s.ledger.Respected s.handle.manifest s.worker := by
  have htable : ∀ n, s.handle.manifest.NamesTable n → n < s.handle.manifest.nextFileNumber ∧
      s.handle.manifest.FreeOfWals n ∧ ∃ t ∈ readers, t.number = n := by
    intro n hn
    rw [ManifestSnapshot.NamesTable, ← ha.numbers] at hn
    obtain ⟨t, ht, rfl⟩ := List.mem_map.mp hn
    have hmem := ha.live t ht
    exact ⟨ha.lt_next t hmem, ha.free t hmem, t, hmem, rfl⟩
  have houtput : ∀ n, s.worker.outputNumber? = some n → s.worker.compactionNumber? = some n := by
    intro n hn
    cases hw : s.worker with
    | compacting job entries phase =>
      rw [hw] at hn
      exact hn
    | _ => simp [hw, Worker.outputNumber?] at hn
  have hflush : ∀ n, s.handle.manifest.FlushNumber n → n < s.handle.manifest.nextFileNumber := by
    intro n hn
    have hactive := ha.valid.active_lt
    have hnumber := hn.2
    omega
  refine ⟨fun n hn => ?_, fun n hn => ?_, fun n hn => ⟨fun hmem => ?_, fun hmem => ?_⟩,
    fun n hn hwal => ?_, fun n hn hmem => ?_, fun job hjob hmem => ?_, fun n hn => ?_⟩
  · rcases hn with hn | hn | hn
    · exact ha.valid.namesWal_lt hn
    · exact (htable n hn).1
    · exact (ha.compaction n (houtput n hn)).1
  · rcases hn with hn | ⟨job, hjob, rfl⟩
    · exact hflush n hn
    · exact (ha.flush job hjob).1
  · exact (htable n hmem).2.1.wal hn
  · rcases hmem with hmem | ⟨job, hjob, rfl⟩
    · exact ha.pending n hn hmem
    · exact (ha.flush job hjob).2.2 hn
  · exact (htable n hn).2.1.wal hwal
  · rcases hmem with hmem | hmem | hmem
    · exact ha.pending n hmem hn
    · exact (htable n hmem).2.1.flush hn
    · exact (ha.compaction n (houtput n hmem)).2.2.flush hn
  · obtain ⟨-, hfresh, hwal⟩ := ha.flush job hjob
    rcases hmem with hmem | hmem | hmem
    · exact hwal hmem
    · obtain ⟨-, -, t, ht, hnumber⟩ := htable _ hmem
      exact hfresh t ht hnumber
    · cases hw : s.worker <;> simp [hw, Worker.flushJob?] at hjob
      simp [hw, System.ledger, Worker.outputNumber?] at hmem
  · obtain ⟨-, hfresh, hfree⟩ := ha.compaction n hn
    refine ⟨hfree.wal, fun hmem => ?_, ?_, fun hnone hmem => ?_⟩
    · obtain ⟨-, -, t, ht, hnumber⟩ := htable _ hmem
      exact hfresh t ht hnumber
    · rintro (hmem | ⟨job, hjob, rfl⟩)
      · exact hfree.flush hmem
      · cases hw : s.worker <;> simp [hw, Worker.flushJob?] at hjob
        simp [hw, Worker.compactionNumber?] at hn
    · cases hnone.symm.trans hmem

/-! ## A failed output -/

/-- The Manifest of an explicit compaction is not published. -/
def unpublished : Handle.CompactFaults where
  sweep := ⟨none, fun _ => false⟩
  publish := some (.notPublished ⟨.ioError "write", rfl⟩)

/-- A put is flushed, and a thread is about to compact the table. -/
def flushedThenCompact : List Move :=
  .write [WriterQueue.firstRequest] :: List.replicate 10 (.worker []) ++ [.compact 0, .call 0 []]

/-- Another put fills the MemTable, and its flush begins. -/
def flushBehindCompact : List Move := [.write [WriterQueue.firstRequest], .worker [], .worker []]

/-- An explicit compaction fails behind its output 4, and the next flush builds table 4. -/
theorem exists_failed_output :
    let _ := entrySize80
    let o : Options := { memtableBytes := 1 }
    ∃ (h₀ h : Handle) (status : Status) (s s' : System) (job : FlushJob),
      Handle.open o .empty ⟨false, []⟩ ⟨none, fun _ => false⟩ = .ok h₀ ∧
      (System.system o false).Run (System.started h₀) s ∧ s.handle.manifest.NamesTable 2 ∧
      s.handle.dir.files (.sst 4) = none ∧ s.handle.compactTablePrefix o 1 unpublished = (h, status) ∧
      status.ok = false ∧ (h.dir.files (.sst 4)).isSome ∧
      System.Step o false s
        { s with handle := h, calls := Function.update s.calls 0 (.returned status) } ∧
      (System.system o false).Run
        { s with handle := h, calls := Function.update s.calls 0 (.returned status) } s' ∧
      s'.worker.flushJob? = some job ∧ job.tableNumber = 4 := by
  intro _ o
  have htests : ((System.openThen o .empty ⟨false, []⟩ ⟨none, fun _ => false⟩
      flushedThenCompact).map fun s =>
        let r := s.handle.compactTablePrefix o 1 unpublished
        (decide (s.calls 0 = .compactReady 1 ∧
            s.handle.manifest.liveTables.map TableMeta.fileNumber = [2] ∧
            (s.handle.dir.files (.sst 4)).isNone ∧ r.2.ok = false ∧
            (r.1.dir.files (.sst 4)).isSome),
          (System.moves o { s with
              handle := r.1, calls := Function.update s.calls 0 (.returned r.2) }
            flushBehindCompact).map fun s' => s'.worker.flushJob?.map FlushJob.tableNumber)) =
      some (true, some (some 4)) := by
    decide +kernel
  obtain ⟨s, hs, htests⟩ := Option.map_eq_some_iff.mp htests
  simp only [Prod.mk.injEq, decide_eq_true_eq, Option.isNone_iff_eq_none] at htests
  obtain ⟨⟨hcall, htables, hnone, hfail, hsome⟩, hlater⟩ := htests
  obtain ⟨s', hs', hjob⟩ := Option.map_eq_some_iff.mp hlater
  obtain ⟨job, hjob, hnumber⟩ := Option.map_eq_some_iff.mp hjob
  obtain ⟨h₀, hopen, hmoves⟩ := System.openThen_eq_some hs
  refine ⟨h₀, _, _, s, s', job, hopen, System.moves_run hmoves, ?_, hnone, rfl, hfail, hsome,
    .compactRun unpublished (by simp) hcall rfl, System.moves_run hs', hjob, hnumber⟩
  rw [ManifestSnapshot.NamesTable, htables]
  exact List.mem_singleton_self 2

/-! ## Every run -/

section
variable [EntrySize]

/-- The numbers of every state of a run are kept by the rest of it, whatever fails in between. -/
theorem numbers_of_files_are_kept {o : Options} {d : Directory} {listing : Listing}
    {sweep : SweepFaults} {h : Handle} {s s' : System} (hd : d.Written)
    (hopen : Handle.open o d listing sweep = .ok h)
    (hs : (System.system o false).Run (System.started h) s) (hs' : (System.system o false).Run s s') :
    s.KeepsNumbers s' := by
  obtain ⟨readers, ha⟩ : ∃ readers, Allocated o d s.handle s.worker readers :=
    hs.keeps (P := fun s => ∃ readers, Allocated o d s.handle s.worker readers)
      (fun _ _ hstep ⟨_, ha⟩ => ⟨_, ha.step hstep⟩) ⟨_, Allocated.opened hopen hd.sound⟩
  obtain ⟨later, hle, ha', hl, hkeeps⟩ := hs'.keeps
    (P := fun s' => ∃ later, readers ⊆ later ∧ Allocated o d s'.handle s'.worker later ∧
      s.ledger.Respected s'.handle.manifest s'.worker ∧
      s.handle.dir.Keeps s.ledger.Spares s'.handle.dir)
    (fun _ _ hstep ⟨_, hle, ha, hl, hkeeps⟩ => ⟨_, hle.trans Set.subset_union_left, ha.step hstep,
      hl.step hstep ha, hkeeps.trans (hl.keeps_step hstep)⟩)
    ⟨readers, subset_rfl, ha, ha.respected, .refl _ _⟩
  refine ⟨fun n hn => ?_, fun n hwal htable => hl.tables n htable hwal,
    fun n htable hwal => (hl.wals n hwal).1 htable, ha.numbers,
    fun t ht t' ht' heq => ha'.unique t (hle (ha.live t ht)) t' (ha'.live t' ht') heq,
    fun n htable => hkeeps _ fun hspares => hspares n htable rfl, fun n hn => ?_, fun n hn => ?_⟩
  · rcases hn with hn | hn | hn | hn
    · exact hl.used_lt n (.inl hn)
    · exact hl.used_lt n (.inr (.inl hn))
    · exact hl.flushes_lt n hn
    · exact hl.used_lt n (.inr (.inr hn))
  · have hfresh : n ∉ s.ledger.used := by
      rcases hn with hn | ⟨job, hjob, rfl⟩
      · exact hl.pending n hn
      · exact hl.flush job hjob
    exact ⟨fun hwal => hfresh (.inl hwal), fun htable => hfresh (.inr (.inl htable)),
      fun hout => hfresh (.inr (.inr hout))⟩
  · exact ⟨fun hwal => (hl.wals n hwal).2 hn, fun hjob => (hl.compaction n hjob).2.2.1 hn⟩

end

/-- A put is flushed, an explicit compaction fails behind its output, and the next flush begins. -/
theorem numbers_of_files_are_kept_behind_failure :
    let _ := entrySize80
    ∃ s s' : System, s.handle.manifest.NamesTable 2 ∧ s'.FlushNumber 4 ∧ s.KeepsNumbers s' := by
  intro _
  obtain ⟨h₀, h, status, s, s', job, hopen, hs, htable, -, -, -, -, hstep, hs', hjob, hnumber⟩ :=
    exists_failed_output
  exact ⟨s, s', htable, .inr ⟨job, hjob, hnumber⟩, numbers_of_files_are_kept (.new rfl fun _ => rfl)
    hopen hs (.head hstep hs')⟩

/-- The number of a failed output is handed out again: a flush derives it. -/
theorem flush_takes_number_of_failed_output :
    let _ := entrySize80
    let o : Options := { memtableBytes := 1 }
    ∃ (s s' : System) (h : Handle) (status : Status) (job : FlushJob),
      (System.system o false).Reachable s ∧
      s.handle.compactTablePrefix o 1 unpublished = (h, status) ∧ status.ok = false ∧
      s.handle.dir.files (.sst job.tableNumber) = none ∧
      (h.dir.files (.sst job.tableNumber)).isSome ∧
      System.Step o false s
        { s with handle := h, calls := Function.update s.calls 0 (.returned status) } ∧
      (System.system o false).Run
        { s with handle := h, calls := Function.update s.calls 0 (.returned status) } s' ∧
      s'.worker.flushJob? = some job := by
  intro _ o
  obtain ⟨h₀, h, status, s, s', job, hopen, hs, -, hnone, hr, hfail, hsome, hstep, hs', hjob,
    hnumber⟩ := exists_failed_output
  refine ⟨s, s', h, status, job, ⟨_, ⟨.empty, ⟨false, []⟩, ⟨none, fun _ => false⟩, h₀, by simp, hopen,
    rfl⟩, hs⟩, hr, hfail, ?_, ?_, hstep, hs', hjob⟩
  · rw [hnumber]
    exact hnone
  · rw [hnumber]
    exact hsome

end TinyLsm
