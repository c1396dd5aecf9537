import TinyLsm.Db.Writes

/-!
# The calls of `Publish`

Rotation, flush and the two regions of a compaction derive the next Manifest from the current one
and hand it to `Publish`. `System.Publishes` says which Manifest a region hands over in which state; what
a step publishes is one of these.
-/

namespace TinyLsm

/-! ## What is handed over -/

namespace Handle

/-- `RotateMemTable` passes its checks, and hands the Manifest to `Publish`. -/
structure RotationPublishes (h : Handle) (next : ManifestSnapshot) : Prop where
  immutable : h.immutable.isSome = false
  memtable : h.memtable.isEmpty = false
  tables : h.manifest.liveTables.length = h.tables.length
  space : h.manifest.nextFileNumber < 2 ^ 64 - 2
  next_eq : next = rotatedManifest h.manifest

/-- The last region of `FlushImmutableMemTable` does. -/
structure FlushPublishes (h : Handle) (job : FlushJob) (out : Output) (next : ManifestSnapshot) :
    Prop where
  immutable : h.immutable.isNone = false
  immutableWal : h.manifest.immutableWalNumber = job.immutableWal
  activeWal : h.manifest.activeWalNumber = job.tableNumber + 1
  matches_properties : out.tableMeta.matches out.properties
  next_eq : next = flushedManifest h.manifest out

/-- The first region of a background `CompactTablePrefix` does. -/
structure ReservationPublishes (o : Options) (h : Handle) (next : ManifestSnapshot) : Prop where
  status : h.compactionStatus o o.compactionTableTrigger true = none
  space : h.manifest.nextFileNumber ≠ 2 ^ 64 - 1
  next_eq : next = reservedManifest h.manifest

/-- The last region of `CompactTablePrefix` does. -/
structure CompactionPublishes (h : Handle) (job : CompactionJob) (replacement : Option Output)
    (next : ManifestSnapshot) : Prop where
  tables : h.manifest.liveTables.length = h.tables.length
  length_le : job.metas.length ≤ h.tables.length
  numbers : (h.manifest.liveTables.take job.metas.length).map TableMeta.fileNumber =
    job.metas.map TableMeta.fileNumber
  next_eq : next = compactedManifest h.manifest job replacement

/-- An explicit `CompactTablePrefix` gets to its last region. -/
inductive CompactsTo (o : Options) (h : Handle) (inputCount : ℕ) (f : CompactFaults) :
    Handle → CompactionJob → Option Output → Prop
  | drop {h₁ merged} (hstatus : h.compactionStatus o inputCount false = none)
      (hsweep : h₁ = h.cleanupObsoleteFiles f.sweep.listed f.sweep.fails)
      (hmerged : mergedEntries (h₁.selectTables inputCount).tables = .ok merged)
      (hnil : h₁.retained (h₁.selectTables inputCount) merged = []) :
      CompactsTo o h inputCount f h₁ (h₁.selectTables inputCount) none
  | build {h₁ h₂ merged out} (hstatus : h.compactionStatus o inputCount false = none)
      (hsweep : h₁ = h.cleanupObsoleteFiles f.sweep.listed f.sweep.fails)
      (hmerged : mergedEntries (h₁.selectTables inputCount).tables = .ok merged)
      (hbuild : h₁.buildOutput o h₁.manifest.nextFileNumber
        (h₁.retained (h₁.selectTables inputCount) merged) f = (h₂, .ok out)) :
      CompactsTo o h inputCount f h₂ (h₁.selectTables inputCount) (some out)

end Handle

/-- A region of a thread hands the Manifest to `Publish`. -/
inductive System.Publishes [EntrySize] (o : Options) (s : System) (next : ManifestSnapshot) : Prop
  /-- `PrepareForWrite` rotates. -/
  | rotateBefore (hopen : s.handle.checkOpen.ok) (hfull : o.memtableBytes ≤ s.handle.memtable.bytes)
      (hnext : s.handle.RotationPublishes next)
  /-- `ApplyWriteGroup` rotates behind the group it stored. -/
  | rotateBehind {group : List WriterRequest} {f : WriteFaults} {h₁ : Handle} {status : Status}
      {bytes : Bytes} {memtable : MemTable}
      (hprepare : s.handle.prepareForWrite o f.rotateBefore = some (h₁, status)) (hok : status.ok)
      (hencode : encodeWalBatch (groupEntries h₁.nextSequence group) o.limits = .ok bytes)
      (hstore : (h₁.logged o bytes).memtable.applyBatch (groupEntries h₁.nextSequence group) =
        .ok memtable)
      (hfull : o.memtableBytes ≤ memtable.bytes)
      (hnext : Handle.RotationPublishes
        { h₁.logged o bytes with
          nextSequence := (h₁.logged o bytes).nextSequence +
            (groupEntries h₁.nextSequence group).length
          memtable } next)
  /-- The loop of `Close` rotates. -/
  | rotateClose {t : ℕ} (hcall : s.calls t = .closeLoop) (hnext : s.handle.RotationPublishes next)
  | flush {job : FlushJob} {out : Output} (hworker : s.worker = .flushing job (.ready out))
      (hnext : s.handle.FlushPublishes job out next)
  | reserve (hworker : s.worker = .claimed false) (hnext : s.handle.ReservationPublishes o next)
  | compact {job : CompactionJob} {entries : List InternalEntry} {out : Output}
      (hworker : s.worker = .compacting job entries (.ready out))
      (hnext : s.handle.CompactionPublishes job (some out) next)
  | drop {job : CompactionJob} (hworker : s.worker = .dropping job)
      (hnext : s.handle.CompactionPublishes job none next)
  /-- An explicit compaction. -/
  | explicit {t inputCount : ℕ} {f : Handle.CompactFaults} {h : Handle} {job : CompactionJob}
      {replacement : Option Output} (hcall : s.calls t = .compactReady inputCount)
      (hreach : s.handle.CompactsTo o inputCount f h job replacement)
      (hnext : h.CompactionPublishes job replacement next)

/-! ## What a step publishes -/

namespace Handle

/-- Only Manifests with the property were published in between. -/
def PublishesOnly (P : ManifestSnapshot → Prop) (h h' : Handle) : Prop :=
  ∀ m, DirOp.publish m ∈ h'.trace → DirOp.publish m ∈ h.trace ∨ P m

section
variable {o : Options} {P : ManifestSnapshot → Prop} {h h' h'' : Handle}

namespace PublishesOnly

theorem of_eq (htrace : h'.trace = h.trace) : PublishesOnly P h h' := fun _ hm => .inl (htrace ▸ hm)

theorem refl (h : Handle) : PublishesOnly P h h := of_eq rfl

theorem trans (hh : PublishesOnly P h h') (hh' : PublishesOnly P h' h'') : PublishesOnly P h h'' :=
  fun m hm => (hh' m hm).elim (hh m) .inr

theorem perform {op : DirOp} (hop : ∀ m, op = .publish m → P m) :
    PublishesOnly P h (h.perform op) := by
  intro m hm
  rcases List.mem_append.mp hm with hm | hm
  · exact .inl hm
  · exact .inr (hop m (List.mem_singleton.mp hm).symm)

theorem onlyFlags (hflags : h.OnlyFlags h') : PublishesOnly P h h' := by
  obtain ⟨e, c₁, c₂, r₁, r₂, f₁, f₂, stop, rfl⟩ := hflags
  exact refl h

theorem visible {next : ManifestSnapshot} (hnext : P next) (status : Status) :
    PublishesOnly P h { h.perform (.publish next) with terminalError := some status } := by
  have hpublished : PublishesOnly P h (h.perform (.publish next)) :=
    perform fun m hm => by cases hm; exact hnext
  exact hpublished.trans (of_eq rfl)

theorem withManifest {next : ManifestSnapshot} (hnext : P next) :
    PublishesOnly P h (h.withManifest next) := by
  have hpublished : PublishesOnly P h (h.perform (.publish next)) :=
    perform fun m hm => by cases hm; exact hnext
  have hsynced : PublishesOnly P (h.perform (.publish next))
      ((h.perform (.publish next)).perform .syncDir) := perform (by simp)
  exact (hpublished.trans hsynced).trans (of_eq rfl)

theorem bestEffortRemove (h : Handle) (name : FileName) (fails : Bool) :
    PublishesOnly P h (h.bestEffortRemove name fails) := by
  unfold Handle.bestEffortRemove
  split
  · split
    · exact refl h
    · exact of_eq rfl
  · exact perform (by simp)

theorem removeAll (names : List FileName) (fails : FileName → Bool) (h : Handle) :
    PublishesOnly P h (h.removeAll names fails) := by
  unfold Handle.removeAll
  induction names generalizing h with
  | nil => exact refl h
  | cons name names ih => exact (bestEffortRemove h name (fails name)).trans (ih _)

theorem cleanupObsoleteFiles (h : Handle) (listed : Option (List FileName))
    (fails : FileName → Bool) : PublishesOnly P h (h.cleanupObsoleteFiles listed fails) := by
  have hpending : PublishesOnly P h
      ({ h with pendingCleanup := [] }.removeAll h.pendingCleanup fails) :=
    (of_eq rfl : PublishesOnly P h { h with pendingCleanup := [] }).trans (removeAll _ _ _)
  cases listed with
  | none => exact hpending
  | some names => exact hpending.trans (removeAll _ _ _)

theorem buildsTo {checked : Output → Option Status} {number : ℕ} {entries : List InternalEntry}
    {phase phase' : BuildPhase} (hb : BuildsTo o checked number entries h phase h' phase') :
    PublishesOnly P h h' := by
  cases hb with
  | create => exact perform (by simp)
  | write =>
    have hwritten : PublishesOnly P h (h.perform (.append (.sstTmp number) (tableBytes o entries))) :=
      perform (by simp)
    exact hwritten.trans (perform (by simp))
  | verify => exact refl h
  | rename => exact perform (by simp)
  | syncDir => exact perform (by simp)

theorem buildStep {context : BuildContext} {checked : Output → Option Status} {number : ℕ}
    {entries : List InternalEntry} {fault : Option Failure} {phase : BuildPhase}
    {r : Except Status BuildPhase} (hchecked : ∀ out s, checked out = some s → s.ok = false)
    (hphase : ∀ out, phase ≠ .ready out)
    (hr : h.buildStep o context checked number entries fault phase = (h', r)) :
    PublishesOnly P h h' := by
  cases r with
  | ok phase' => exact buildsTo (buildStep_ok hphase hr)
  | error status =>
    rcases (buildStep_error hchecked hr).2 with rfl | ⟨-, rfl⟩
    · exact refl _
    · exact perform (by simp)

theorem buildOutput {number : ℕ} {entries : List InternalEntry} {f : CompactFaults}
    {r : Except Status Output} (hr : h.buildOutput o number entries f = (h', r)) :
    PublishesOnly P h h' := by
  have hrule := buildOutput_rule (fun _ h₁ => PublishesOnly P h h₁) (PublishesOnly P h)
    (fun _ _ _ _ hb hp => hp.trans (buildsTo hb)) (fun _ _ hp => hp)
    (fun _ hp => hp.trans (perform (by simp))) hr (refl h)
  cases r with
  | ok out => exact hrule
  | error status => exact hrule.2

theorem withWal (h : Handle) : PublishesOnly P h h.withWal := by
  have hcreated : PublishesOnly P h (h.perform (.create (.wal (h.manifest.nextFileNumber + 1)))) :=
    perform (by simp)
  exact hcreated.trans (perform (by simp))

theorem published {next : ManifestSnapshot} {fault : Option PublishFault} {terminal context : String}
    {durable : Handle → Handle} {status : Status}
    (hr : Handle.published (h.publish next fault) terminal context durable = (h', status))
    (hnext : P next) (hdurable : ∀ h, PublishesOnly P h (durable h)) : PublishesOnly P h h' := by
  rcases published_cases hr with ⟨rfl, -⟩ | ⟨rfl, -⟩ | ⟨rfl, -⟩
  · exact refl _
  · exact visible hnext status
  · exact (withManifest hnext).trans (hdurable _)

theorem rotate {fault : Option RotateFault} {status : Status}
    (hr : h.rotateMemTable fault = (h', status)) (hP : ∀ m, h.RotationPublishes m → P m) :
    PublishesOnly P h h' := by
  unfold rotateMemTable at hr
  split at hr
  · cases hr
    exact refl h
  rename_i himmutable
  split at hr
  · cases hr
    exact refl h
  rename_i hmemtable
  split at hr
  · cases hr
    exact refl h
  rename_i htables
  split at hr
  · cases hr
    exact refl h
  rename_i hspace
  have hnext : P (rotatedManifest h.manifest) :=
    hP _ ⟨by simpa using himmutable, by simpa using hmemtable, not_not.mp htables, not_le.mp hspace,
      rfl⟩
  dsimp only at hr
  split at hr
  · cases hr
    exact refl h
  · cases hr
    exact perform (by simp)
  · exact (withWal h).trans (published hr hnext fun _ => of_eq rfl)
  · exact (withWal h).trans (published hr hnext fun _ => of_eq rfl)

theorem commitFlush {job : FlushJob} {out : Output} {fault : Option PublishFault} {status : Status}
    (hr : h.commitFlush o job out fault = (h', status))
    (hP : ∀ m, h.FlushPublishes job out m → P m) : PublishesOnly P h h' := by
  unfold Handle.commitFlush at hr
  split at hr
  · cases hr
    exact refl h
  rename_i hsame
  split at hr
  · cases hr
    exact refl h
  rename_i hmatches
  simp only [not_or, ne_eq, not_not, Bool.not_eq_true] at hsame
  exact published hr (hP _ ⟨hsame.1, hsame.2.1, hsame.2.2, by simpa using hmatches, rfl⟩) fun _ =>
    of_eq rfl

theorem beginCompaction {fault : Option PublishFault} {r : Except Status CompactionJob}
    (hr : h.beginBackgroundCompaction o fault = (h', r))
    (hP : ∀ m, h.ReservationPublishes o m → P m) : PublishesOnly P h h' := by
  unfold beginBackgroundCompaction at hr
  split at hr
  · cases hr
    exact refl h
  rename_i hstatus
  split at hr
  · cases hr
    exact refl h
  rename_i hspace
  obtain ⟨rfl, -⟩ := Prod.mk.inj hr
  exact published rfl (hP _ ⟨hstatus, hspace, rfl⟩) fun _ => refl _

theorem commitCompaction {job : CompactionJob} {replacement : Option Output}
    {fault : Option PublishFault} {fails : FileName → Bool} {status : Status}
    (hr : h.commitCompaction job replacement fault fails = (h', status))
    (hP : ∀ m, h.CompactionPublishes job replacement m → P m) : PublishesOnly P h h' := by
  unfold Handle.commitCompaction at hr
  split at hr
  · cases hr
    exact refl h
  rename_i hlength
  split at hr
  · cases hr
    exact refl h
  rename_i hnumbers
  rw [not_or, not_not, not_lt] at hlength
  refine published hr (hP _ ⟨hlength.1, hlength.2, not_not.mp hnumbers, rfl⟩) fun h₁ => ?_
  exact (of_eq rfl).trans (removeAll _ _ _)

theorem compactTablePrefix {inputCount : ℕ} {f : CompactFaults} {status : Status}
    (hr : h.compactTablePrefix o inputCount f = (h', status))
    (hP : ∀ h₁ job replacement m, h.CompactsTo o inputCount f h₁ job replacement →
      h₁.CompactionPublishes job replacement m → P m) : PublishesOnly P h h' := by
  have hsweep : PublishesOnly P h (h.cleanupObsoleteFiles f.sweep.listed f.sweep.fails) :=
    cleanupObsoleteFiles _ _ _
  rcases compactTablePrefix_cases hr with
    ⟨rfl, -⟩ | ⟨hstatus, h₁, rfl, rfl | ⟨_, hmerged, hnil, hc⟩ |
      ⟨_, h₂, r, hmerged, -, hbuild, hend⟩⟩
  · exact refl _
  · exact hsweep
  · exact hsweep.trans (commitCompaction hc fun m => hP _ _ _ m (.drop hstatus rfl hmerged hnil))
  · have hbuilt := hsweep.trans (buildOutput hbuild)
    rcases hend with ⟨-, rfl⟩ | ⟨out, rfl, hc⟩
    · exact hbuilt
    · exact hbuilt.trans (commitCompaction hc fun m => hP _ _ _ m (.build hstatus rfl hmerged hbuild))

theorem storeEntries [EntrySize] {entries : List InternalEntry} {fault : Option RotateFault}
    {status : Status} (hr : h.storeEntries o entries fault = (h', status))
    (hP : ∀ memtable m, h.memtable.applyBatch entries = .ok memtable →
      o.memtableBytes ≤ memtable.bytes → RotationPublishes
        { h with nextSequence := h.nextSequence + entries.length, memtable } m → P m) :
    PublishesOnly P h h' := by
  simp only [Handle.storeEntries] at hr
  split at hr
  · cases hr
    exact of_eq rfl
  rename_i memtable hstore
  split at hr
  · rename_i hfull
    have hrotated := rotate (P := P) hr fun m hm => hP memtable m hstore hfull.1 hm
    exact trans (of_eq rfl) hrotated
  · cases hr
    exact of_eq rfl

theorem prepareForWrite {fault : Option RotateFault} {status : Status}
    (hr : h.prepareForWrite o fault = some (h', status))
    (hP : ∀ m, h.checkOpen.ok → o.memtableBytes ≤ h.memtable.bytes → h.RotationPublishes m → P m) :
    PublishesOnly P h h' := by
  rcases prepareForWrite_cases hr with ⟨rfl, -⟩ | ⟨hopen, -, hfull, hr⟩ | ⟨rfl, -⟩
  · exact refl _
  · exact rotate hr fun m hm => hP m hopen hfull hm
  · exact refl _

end PublishesOnly

end

end Handle

section
variable [EntrySize] {o : Options} {s s' : System}

theorem System.publishesOnly_write {group : List WriterRequest} {f : WriteFaults} {h : Handle}
    {status : Status} (hr : s.handle.applyWriteGroup o group f = some (h, status)) :
    Handle.PublishesOnly (s.Publishes o) s.handle h := by
  have hprepared : ∀ {h₁ status}, s.handle.prepareForWrite o f.rotateBefore = some (h₁, status) →
      Handle.PublishesOnly (s.Publishes o) s.handle h₁ := fun hprepare =>
    .prepareForWrite hprepare fun m hopen hfull hm => .rotateBefore hopen hfull hm
  cases Handle.applyWriteGroup_writesTo hr with
  | empty => exact .refl _
  | refused hprepare => exact hprepared hprepare
  | torn hprepare => exact (hprepared hprepare).trans (.perform (by simp))
  | unsynced hprepare => exact (hprepared hprepare).trans (.perform (by simp))
  | @stored h₁ s₁ bytes _ _ hprepare hok hencode _ hstore =>
    refine (hprepared hprepare).trans (.trans ?_ (.storeEntries hstore fun memtable m hm hfull hnext =>
      .rotateBehind hprepare hok hencode hm hfull hnext))
    unfold Handle.logged
    split
    · have happended : Handle.PublishesOnly (s.Publishes o) h₁
          (h₁.perform (.append (.wal h₁.manifest.activeWalNumber) bytes)) := .perform (by simp)
      exact happended.trans (.perform (by simp))
    · exact .perform (by simp)

/-- A Manifest that a step publishes is one that a region of its thread hands over. -/
theorem System.Step.publishesOnly {faultFree : Bool} (hstep : System.Step o faultFree s s') :
    Handle.PublishesOnly (s.Publishes o) s.handle s'.handle := by
  cases hstep with
  | write f _ happly => exact System.publishesOnly_write happly
  | getSnapshot | releaseSnapshot => exact .of_eq rfl
  | workerExit | workerException | compactMerge => exact .refl _
  | workerClaim => exact .onlyFlags (.claim _)
  | flushBegin sweep _ _ hr =>
    rcases Handle.beginFlush_dir hr with rfl | rfl
    · exact .refl _
    · exact .cleanupObsoleteFiles _ _ _
  | flushBuild fault _ _ hphase hr => exact .buildStep (by simp) hphase hr
  | flushCommit fault _ hworker hr => exact .commitFlush hr fun m hm => .flush hworker hm
  | flushRemove fails => exact .bestEffortRemove _ _ _
  | compactBegin fault _ hworker hr => exact .beginCompaction hr fun m hm => .reserve hworker hm
  | compactBuild fault _ _ hphase hr =>
    exact .buildStep Handle.compactionChecked_error hphase hr
  | compactCommit fault fails _ hworker hr =>
    exact .commitCompaction hr fun m hm => .compact hworker hm
  | compactDrop fault fails _ hworker hr => exact .commitCompaction hr fun m hm => .drop hworker hm
  | workerAccount => exact .onlyFlags (.account _ _ _)
  | compactCall | compactResume | closeWake | next => exact .refl _
  | compactRun f _ hcall hr =>
    exact .compactTablePrefix hr fun h₁ job replacement m hreach hm => .explicit hcall hreach hm
  | closeCall =>
    split
    · exact .refl _
    · exact .of_eq rfl
  | closeRound fault _ hcall hr =>
    rcases Handle.closeRound_cases hr with hflags | ⟨h₁, status, hrotate, hflags⟩
    · exact .onlyFlags hflags
    · exact (Handle.PublishesOnly.rotate hrotate fun m hm => .rotateClose hcall hm).trans
        (.onlyFlags hflags)
  | closeSync fault _ _ hr =>
    rcases Handle.closeSyncWal_cases hr with hflags | hflags
    · exact .onlyFlags hflags
    · have hsynced : Handle.PublishesOnly (s.Publishes o) s.handle
          (s.handle.perform (.sync (.wal s.handle.manifest.activeWalNumber))) := .perform (by simp)
      exact hsynced.trans (.onlyFlags hflags)
  | closeJoined fault _ _ _ hr =>
    cases hr
    exact .of_eq rfl

end

end TinyLsm
