import TinyLsm.Db.Answers
import TinyLsm.Db.Writes

/-!
# The store is the log of its commits

Over the runs of a handle goes the list of the committed operations, and for every snapshot that
list as it was at its creation. `Get` answers with the last operation on the key in these lists,
however flushes and compactions move the versions and drop them.
-/

namespace TinyLsm

/-! ## The versions of a handle -/

namespace Handle

/-- The layers hold the same versions. -/
def SameVersions (h h' : Handle) : Prop := ∀ e, e ∈ h'.versions ↔ e ∈ h.versions

/-- The reads that can still come see the same. -/
def SameVisible (reads : Set ℕ) (h h' : Handle) : Prop :=
  ∀ key value, ∀ q ∈ reads,
    VisibleValue h.versions key q value ↔ VisibleValue h'.versions key q value

variable {o : Options} {h h' h'' : Handle}

theorem mem_versions {e : InternalEntry} : e ∈ h.versions ↔
    e ∈ h.tables.flatMap Table.entries ∨ e ∈ h.memtable.contents ∨
      ∃ m, h.immutable = some m ∧ e ∈ m.contents := by
  simp only [versions, memtables, List.mem_append, List.flatMap_cons]
  cases h.immutable <;> simp

theorem SameVersions.of_eq (htables : h'.tables = h.tables) (hmemtable : h'.memtable = h.memtable)
    (himmutable : h'.immutable = h.immutable) : SameVersions h h' := by
  intro e
  rw [mem_versions, mem_versions, htables, hmemtable, himmutable]

theorem SameVersions.refl (h : Handle) : SameVersions h h := fun _ => Iff.rfl

theorem SameVersions.trans (hh : SameVersions h h') (hh' : SameVersions h' h'') :
    SameVersions h h'' :=
  fun e => (hh' e).trans (hh e)

theorem SameVersions.sameVisible (hh : SameVersions h h') (reads : Set ℕ) :
    SameVisible reads h h' :=
  fun _ _ _ _ => VisibleValue.congr fun e => (hh e).symm

theorem SameVisible.trans {reads : Set ℕ} (hh : SameVisible reads h h')
    (hh' : SameVisible reads h' h'') : SameVisible reads h h'' :=
  fun key value q hq => (hh key value q hq).trans (hh' key value q hq)

theorem OnlyFiles.sameVersions (hh : OnlyFiles h h') : SameVersions h h' := by
  obtain ⟨d, t, p, rfl⟩ := hh
  exact .refl h

theorem OnlyFlags.sameVersions (hh : OnlyFlags h h') : SameVersions h h' := by
  obtain ⟨e, c₁, c₂, r₁, r₂, f₁, f₂, stop, rfl⟩ := hh
  exact .refl h

theorem sameVersions_rotate {fault : Option RotateFault} {status : Status}
    (hr : h.rotateMemTable fault = (h', status)) : SameVersions h h' := by
  rcases rotateMemTable_cases hr with ⟨hw, -⟩ | ⟨rfl, -⟩ | ⟨rfl, -, -, himmutable, -⟩
  · exact hw.onlyFiles.sameVersions
  · exact h.onlyFiles_withWal.sameVersions.trans (.of_eq rfl rfl rfl)
  · obtain ⟨d, t, heq⟩ := h.rotated_eq
    intro e
    rw [heq, mem_versions, mem_versions, himmutable]
    simp [MemTable.empty, MemTable.contents]

theorem sameVersions_prepareForWrite {fault : Option RotateFault} {status : Status}
    (hr : h.prepareForWrite o fault = some (h', status)) : SameVersions h h' :=
  prepareForWrite_keeps (SameVersions h) sameVersions_rotate hr (.refl h)

/-- The table of a flush holds what the immutable MemTable held. -/
theorem sameVersions_commitFlush {d₀ : Directory} {readers : Set Table} {job : FlushJob}
    {out : Output} {fault : Option PublishFault} {status : Status}
    (hr : h.commitFlush o job out fault = (h', status))
    (ha : Allocated o d₀ h (.flushing job (.ready out)) readers)
    (hl : Layered o h (.flushing job (.ready out))) (hspace : h.nextSequence < 2 ^ 64) :
    SameVersions h h' := by
  rcases commitFlush_cases hr with ⟨rfl, -⟩ | ⟨rfl, -⟩ | ⟨rfl, -⟩
  · exact .refl _
  · exact .of_eq rfl rfl rfl
  obtain ⟨⟨m, hm, hentries⟩, -⟩ := hl.output
  have hbuilt : out.Built o job.tableNumber job.entries := ha.builds.1
  have hholds := hbuilt.holds fun e he => ((hl.sealed m hm e (hentries ▸ he)).2.1).trans hspace
  have hout : out.table.entries = m.contents := hholds.entries_eq.trans hentries
  intro e
  rw [mem_versions, mem_versions, hm]
  simp only [installFlush, withManifest_tables, withManifest_memtable, List.flatMap_append,
    List.flatMap_cons, List.flatMap_nil, List.append_nil, List.mem_append, hout]
  simp only [reduceCtorEq, false_and, exists_false, or_false, Option.some.injEq, exists_eq_left']
  exact or_assoc.trans (or_congr Iff.rfl or_comm)

/-- Behind the inputs of a compaction the layers are newer. -/
theorem layered_behind {w : Worker} (hl : Layered o h w) (k : ℕ) :
    ∀ a ∈ (h.tables.take k).flatMap Table.entries,
      ∀ b ∈ (h.tables.drop k).flatMap Table.entries ++ h.memtables.flatMap MemTable.contents,
        a.sequence < b.sequence := by
  intro a ha b hb
  obtain ⟨t, ht, ha⟩ := List.mem_flatMap.mp ha
  rcases List.mem_append.mp hb with hb | hb
  · obtain ⟨t', ht', hb⟩ := List.mem_flatMap.mp hb
    have hincrease := Layered.tables_increase hl.tables (Layered.ranges_pairwise hl.valid)
    rw [← List.take_append_drop k h.tables] at hincrease
    exact (List.pairwise_append.mp hincrease).2.2 t ht t' ht' a ha b hb
  · refine (hl.flushed_le (List.mem_flatMap_of_mem (List.mem_of_mem_take ht) ha)).trans_lt ?_
    rw [memtables, List.flatMap_cons] at hb
    rcases List.mem_append.mp hb with hb | hb
    · exact (hl.active b hb).1
    · obtain ⟨m', hm', hb⟩ := List.mem_flatMap.mp hb
      exact (hl.sealed m' (by simpa using hm') b hb).1

/-- The output of a compaction answers the reads that can still come as its inputs did. -/
theorem sameVisible_commitCompaction {d₀ : Directory} {readers : Set Table} {w : Worker}
    {job : CompactionJob} {replacement : Option Output} {entries : List InternalEntry}
    {reads : Set ℕ} {fault : Option PublishFault} {fails : FileName → Bool} {status : Status}
    (hr : h.commitCompaction job replacement fault fails = (h', status))
    (ha : Allocated o d₀ h w readers) (hl : Layered o h w)
    (hs : job.Selected readers h.nextSequence) (hk : job.Keeps reads entries)
    (hout : (replacement.map Output.table).toList.flatMap Table.entries = entries) :
    SameVisible reads h h' := by
  rcases commitCompaction_cases hr with ⟨rfl, -⟩ | ⟨rfl, -⟩ | ⟨rfl, -, -, -, -, hnumbers, -⟩
  · exact (SameVersions.refl _).sameVisible reads
  · exact (SameVersions.of_eq rfl rfl rfl).sameVisible reads
  set upper := (h.tables.drop job.metas.length).flatMap Table.entries ++
    h.memtables.flatMap MemTable.contents with hupper
  have hold : h.versions = job.inputs ++ upper := by
    rw [versions, hupper, CompactionJob.inputs, ← hs.tables_eq ha hnumbers, ← List.append_assoc,
      ← List.flatMap_append, List.take_append_drop]
  have hbehind : ∀ a ∈ job.inputs, ∀ b ∈ upper, a.sequence < b.sequence := by
    rw [CompactionJob.inputs, ← hs.tables_eq ha hnumbers]
    exact layered_behind hl job.metas.length
  have hnew : SameVersions { h with
      tables := (replacement.map Output.table).toList ++ h.tables.drop job.metas.length }
      ((h.withManifest (compactedManifest h.manifest job replacement)).installCompaction job
        replacement fails) := by
    obtain ⟨d, t, p, heq⟩ := h.installCompaction_eq (compactedManifest h.manifest job replacement)
      job replacement fails
    rw [heq]
    exact .of_eq rfl rfl rfl
  intro key value q hq
  rw [hold, visibleValue_append_congr hbehind (fun a ha => hbehind a (hk.subset a ha))
    (hk.visible key value q hq)]
  refine Iff.trans ?_ (hnew.sameVisible Set.univ key value q trivial)
  refine VisibleValue.congr fun e => ?_
  rw [versions, List.flatMap_append, hout, List.append_assoc]
  rfl

/-- The entries of a built output. -/
theorem entries_of_built {number : ℕ} {entries : List InternalEntry} {out : Output}
    {job : CompactionJob} {readers : Set Table} {reads : Set ℕ} {next : ℕ}
    (hb : out.Built o number entries) (hs : job.Selected readers next) (hk : job.Keeps reads entries)
    (hspace : next < 2 ^ 64) :
    ((some out).map Output.table).toList.flatMap Table.entries = entries := by
  have hholds := hb.holds fun e he => (hs.below e (hk.subset e he)).trans hspace
  simpa using hholds.entries_eq

/-- An explicit compaction. -/
theorem sameVisible_compactTablePrefix {d₀ : Directory} {readers : Set Table} {s : System}
    {inputCount : ℕ} {f : CompactFaults} {status : Status} (hk : Kept o d₀ readers s)
    (hr : s.handle.compactTablePrefix o inputCount f = (h', status)) :
    SameVisible s.handle.reads s.handle h' := by
  have hfiles := OnlyFiles.cleanupObsoleteFiles s.handle f.sweep.listed f.sweep.fails
  have hswept := hfiles.sameVersions.sameVisible s.handle.reads
  have ha := hk.allocated.cleanupObsoleteFiles f.sweep.listed f.sweep.fails
  have hl := hk.layered.onlyFiles hfiles
  have hc := hk.compacts.congr (subset_refl readers) hfiles.sameReads.1
    hfiles.sameReads.2
  have hreads : (s.handle.cleanupObsoleteFiles f.sweep.listed f.sweep.fails).reads =
      s.handle.reads := by
    obtain ⟨d, t, p, heq⟩ := hfiles
    rw [heq]
    rfl
  have hs := Compacts.selected ha hl inputCount
  obtain ⟨merged', hmerged', hkeeps⟩ := hs.keeps hc.space hc.snapshots
  rw [hreads] at hkeeps
  rcases compactTablePrefix_cases hr with
    ⟨rfl, -⟩ | ⟨-, h₁, rfl, rfl | ⟨merged, hmerged, hnil, hcommit⟩ |
      ⟨merged, h₂, r, hmerged, -, hbuild, hend⟩⟩
  · exact (SameVersions.refl _).sameVisible _
  · exact hswept
  · obtain rfl := Except.ok.inj (hmerged'.symm.trans hmerged)
    rw [hnil] at hkeeps
    exact hswept.trans (sameVisible_commitCompaction hcommit ha hl hs hkeeps rfl)
  · obtain rfl := Except.ok.inj (hmerged'.symm.trans hmerged)
    have hbuildFiles := OnlyFiles.buildOutput hbuild
    have hbuilt := hswept.trans (hbuildFiles.sameVersions.sameVisible _)
    obtain ⟨ha₂, houtput⟩ := ha.buildOutput hbuild
    have hl₂ := hl.onlyFiles hbuildFiles
    rcases hend with ⟨-, rfl⟩ | ⟨out, rfl, hcommit⟩
    · exact hbuilt
    · have hnext : h₂.nextSequence =
          (s.handle.cleanupObsoleteFiles f.sweep.listed f.sweep.fails).nextSequence :=
        hbuildFiles.sameReads.1
      refine hbuilt.trans (sameVisible_commitCompaction hcommit ha₂ hl₂ (hnext ▸ hs) hkeeps
        (entries_of_built (houtput out rfl) hs hkeeps hc.space))

/-! ## Commits -/

section
variable [EntrySize] {group : List WriterRequest} {f : WriteFaults} {status : Status}

/-- `ApplyWriteGroup` logs the group and applies it to the MemTable. -/
def Commits (o : Options) (h : Handle) (group : List WriterRequest) (f : WriteFaults)
    (h' : Handle) : Prop :=
  ∃ h₁ s₁ bytes m status, h.prepareForWrite o f.rotateBefore = some (h₁, s₁) ∧ s₁.ok ∧
    encodeWalBatch (groupEntries h₁.nextSequence group) o.limits = .ok bytes ∧
    h₁.memtable.applyBatch (groupEntries h₁.nextSequence group) = .ok m ∧
    (h₁.logged o bytes).storeEntries o (groupEntries h₁.nextSequence group) f.rotateAfter =
      (h', status)

omit [EntrySize] in
theorem sameReads_prepareForWrite {fault : Option RotateFault}
    (hr : h.prepareForWrite o fault = some (h', status)) : h.SameReads h' :=
  prepareForWrite_keeps (SameReads h) sameReads_rotate hr ⟨rfl, rfl⟩

/-- A commit adds the operations of the group, on the next sequences. -/
theorem Commits.versions {w : Worker} (hc : h.Commits o group f h') (hl : Layered o h w) :
    (∀ e, e ∈ h'.versions ↔ e ∈ h.versions ∨ e ∈ groupEntries h.nextSequence group) ∧
      h'.nextSequence = h.nextSequence + (groupEntries h.nextSequence group).length ∧
      h'.snapshots = h.snapshots := by
  obtain ⟨h₁, s₁, bytes, m, status, hprepare, -, -, hm, hstore⟩ := hc
  have hreads := sameReads_prepareForWrite hprepare
  have hl₁ := hl.prepareForWrite hprepare
  have hv₁ := sameVersions_prepareForWrite hprepare
  obtain ⟨d, t, p, hlogged⟩ := onlyFiles_logged o h₁ bytes
  rw [hlogged] at hstore
  rw [hreads.1] at hm hstore
  obtain ⟨-, hmem, -⟩ := hl₁.memtable.applyBatch hm
  simp only [storeEntries, hm] at hstore
  -- the state behind `ApplyBatch`
  have hstored : ∀ e, e ∈ Handle.versions { h₁ with
      dir := d, trace := t, pendingCleanup := p, memtable := m
      nextSequence := h.nextSequence + (groupEntries h.nextSequence group).length } ↔
      e ∈ h.versions ∨ e ∈ groupEntries h.nextSequence group := by
    intro e
    rw [← hv₁ e, mem_versions, mem_versions]
    simp only [hmem e, or_assoc]
    exact or_congr Iff.rfl (or_congr Iff.rfl or_comm)
  split at hstore
  · have hv := sameVersions_rotate hstore
    have hs := sameReads_rotate hstore
    exact ⟨fun e => (hv e).trans (hstored e), hs.1, hs.2.trans hreads.2⟩
  · cases hstore
    exact ⟨hstored, rfl, hreads.2⟩

/-- A write that does not commit leaves the versions as they are. -/
theorem sameVersions_of_not_commits (hr : h.applyWriteGroup o group f = some (h', status))
    (hnot : ¬ h.Commits o group f h') : SameVersions h h' := by
  cases applyWriteGroup_writesTo hr with
  | empty => exact .refl h
  | refused hprepare => exact sameVersions_prepareForWrite hprepare
  | torn hprepare =>
    exact (sameVersions_prepareForWrite hprepare).trans (OnlyFiles.perform _ _).sameVersions
  | unsynced hprepare =>
    exact (sameVersions_prepareForWrite hprepare).trans (OnlyFiles.perform _ _).sameVersions
  | @stored h₁ s₁ bytes _ _ hprepare hok hencode _ hstore =>
    cases hm : h₁.memtable.applyBatch (groupEntries h₁.nextSequence group) with
    | ok m => exact absurd ⟨h₁, s₁, bytes, m, status, hprepare, hok, hencode, hm, hstore⟩ hnot
    | error s =>
      have hlogged := onlyFiles_logged o h₁ bytes
      refine (sameVersions_prepareForWrite hprepare).trans (hlogged.sameVersions.trans ?_)
      obtain ⟨d, t, p, heq⟩ := hlogged
      rw [heq] at hstore ⊢
      simp only [storeEntries, hm] at hstore
      cases hstore
      exact .of_eq rfl rfl rfl

end

end Handle

section
variable [EntrySize] {o : Options} {faultFree : Bool} {d₀ : Directory} {readers : Set Table}
  {s s' : System}

/-- A step that does not commit a write leaves what can still be read. -/
theorem System.Step.sameVisible (hstep : System.Step o faultFree s s') (hk : Kept o d₀ readers s)
    (hnext : s'.handle.nextSequence = s.handle.nextSequence) :
    Handle.SameVisible s.handle.reads s.handle s'.handle := by
  have ha := hk.allocated
  have hl := hk.layered
  have hc := hk.compacts
  have hsame : ∀ {h' : Handle}, Handle.SameVersions s.handle h' →
      Handle.SameVisible s.handle.reads s.handle h' := fun hsame => hsame.sameVisible _
  cases hstep with
  | @write group h status f _ happly =>
    by_cases hcommit : s.handle.Commits o group f h
    · obtain ⟨hmem, hlength, -⟩ := hcommit.versions hl
      have hnil : groupEntries s.handle.nextSequence group = [] := by
        refine List.length_eq_zero_iff.mp ?_
        simp only at hnext
        omega
      refine hsame fun e => ?_
      rw [hmem e, hnil]
      simp
    · exact hsame (Handle.sameVersions_of_not_commits happly hcommit)
  | getSnapshot | releaseSnapshot => exact hsame (.of_eq rfl rfl rfl)
  | workerExit | workerException | compactMerge => exact hsame (.refl _)
  | workerClaim => exact hsame (Handle.OnlyFlags.claim _).sameVersions
  | flushBegin sweep _ _ hr => exact hsame (Handle.beginFlush_cases hr).1.sameVersions
  | flushBuild fault _ _ hphase hr =>
    exact hsame (Handle.OnlyFiles.buildStep (by simp) hphase hr).sameVersions
  | flushCommit fault _ hworker hr =>
    rw [hworker] at ha hl
    exact hsame (Handle.sameVersions_commitFlush hr ha hl hc.space)
  | flushRemove fails => exact hsame (Handle.OnlyFiles.bestEffortRemove _ _ _).sameVersions
  | compactBegin fault _ _ hr =>
    refine hsame ?_
    rcases Handle.beginBackgroundCompaction_cases hr with ⟨rfl, -⟩ | ⟨status, rfl, -⟩ | ⟨rfl, -⟩
    · exact .refl _
    · exact .of_eq rfl rfl rfl
    · exact .of_eq rfl rfl rfl
  | compactBuild fault _ _ hphase hr =>
    exact hsame (Handle.OnlyFiles.buildStep Handle.compactionChecked_error hphase hr).sameVersions
  | @compactCommit job entries out _ _ fault fails _ hworker hr =>
    rw [hworker] at ha hl hc
    obtain ⟨hselected, hkeeps⟩ := hc.worker
    exact Handle.sameVisible_commitCompaction hr ha hl hselected hkeeps
      (Handle.entries_of_built ha.builds.1 hselected hkeeps hc.space)
  | compactDrop fault fails _ hworker hr =>
    rw [hworker] at ha hl hc
    exact Handle.sameVisible_commitCompaction hr ha hl hc.worker.1 hc.worker.2 rfl
  | workerAccount => exact hsame (Handle.OnlyFlags.account _ _ _).sameVersions
  | compactCall | compactResume | closeWake | next => exact hsame (.refl _)
  | compactRun f _ _ hr => exact Handle.sameVisible_compactTablePrefix hk hr
  | closeCall =>
    refine hsame ?_
    split
    · exact .refl _
    · exact .of_eq rfl rfl rfl
  | closeRound fault _ _ hr =>
    rcases Handle.closeRound_cases hr with hflags | ⟨h₁, status, hrotate, hflags⟩
    · exact hsame hflags.sameVersions
    · exact hsame ((Handle.sameVersions_rotate hrotate).trans hflags.sameVersions)
  | closeSync fault _ _ hr =>
    rcases Handle.closeSyncWal_cases hr with hflags | hflags
    · exact hsame hflags.sameVersions
    · exact hsame ((Handle.OnlyFiles.perform s.handle _).sameVersions.trans hflags.sameVersions)
  | closeJoined fault _ _ _ hr =>
    cases hr
    exact hsame (.of_eq rfl rfl rfl)

end

/-! ## The history of a handle -/

/-- A handle with its history: the committed operations in commit order, and for each registered
snapshot its sequence and the operations that were committed when it was created. -/
structure History where
  system : System
  log : List InternalEntry
  held : List (ℕ × List InternalEntry)

/-- The last operation on a key. -/
def lastOn (log : List InternalEntry) (key : Bytes) : Option InternalEntry :=
  (log.filter fun e => decide (e.userKey = key)).getLast?

namespace History

section
variable [EntrySize] (o : Options) (faultFree : Bool)

/-- A step of the handle with its history. -/
inductive Step : History → History → Prop
  /-- A write group is committed. -/
  | commit {g : History} {group h status} (f : WriteFaults) (hf : faultFree → f = {})
      (happly : g.system.handle.applyWriteGroup o group f = some (h, status))
      (hcommit : g.system.handle.Commits o group f h) :
      Step g ⟨{ g.system with handle := h },
        g.log ++ groupEntries g.system.handle.nextSequence group, g.held⟩
  /-- A write group is not committed. -/
  | refuse {g : History} {group h status} (f : WriteFaults) (hf : faultFree → f = {})
      (happly : g.system.handle.applyWriteGroup o group f = some (h, status))
      (hcommit : ¬ g.system.handle.Commits o group f h) :
      Step g ⟨{ g.system with handle := h }, g.log, g.held⟩
  | getSnapshot {g : History} (hopen : g.system.handle.checkOpen.ok) :
      Step g ⟨{ g.system with
          handle := { g.system.handle with
            snapshots := (g.system.handle.nextSequence - 1) :: g.system.handle.snapshots } },
        g.log, (g.system.handle.nextSequence - 1, g.log) :: g.held⟩
  | releaseSnapshot {g : History} (sequence : ℕ) :
      Step g ⟨{ g.system with
          handle := { g.system.handle with
            snapshots := g.system.handle.snapshots.erase sequence } },
        g.log, g.held.eraseP fun p => decide (p.1 = sequence)⟩
  /-- Any other step: it issues no sequence and leaves the snapshots. -/
  | maintain {g : History} {s : System} (hstep : System.Step o faultFree g.system s)
      (hsame : g.system.handle.SameReads s.handle) : Step g ⟨s, g.log, g.held⟩

/-- The runs of a handle on a directory that the program left. What was recovered stands for the
operations before, in the order of their sequences; in a new database there are none. -/
def transitions : TransitionSystem History where
  init g := ∃ d listing sweep h, d.Written ∧ (faultFree → sweep.fails = fun _ => false) ∧
    Handle.open o d listing sweep = .ok h ∧ g.system = System.started h ∧
    g.log.Perm h.versions ∧ (g.log.Pairwise fun a b => a.sequence ≤ b.sequence) ∧ g.held = []
  step := Step o faultFree

variable {o faultFree}

/-- Every step of the handle is a step of its history. -/
theorem Step.exists_of_step {g : History} {s : System}
    (hstep : System.Step o faultFree g.system s) : ∃ g', g'.system = s ∧ Step o faultFree g g' := by
  rcases hstep.reads_cases with
    hsame | ⟨group, f, h, status, hf, happly, rfl⟩ | ⟨hopen, rfl⟩ | ⟨sequence, rfl⟩
  · exact ⟨_, rfl, .maintain hstep hsame⟩
  · by_cases hcommit : g.system.handle.Commits o group f h
    · exact ⟨_, rfl, .commit f hf happly hcommit⟩
    · exact ⟨_, rfl, .refuse f hf happly hcommit⟩
  · exact ⟨_, rfl, .getSnapshot hopen⟩
  · exact ⟨_, rfl, .releaseSnapshot sequence⟩

/-- The history adds nothing to the steps of the handle. -/
theorem Step.system_step {g g' : History} (hstep : Step o faultFree g g') :
    System.Step o faultFree g.system g'.system := by
  cases hstep with
  | commit f hf happly => exact .write f hf happly
  | refuse f hf happly => exact .write f hf happly
  | getSnapshot hopen => exact .getSnapshot hopen
  | releaseSnapshot sequence => exact .releaseSnapshot sequence
  | maintain hstep => exact hstep

end

/-! ## Refinement -/

/-- The log orders the operations by their sequences, below the next one; what is visible in the
layers is visible in it; and a snapshot holds the part of it that was there at its creation. -/
structure Refines (g : History) : Prop where
  sorted : g.log.Pairwise fun a b => a.sequence ≤ b.sequence
  distinct : Distinct g.log
  below : ∀ e ∈ g.log, e.sequence < g.system.handle.nextSequence
  visible : ∀ key value, ∀ q ∈ g.system.handle.reads,
    VisibleValue g.system.handle.versions key q value ↔ VisibleValue g.log key q value
  held : g.held.map Prod.fst = g.system.handle.snapshots
  logs : ∀ p ∈ g.held, ∃ behind, g.log = p.2 ++ behind ∧ (∀ e ∈ p.2, e.sequence ≤ p.1) ∧
    ∀ e ∈ behind, p.1 < e.sequence

namespace Refines

variable {o : Options} {d₀ : Directory} {readers : Set Table} {g g' : History}

/-- The layers may move while the same stays visible, and fewer reads can come. -/
theorem move (hr : Refines g) {s : System}
    (hvisible : Handle.SameVisible g.system.handle.reads g.system.handle s.handle)
    (hnext : g.system.handle.nextSequence ≤ s.handle.nextSequence)
    (hsnapshots : s.handle.snapshots = g.system.handle.snapshots) : Refines ⟨s, g.log, g.held⟩ := by
  have hreads : s.handle.reads ⊆ g.system.handle.reads :=
    Compacts.reads_subset hnext fun q hq => .inl (hsnapshots ▸ hq)
  refine ⟨hr.sorted, hr.distinct, fun e he => (hr.below e he).trans_le hnext,
    fun key value q hq => ?_, hr.held.trans hsnapshots.symm, hr.logs⟩
  exact (hvisible key value q (hreads hq)).symm.trans (hr.visible key value q (hreads hq))

/-- A committed group goes on top of the layers and behind the log. -/
theorem commit [EntrySize] {group : List WriterRequest} {f : WriteFaults} {h : Handle} {w : Worker}
    (hr : Refines g) (hl : Layered o g.system.handle w)
    (hversions : ∀ e ∈ g.system.handle.versions, e.sequence < g.system.handle.nextSequence)
    (hpos : ∀ q ∈ g.system.handle.snapshots, q < g.system.handle.nextSequence)
    (hcommit : g.system.handle.Commits o group f h) :
    Refines ⟨{ g.system with handle := h },
      g.log ++ groupEntries g.system.handle.nextSequence group, g.held⟩ := by
  obtain ⟨hmem, hnext, hsnapshots⟩ := hcommit.versions hl
  set entries := groupEntries g.system.handle.nextSequence group with hentries
  have hbounds : ∀ e ∈ entries, g.system.handle.nextSequence ≤ e.sequence ∧
      e.sequence < h.nextSequence := by
    intro e he
    obtain ⟨hge, hlt⟩ := sequence_assignSequences he
    refine ⟨hge, ?_⟩
    rw [hnext, hentries, groupEntries, length_assignSequences]
    exact hlt
  have hpairwise : entries.Pairwise fun a b => a.sequence < b.sequence :=
    pairwise_assignSequences _ _
  have hlog : ∀ a ∈ g.log, ∀ b ∈ entries, a.sequence < b.sequence := fun a ha b hb =>
    (hr.below a ha).trans_le (hbounds b hb).1
  have hlayers : ∀ a ∈ g.system.handle.versions, ∀ b ∈ entries, a.sequence < b.sequence :=
    fun a ha b hb => (hversions a ha).trans_le (hbounds b hb).1
  have hreads : h.reads ⊆ g.system.handle.reads :=
    Compacts.reads_subset (by omega) fun q hq => .inl (hsnapshots ▸ hq)
  refine ⟨?_, ?_, fun e he => ?_, fun key value q hq => ?_, hr.held.trans hsnapshots.symm,
    fun p hp => ?_⟩
  · exact List.pairwise_append.mpr ⟨hr.sorted, hpairwise.imp fun h => h.le, fun a ha b hb =>
      (hlog a ha b hb).le⟩
  · refine hr.distinct.append (hpairwise.imp fun hlt hsame => ?_) fun a ha b hb => (hlog a ha b hb).ne
    omega
  · rcases List.mem_append.mp he with he | he
    · have hlt := hr.below e he
      simp only
      omega
    · exact (hbounds e he).2
  · have hmem' : ∀ e, e ∈ h.versions ↔ e ∈ g.system.handle.versions ++ entries := fun e => by
      rw [hmem e, List.mem_append]
    rw [VisibleValue.congr hmem']
    rw [visibleValue_append hlayers, visibleValue_append hlog, hr.visible key value q (hreads hq)]
  · obtain ⟨behind, heq, hle, hlt⟩ := hr.logs p hp
    refine ⟨behind ++ entries, by rw [heq, List.append_assoc], hle, fun e he => ?_⟩
    rcases List.mem_append.mp he with he | he
    · exact hlt e he
    · have hq : p.1 ∈ g.system.handle.snapshots := hr.held ▸ List.mem_map_of_mem hp
      exact (hpos p.1 hq).trans_le (hbounds e he).1

theorem getSnapshot (hr : Refines g)
    (hpos : 0 < g.system.handle.nextSequence) :
    Refines ⟨{ g.system with
        handle := { g.system.handle with
          snapshots := (g.system.handle.nextSequence - 1) :: g.system.handle.snapshots } },
      g.log, (g.system.handle.nextSequence - 1, g.log) :: g.held⟩ := by
  refine ⟨hr.sorted, hr.distinct, hr.below, fun key value q hq => ?_, ?_, fun p hp => ?_⟩
  · have hq : q ∈ g.system.handle.reads := by
      rcases hq with hq | hq
      · rcases List.mem_cons.mp hq with rfl | hq
        · exact .inr (by omega)
        · exact .inl hq
      · exact .inr hq
    exact hr.visible key value q hq
  · rw [List.map_cons, hr.held]
  · rcases List.mem_cons.mp hp with rfl | hp
    · refine ⟨[], by simp, fun e he => ?_, by simp⟩
      have hlt := hr.below e he
      simp only
      omega
    · exact hr.logs p hp

theorem releaseSnapshot (hr : Refines g) (sequence : ℕ) :
    Refines ⟨{ g.system with
        handle := { g.system.handle with
          snapshots := g.system.handle.snapshots.erase sequence } },
      g.log, g.held.eraseP fun p => decide (p.1 = sequence)⟩ := by
  refine ⟨hr.sorted, hr.distinct, hr.below, fun key value q hq => ?_, ?_, fun p hp => ?_⟩
  · have hq : q ∈ g.system.handle.reads := hq.imp List.mem_of_mem_erase id
    exact hr.visible key value q hq
  · have herase : (g.held.eraseP fun p => decide (p.1 = sequence)).map Prod.fst =
        (g.held.map Prod.fst).eraseP fun q => decide (q = sequence) := by
      rw [List.eraseP_map]
      rfl
    rw [herase, hr.held, List.erase_eq_eraseP]
    congr 1
    funext q
    exact decide_eq_decide.mpr eq_comm
  · exact hr.logs p (List.mem_of_mem_eraseP hp)

section
variable [EntrySize] {faultFree : Bool}

/-- Every step keeps the layers and the log together. -/
theorem step (hstep : Step o faultFree g g') (hk : Kept o d₀ readers g.system) (hr : Refines g) :
    Refines g' := by
  cases hstep with
  | commit f _ _ hcommit =>
    exact hr.commit hk.layered (fun e he => hk.layered.versions_lt he) hk.compacts.snapshots hcommit
  | refuse f hf happly hcommit =>
    have hversions := Handle.sameVersions_of_not_commits happly hcommit
    obtain ⟨hnext, -, hsnapshots⟩ := Handle.applyWriteGroup_reads happly
    exact hr.move (hversions.sameVisible _) hnext hsnapshots
  | getSnapshot _ => exact hr.getSnapshot ((Nat.zero_le _).trans_lt hk.layered.next)
  | releaseSnapshot sequence => exact hr.releaseSnapshot sequence
  | maintain hstep hsame => exact hr.move (hstep.sameVisible hk hsame.1) hsame.1.ge hsame.2

/-- In the beginning the log is what was recovered. -/
theorem init (hg : (transitions o faultFree).init g) :
    ∃ d₀ readers, Kept o d₀ readers g.system ∧ Refines g := by
  obtain ⟨d, listing, sweep, h, hd, -, hopen, hsystem, hperm, hsorted, hheld⟩ := hg
  obtain ⟨readers, hk⟩ := Kept.opened hd hopen
  obtain ⟨d', hopened⟩ := Handle.open_opened hopen
  refine ⟨d, readers, hsystem ▸ hk, hsorted, hk.layered.versions_distinct.perm hperm, fun e he => ?_,
    fun key value q _ => ?_, ?_, ?_⟩
  · rw [hsystem]
    exact hk.layered.versions_lt (hperm.mem_iff.mp he)
  · rw [hsystem]
    exact VisibleValue.congr fun e => hperm.mem_iff.symm
  · rw [hsystem, hheld, System.started]
    exact hopened.snapshots.symm
  · simp [hheld]

theorem reachable (hg : (transitions o faultFree).Reachable g) :
    ∃ d₀ readers, Kept o d₀ readers g.system ∧ Refines g :=
  hg.invariant (P := fun g => ∃ d₀ readers, Kept o d₀ readers g.system ∧ Refines g)
    (fun _ hinit => init hinit) fun _ _ hstep ⟨_, _, hk, hr⟩ =>
    ⟨_, _, hk.step (Step.system_step hstep), hr.step hstep hk⟩

end

/-- The last operation on a key is the newest one. -/
theorem found_lastOn {log : List InternalEntry} {q : ℕ}
    (hsorted : log.Pairwise fun a b => a.sequence ≤ b.sequence) (hle : ∀ e ∈ log, e.sequence ≤ q)
    (key : Bytes) : Found log key q (lastOn log key) := by
  have hfilter : ∀ e, e ∈ log.filter (fun e => decide (e.userKey = key)) ↔
      e ∈ log ∧ e.userKey = key := by
    simp
  unfold lastOn
  cases hlast : (log.filter fun e => decide (e.userKey = key)).getLast? with
  | none =>
    intro e he hkey
    rw [List.getLast?_eq_none_iff] at hlast
    have hmem := (hfilter e).mpr ⟨he, hkey⟩
    rw [hlast] at hmem
    cases hmem
  | some e =>
    obtain ⟨before, heq⟩ := List.getLast?_eq_some_iff.mp hlast
    have hmem := (hfilter e).mp (heq ▸ List.mem_append_right _ List.mem_cons_self)
    refine ⟨hmem.1, hmem.2, hle e hmem.1, fun e' he' hkey _ => ?_⟩
    have he'' := (hfilter e').mpr ⟨he', hkey⟩
    have hpairwise := List.Pairwise.filter (fun e => decide (e.userKey = key)) hsorted
    rw [heq] at he'' hpairwise
    rcases List.mem_append.mp he'' with hin | hin
    · exact (List.pairwise_append.mp hpairwise).2.2 e' hin e List.mem_cons_self
    · rw [List.mem_singleton.mp hin]

/-- A read at a sequence that can still come sees the last operation up to it. -/
theorem get (hr : Refines g) {w : Worker} (hl : Layered o g.system.handle w)
    (hcache : o.blockCacheBytes ≠ 0) (hopen : g.system.handle.checkOpen.ok = true) (key : Bytes)
    {snapshot : Option Snapshot} (hown : ∀ s ∈ snapshot, s.own = true)
    (hread : g.system.handle.readSequence snapshot ∈ g.system.handle.reads)
    {log behind : List InternalEntry} (hlog : g.log = log ++ behind)
    (hle : ∀ e ∈ log, e.sequence ≤ g.system.handle.readSequence snapshot)
    (hlt : ∀ e ∈ behind, g.system.handle.readSequence snapshot < e.sequence) :
    g.system.handle.get o key snapshot = readResult (lastOn log key) := by
  obtain ⟨newest, hfound, hget⟩ := hl.get hcache hopen key hown
  have hsorted : log.Pairwise fun a b => a.sequence ≤ b.sequence :=
    List.Pairwise.sublist (hlog ▸ List.sublist_append_left log behind) hr.sorted
  have hdistinct : Distinct log :=
    List.Pairwise.sublist (hlog ▸ List.sublist_append_left log behind) hr.distinct
  rw [hget]
  refine readResult_congr hl.versions_distinct hdistinct hfound (found_lastOn hsorted hle key)
    fun value => ?_
  rw [hr.visible key value _ hread, hlog, visibleValue_append fun a ha b hb =>
    (hle a ha).trans_lt (hlt b hb)]
  -- what was committed later is not seen
  constructor
  · rintro (⟨e, ⟨hmem, hle', -⟩, -⟩ | ⟨-, hvisible⟩)
    · exact absurd hle' (hlt e hmem).not_ge
    · exact hvisible
  · exact fun hvisible => .inr ⟨fun b hb _ => hlt b hb, hvisible⟩

end Refines

section
variable [EntrySize] {o : Options} {faultFree : Bool} {g : History}

/-- In every state of every run `Get` answers with the last committed operation on the key, and
under a snapshot with the last one that was committed when the snapshot was created. -/
theorem get_eq_last_committed (hg : (transitions o faultFree).Reachable g)
    (hcache : o.blockCacheBytes ≠ 0) (hopen : g.system.handle.checkOpen.ok = true) (key : Bytes) :
    g.system.handle.get o key none = readResult (lastOn g.log key) ∧
    g.held.map Prod.fst = g.system.handle.snapshots ∧
    ∀ p ∈ g.held,
      g.system.handle.get o key (some ⟨true, p.1⟩) = readResult (lastOn p.2 key) := by
  obtain ⟨d₀, readers, hk, hr⟩ := Refines.reachable hg
  have hl := hk.layered
  have hpos : 0 < g.system.handle.nextSequence := (Nat.zero_le _).trans_lt hl.next
  refine ⟨?_, hr.held, fun p hp => ?_⟩
  · refine hr.get hl hcache hopen key (by simp) (.inr ?_) (List.append_nil _).symm
      (fun e he => ?_) (by simp)
    · show g.system.handle.nextSequence ≤ g.system.handle.nextSequence - 1 + 1
      omega
    · have hlt := hr.below e he
      show e.sequence ≤ g.system.handle.nextSequence - 1
      omega
  · obtain ⟨behind, hlog, hle, hlt⟩ := hr.logs p hp
    refine hr.get hl hcache hopen key (by simp) (.inl ?_) hlog hle hlt
    exact hr.held ▸ List.mem_map_of_mem hp

/-- Every run of the handle is one of its history. -/
theorem exists_of_run {s : System} (hrun : (System.system o faultFree).Run g.system s) :
    ∃ g', g'.system = s ∧ (transitions o faultFree).Run g g' := by
  induction hrun with
  | refl => exact ⟨g, rfl, .refl⟩
  | tail _ hstep ih =>
    obtain ⟨g₁, rfl, hrun₁⟩ := ih
    obtain ⟨g₂, hsystem, hstep₂⟩ := Step.exists_of_step hstep
    exact ⟨g₂, hsystem, hrun₁.tail hstep₂⟩

end

/-- A put is flushed and put again, a snapshot is taken, the key is deleted, and `Compact` merges
the tables of the puts. -/
theorem get_eq_last_committed_compacted :
    let _ := entrySize80
    let o : Options := { memtableBytes := 1 }
    ∃ g, (transitions o true).Reachable g ∧ g.system.handle.tables.length = 1 ∧ g.held.length = 1 ∧
      readResult (lastOn g.log [1]) = .error (.notFound "key is absent or deleted") ∧
      ∀ p ∈ g.held, readResult (lastOn p.2 [1]) = .ok [2] := by
  intro _ o
  let puts : List Move := [.write [WriterQueue.firstRequest], .write [WriterQueue.firstRequest]] ++
    List.replicate 9 (.worker [])
  let deleted : List Move := [.write [⟨1, [.delete [1]], 81⟩]] ++ List.replicate 11 (.worker []) ++
    [.compact 0, .call 0 [], .call 0 []]
  let withSnapshot (s : System) : System := { s with
    handle := { s.handle with snapshots := (s.handle.nextSequence - 1) :: s.handle.snapshots } }
  have htests : ((System.openThen o .empty ⟨false, []⟩ ⟨none, fun _ => false⟩ puts).map fun s =>
      s.handle.checkOpen.ok && (((withSnapshot s).moves o deleted).map fun s =>
        decide (s.handle.checkOpen.ok ∧ s.handle.tables.length = 1 ∧
          s.handle.snapshots = [2] ∧
          s.handle.get o [1] none = .error (.notFound "key is absent or deleted") ∧
          s.handle.get o [1] (some ⟨true, 2⟩) = .ok [2])) == some true) = some true := by
    decide +kernel
  obtain ⟨s, hs, htests⟩ := Option.map_eq_some_iff.mp htests
  obtain ⟨hopened, htests⟩ := Bool.and_eq_true_iff.mp htests
  obtain ⟨s', hs', htests⟩ := Option.map_eq_some_iff.mp (eq_of_beq htests)
  obtain ⟨hopened', htables, hsnapshots, hlatest, hheld⟩ := of_decide_eq_true htests
  obtain ⟨h₀, hopen, hmoves⟩ := System.openThen_eq_some hs
  have hnil : (Handle.open o .empty ⟨false, []⟩ ⟨none, fun _ => false⟩).map Handle.versions =
      .ok [] := by
    decide +kernel
  have hversions : h₀.versions = [] := by
    rw [hopen] at hnil
    exact Except.ok.inj hnil
  have hinit : (transitions o true).Reachable ⟨System.started h₀, [], []⟩ :=
    .of_init ⟨.empty, ⟨false, []⟩, ⟨none, fun _ => false⟩, h₀, .new rfl fun _ => rfl, fun _ => rfl,
      hopen, rfl, by rw [hversions], .nil, rfl⟩
  obtain ⟨g₁, rfl, hputs⟩ := exists_of_run (g := ⟨System.started h₀, [], []⟩)
    (System.moves_run hmoves)
  have hsnapshot := (hinit.run hputs).step (.getSnapshot hopened)
  obtain ⟨g, rfl, hdeleted⟩ := exists_of_run (g := ⟨withSnapshot g₁.system, g₁.log,
    (g₁.system.handle.nextSequence - 1, g₁.log) :: g₁.held⟩) (System.moves_run hs')
  have hg := hsnapshot.run hdeleted
  obtain ⟨hget, hregistered, hsnap⟩ := get_eq_last_committed hg (by decide) hopened' [1]
  rw [hsnapshots] at hregistered
  refine ⟨g, hg, htables, by simpa using congrArg List.length hregistered, hget ▸ hlatest,
    fun p hp => ?_⟩
  have hp2 : p.1 = 2 := by
    have hmem := List.mem_map_of_mem (f := Prod.fst) hp
    rwa [hregistered, List.mem_singleton] at hmem
  rw [← hsnap p hp, hp2]
  exact hheld

end History

end TinyLsm
