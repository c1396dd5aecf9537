import TinyLsm.Db.PendingFlush
import TinyLsm.Db.Schedule
import TinyLsm.Library.AmortizedRuns

/-!
# The worker comes to rest

What the background worker has left to do is a number that each of its steps lowers and that only
the flush requests of the other threads raise. Where it stops without an error, no MemTable waits for
its flush and no compaction is due.
-/

namespace TinyLsm

/-! ## Inputs of a compaction -/

section
variable {s : Status}

theorem InternalIterator.moved_error {ι : Type} [InternalIterator ι] {result : Status × ι}
    (h : InternalIterator.moved result = .error s) : s.ok = false := by
  unfold InternalIterator.moved at h
  grind

theorem InternalIterator.drain_error {ι : Type} [InternalIterator ι] {fuel : ℕ} {it : ι}
    (h : InternalIterator.drain fuel it = .error s) : s.ok = false := by
  induction fuel generalizing it with
  | zero =>
    unfold InternalIterator.drain at h
    grind
  | succ fuel ih =>
    unfold InternalIterator.drain at h
    grind

theorem compactionInputs_error {tables : List Table} (h : compactionInputs tables = .error s) :
    s.ok = false := by
  induction tables with
  | nil => cases h
  | cons t tables ih =>
    unfold compactionInputs at h
    split at h
    · rename_i hinput
      cases h
      rw [Status.ok_withContext]
      unfold SSTableReader.newIterator at hinput
      split at hinput
      · cases hinput
        rfl
      · exact InternalIterator.moved_error hinput
    · split at h
      · rename_i hrest
        cases h
        exact ih hrest
      · cases h

/-- A merge that fails has an error to report. -/
theorem mergedEntries_error {tables : List Table} (h : mergedEntries tables = .error s) :
    s.ok = false := by
  unfold mergedEntries at h
  split at h
  · rename_i hinputs
    cases h
    exact compactionInputs_error hinputs
  split at h
  · rename_i hmerging
    cases h
    rw [Status.ok_withContext]
    unfold newMergingIterator at hmerging
    grind
  split at h
  · rename_i hdrain
    cases h
    rw [Status.ok_withContext]
    exact InternalIterator.drain_error hdrain
  · cases h

end

/-! ## Steps beside the worker -/

/-- What the worker has to do gets no more, flush requests apart, and none of it is forgotten. -/
structure Handle.Spares (h h' : Handle) : Prop where
  tables : h'.tables.length ≤ h.tables.length
  requested : h'.compactionRequested → h.compactionRequested
  error : h.hasError → h'.hasError
  immutable : h.immutable.isSome → h'.immutable.isSome
  still : h'.closing = false → h.closing = false ∧ (h.compactionRequested → h'.compactionRequested)

namespace Handle.Spares

variable {o : Options} {h h' h'' : Handle}

theorem refl (h : Handle) : h.Spares h := ⟨le_rfl, id, id, id, fun hc => ⟨hc, id⟩⟩

theorem trans (hh : h.Spares h') (hh' : h'.Spares h'') : h.Spares h'' where
  tables := hh'.tables.trans hh.tables
  requested hr := hh.requested (hh'.requested hr)
  error he := hh'.error (hh.error he)
  immutable hi := hh'.immutable (hh.immutable hi)
  still hc :=
    have hc' := hh'.still hc
    ⟨(hh.still hc'.1).1, fun hr => hc'.2 ((hh.still hc'.1).2 hr)⟩

theorem onlyFiles (hfiles : h.OnlyFiles h') : h.Spares h' := by
  obtain ⟨d, t, p, rfl⟩ := hfiles
  exact ⟨le_rfl, id, id, id, fun hc => ⟨hc, id⟩⟩

/-- A terminal error is set. -/
theorem terminal (h : Handle) (status : Status) :
    h.Spares { h with terminalError := some status } :=
  ⟨le_rfl, id, fun _ => by simp [hasError], id, fun hc => ⟨hc, id⟩⟩

theorem rotate {fault : Option RotateFault} {status : Status}
    (hr : h.rotateMemTable fault = (h', status)) : h.Spares h' := by
  rcases rotateMemTable_cases hr with ⟨hwal, -⟩ | ⟨rfl, -⟩ | ⟨rfl, -⟩
  · exact onlyFiles hwal.onlyFiles
  · exact (onlyFiles (h.onlyFiles_withWal.trans (.perform _ _))).trans (terminal _ status)
  · obtain ⟨d, t, heq⟩ := h.rotated_eq
    rw [heq]
    exact ⟨le_rfl, id, id, fun _ => rfl, fun hc => ⟨hc, id⟩⟩

theorem applyWriteGroup [EntrySize] {group : List WriterRequest} {f : WriteFaults} {status : Status}
    (hr : h.applyWriteGroup o group f = some (h', status)) : h.Spares h' :=
  applyWriteGroup_keeps (h.Spares ·)
    (fun h₁ op _ hs => hs.trans (onlyFiles (.perform h₁ op)))
    (fun _ _ _ _ hs => ⟨hs.tables, hs.requested, hs.error, hs.immutable, hs.still⟩)
    (fun _ _ _ _ hrotate hs => hs.trans (rotate hrotate)) hr (refl h)

theorem commitCompaction {job : CompactionJob} {replacement : Option Output}
    {fault : Option PublishFault} {fails : FileName → Bool} {status : Status}
    (hjob : 0 < job.metas.length)
    (hr : h.commitCompaction job replacement fault fails = (h', status)) :
    h.Spares h' ∧ h'.flushRequested = h.flushRequested ∧
      (status = .okay → h'.tables.length + job.metas.length ≤ h.tables.length + 1) := by
  rcases commitCompaction_cases hr with ⟨rfl, hfail⟩ | ⟨rfl, hfail, -⟩ | ⟨rfl, rfl, -, -, hle, -⟩
  · exact ⟨refl _, rfl, fun hok => by simp [hok] at hfail⟩
  · refine ⟨(onlyFiles (.perform h _)).trans (terminal _ status), rfl, fun hok => ?_⟩
    simp [hok] at hfail
  · obtain ⟨d, t, p, heq⟩ := h.installCompaction_eq (compactedManifest h.manifest job replacement)
      job replacement fails
    have hone : (replacement.map Output.table).toList.length ≤ 1 := by
      cases replacement <;> simp
    rw [heq]
    refine ⟨⟨?_, id, id, id, fun hc => ⟨hc, id⟩⟩, rfl, fun _ => ?_⟩
    · rw [List.length_append, List.length_drop]
      omega
    · dsimp only
      rw [List.length_append, List.length_drop]
      omega

theorem compactTablePrefix {inputCount : ℕ} {f : CompactFaults} {status : Status}
    (hr : h.compactTablePrefix o inputCount f = (h', status)) : h.Spares h' := by
  rcases compactTablePrefix_cases hr with ⟨rfl, -⟩ | ⟨hstatus, h₁, rfl, hrun⟩
  · exact refl _
  have hfiles := OnlyFiles.cleanupObsoleteFiles h f.sweep.listed f.sweep.fails
  have hjob : 0 < ((h.cleanupObsoleteFiles f.sweep.listed f.sweep.fails).selectTables
      inputCount).metas.length := by
    obtain ⟨d, t, p, heq⟩ := hfiles
    rw [heq]
    unfold compactionStatus at hstatus
    simp only [selectTables, List.length_take]
    grind
  have hswept := onlyFiles hfiles
  rcases hrun with rfl | ⟨_, -, -, hcommit⟩ | ⟨_, h₂, r, -, -, hbuild, hend⟩
  · exact hswept
  · exact hswept.trans (commitCompaction hjob hcommit).1
  · have hbuilt := hswept.trans (onlyFiles (OnlyFiles.buildOutput hbuild))
    rcases hend with ⟨-, rfl⟩ | ⟨out, -, hcommit⟩
    · exact hbuilt
    · exact hbuilt.trans (commitCompaction hjob hcommit).1

theorem closeRound {fault : Option RotateFault} {c : Call} (hr : h.closeRound o fault = (h', c)) :
    h.Spares h' := by
  unfold Handle.closeRound at hr
  split at hr
  · cases hr
    exact refl h
  split at hr
  · cases hr
    exact refl h
  split at hr
  · cases hr
    exact ⟨le_rfl, id, id, id, fun hc => ⟨hc, id⟩⟩
  split at hr
  · rcases hrotate : h.rotateMemTable fault with ⟨h₁, s₁⟩
    have hs := rotate hrotate
    rw [hrotate] at hr
    cases hr
    split
    · exact hs
    · exact hs.trans ⟨le_rfl, id, fun _ => by simp [hasError], id, fun hc => ⟨hc, id⟩⟩
  · cases hr
    exact refl h

/-- `Close` is not given up. -/
theorem closeSync {fault : Option Failure} {c : Call} (hr : h.closeSyncWal o fault = (h', c))
    (hclosing : h.closing → h'.closing) : h.Spares h' := by
  unfold Handle.closeSyncWal at hr
  split at hr
  · split at hr
    · cases hr
      refine ⟨le_rfl, id, id, id, fun _ => ⟨?_, id⟩⟩
      simpa using hclosing
    · cases hr
      exact ⟨le_rfl, id, id, id, fun hc => ⟨hc, id⟩⟩
  · cases hr
    exact ⟨le_rfl, id, id, id, fun hc => ⟨hc, id⟩⟩

end Handle.Spares

/-! ## What is left to do -/

/-- The steps of a build that are left, and the end of its job. -/
def BuildPhase.rank : BuildPhase → ℕ
  | create => 9
  | write => 8
  | verify _ => 7
  | rename _ => 6
  | syncDir _ => 5
  | ready _ => 4

/-- The steps that the job of the worker has left. Before its commit a flush also has those of the
compaction that it may request, and of the table that it adds. -/
def Worker.rank (o : Options) (h : Handle) : Worker → ℕ
  | waiting => 1
  | claimed flush => if flush then 33 else 11
  | flushing _ phase => 22 + phase.rank
  | removingWal _ => 3
  | merging _ => 10
  | compacting _ _ phase => phase.rank
  | dropping _ => 4
  | finished flush status =>
    if flush = false ∧ status.ok ∧ h.needsBackgroundCompaction o then 13 else 2
  | exited => 0

/-- What the worker has left to do: a table stands for the compaction that may merge it away. -/
def System.load (o : Options) (s : System) : ℕ :=
  33 * s.handle.flushRequested.toNat + 11 * s.handle.compactionRequested.toNat +
    11 * s.handle.tables.length + s.worker.rank o s.handle

namespace Worker

/-- A compaction or a flush is claimed whose outcome is not accounted for: it commits and looks for
more to do, or reports a failure. -/
def compactionAhead : Worker → Bool
  | claimed _ | flushing _ _ | merging _ | compacting _ _ _ | dropping _ => true
  | finished flush status => !flush || !status.ok
  | _ => false

/-- A compaction of the worker takes at least two tables. -/
def Takes : Worker → Prop
  | merging job | compacting job _ _ | dropping job => 2 ≤ job.metas.length
  | _ => True

/-- A job has returned. -/
def isFinished : Worker → Bool
  | finished _ _ => true
  | _ => false

/-- The job of the worker goes on, between a state of the handle and the next one. -/
inductive Advances (o : Options) (h h' : Handle) : Worker → Worker → Prop
  | flush {job} : Advances o h h' (.claimed true) (.flushing job .create)
  | flushBuild {job phase phase'} (hphase : phase'.rank < phase.rank) :
      Advances o h h' (.flushing job phase) (.flushing job phase')
  | removed {number} : Advances o h h' (.removingWal number) (.finished true .okay)
  /-- There are not enough tables any more. -/
  | idle (hneeds : h.needsBackgroundCompaction o = false) :
      Advances o h h' (.claimed false) (.finished false .okay)
  | compact {job} (hjob : 2 ≤ job.metas.length) :
      Advances o h h' (.claimed false) (.merging job)
  | merge {job entries} : Advances o h h' (.merging job) (.compacting job entries .create)
  | drop {job} : Advances o h h' (.merging job) (.dropping job)
  | compactBuild {job entries phase phase'} (hphase : phase'.rank < phase.rank) :
      Advances o h h' (.compacting job entries phase) (.compacting job entries phase')
  | compacted {job entries out} (hless : h'.tables.length < h.tables.length) :
      Advances o h h' (.compacting job entries (.ready out)) (.finished false .okay)
  | dropped {job} (hless : h'.tables.length < h.tables.length) :
      Advances o h h' (.dropping job) (.finished false .okay)
  | failed {w status} (hw : w.isFlushing || w.isCompacting) (hfinished : w.isFinished = false)
      (hstatus : status.ok = false) : Advances o h h' w (.finished w.isFlushing status)

end Worker

/-- A step of the worker. -/
inductive Handle.Works (o : Options) (h : Handle) : Worker → Handle → Worker → Prop
  | exit (hstop : h.workerStopping) : Works o h .waiting h .exited
  | claim (hrequest : h.flushRequested || h.compactionRequested) :
      Works o h .waiting h.claim.1 h.claim.2
  | advance {w h' w'} (hspares : h.Spares h') (hflush : h'.flushRequested = h.flushRequested)
      (hadvances : w.Advances o h h' w') : Works o h w h' w'
  | flushed {job out h' number} (htables : h'.tables.length = h.tables.length + 1)
      (hflush : h'.flushRequested = h.flushRequested)
      (hrequested : h'.compactionRequested =
        (h.compactionRequested || h'.needsBackgroundCompaction o))
      (herror : h'.hasError = h.hasError) (hclosing : h'.closing = h.closing) :
      Works o h (.flushing job (.ready out)) h' (.removingWal number)
  | account {flush status} :
      Works o h (.finished flush status) (h.account o flush status) .waiting

theorem Handle.Spares.needs {o : Options} {h h' : Handle} (hs : h.Spares h')
    (hneeds : h'.needsBackgroundCompaction o) : h.needsBackgroundCompaction o := by
  have hle := hs.tables
  simp only [Handle.needsBackgroundCompaction, Bool.and_eq_true, decide_eq_true_eq] at hneeds ⊢
  exact ⟨hneeds.1, by omega⟩

theorem Handle.Spares.requested_le {h h' : Handle} (hs : h.Spares h') :
    h'.compactionRequested.toNat ≤ h.compactionRequested.toNat :=
  Bool.toNat_le_toNat hs.requested

namespace Worker

variable {o : Options} {h h' : Handle} {w w' : Worker}

theorem rank_finished_le (flush : Bool) (status : Status) :
    (finished flush status).rank o h ≤ 13 := by
  simp only [rank]
  split <;> omega

theorem rank_finished (status : Status) {flush : Bool}
    (hmore : flush = false → status.ok → h.needsBackgroundCompaction o = false) :
    (finished flush status).rank o h = 2 := by
  simp only [rank]
  rw [if_neg]
  rintro ⟨hflush, hok, hneeds⟩
  rw [hmore hflush hok] at hneeds
  cases hneeds

theorem rank_pos_of_busy (hw : w.isFlushing || w.isCompacting) (hfinished : w.isFinished = false) :
    2 < w.rank o h := by
  cases w with
  | claimed flush => cases flush <;> simp [rank]
  | flushing job phase => cases phase <;> simp [rank, BuildPhase.rank]
  | compacting job entries phase => cases phase <;> simp [rank, BuildPhase.rank]
  | finished => cases hfinished
  | removingWal | merging | dropping => simp [rank]
  | waiting | exited => cases hw

/-- A job that goes on has less left to do, where a table less pays for another compaction. -/
theorem Advances.rank_lt (ha : w.Advances o h h' w') (hs : h.Spares h') :
    11 * h'.tables.length + w'.rank o h' < 11 * h.tables.length + w.rank o h := by
  have hle := hs.tables
  cases ha with
  | flush => simp only [rank, BuildPhase.rank, if_true]; omega
  | flushBuild hphase => simp only [rank]; omega
  | removed =>
    rw [rank_finished _ (by simp)]
    simp only [rank]
    omega
  | idle hneeds =>
    rw [rank_finished _ fun _ _ => ?_]
    · simp only [rank, Bool.false_eq_true, if_false]
      omega
    · exact Bool.eq_false_iff.mpr fun hmore => by simp [hs.needs hmore] at hneeds
  | compact | merge | drop => simp [rank, BuildPhase.rank]; omega
  | compactBuild hphase => simp only [rank]; omega
  | compacted hless | dropped hless =>
    have hfinished := rank_finished_le (o := o) (h := h') false .okay
    simp only [rank, BuildPhase.rank] at hfinished ⊢
    omega
  | failed hw hfinished hstatus =>
    rw [rank_finished _ fun _ hok => by simp [hstatus] at hok]
    have hpos := rank_pos_of_busy (o := o) (h := h) hw hfinished
    omega

end Worker

theorem Handle.BuildsTo.rank_lt {checked : Output → Option Status} {number : ℕ}
    {entries : List InternalEntry} {o : Options} {h h' : Handle} {phase phase' : BuildPhase}
    (hb : Handle.BuildsTo o checked number entries h phase h' phase') :
    phase'.rank < phase.rank := by
  cases hb <;> simp [BuildPhase.rank]

/-- What the worker does behind a job, as far as it has more to do. -/
theorem Handle.account_spec (o : Options) (h : Handle) (flush : Bool) (status : Status) :
    (h.account o flush status).tables = h.tables ∧
      (h.account o flush status).flushRequested = h.flushRequested ∧
      (h.account o flush status).closing = h.closing ∧
      (h.account o flush status).compactionRequested =
        (h.compactionRequested || (!flush && status.ok && h.needsBackgroundCompaction o)) ∧
      ((h.account o flush status).hasError = false → h.hasError = false ∧ status.ok) := by
  simp only [Handle.account]
  split
  · rename_i hfail
    split
    · rename_i hterminal
      exact ⟨rfl, rfl, rfl, by simp [hfail], by simp [Handle.hasError, hterminal]⟩
    · exact ⟨rfl, rfl, rfl, by simp [hfail], by simp [Handle.hasError]⟩
  · rename_i hok
    rw [Bool.not_eq_false] at hok
    split
    · rename_i hflush
      exact ⟨rfl, rfl, rfl, by simp [hflush], fun he => ⟨he, hok⟩⟩
    · rename_i hflush
      rw [Bool.not_eq_true] at hflush
      refine ⟨rfl, rfl, rfl, ?_, fun he => ⟨he, hok⟩⟩
      rw [hflush, hok]
      rfl

namespace Handle.Works

variable {o : Options} {h h' : Handle} {w w' : Worker}

/-- Every step of the worker leaves it less to do. -/
theorem load_lt (hworks : h.Works o w h' w') (calls calls' : ℕ → Call) :
    System.load o ⟨h', w', calls'⟩ < System.load o ⟨h, w, calls⟩ := by
  simp only [System.load]
  cases hworks with
  | exit =>
    simp only [Worker.rank]
    omega
  | claim hrequest =>
    simp only [Handle.claim]
    cases hflush : h.flushRequested with
    | true =>
      split
      · simp only [Worker.rank, if_true, Bool.toNat_false, Bool.toNat_true]
        omega
      · split
        · simp only [Worker.rank, Bool.false_eq_true, if_false, Bool.toNat_false, Bool.toNat_true]
          omega
        · simp only [Worker.rank, Bool.toNat_false, Bool.toNat_true]
          omega
    | false =>
      rw [hflush, Bool.false_or] at hrequest
      rw [hrequest]
      split
      · contradiction
      · split
        · simp only [Worker.rank, Bool.false_eq_true, if_false, Bool.toNat_false, Bool.toNat_true]
          omega
        · simp only [Worker.rank, Bool.toNat_false, Bool.toNat_true]
          omega
  | advance hspares hflush hadvances =>
    have hrank := hadvances.rank_lt hspares
    have hrequested := hspares.requested_le
    rw [hflush]
    omega
  -- the table that the flush adds and the compaction that it requests were paid for
  | flushed htables hflush =>
    have hle := Bool.toNat_le h'.compactionRequested
    rw [hflush, htables]
    simp only [Worker.rank, BuildPhase.rank]
    omega
  | @account flush status =>
    obtain ⟨htables, hflush, -, hrequested, -⟩ := h.account_spec o flush status
    rw [htables, hflush, hrequested]
    cases hmore : (!flush && status.ok && h.needsBackgroundCompaction o) with
    | true =>
      have hle := Bool.toNat_le (h.compactionRequested || true)
      simp only [Bool.and_eq_true, Bool.not_eq_true'] at hmore
      simp only [Worker.rank]
      rw [if_pos ⟨hmore.1.1, hmore.1.2, hmore.2⟩]
      omega
    | false =>
      rw [Bool.or_false]
      simp only [Worker.rank]
      split <;> omega

/-! ## The regions of the worker -/

theorem flushRequested_onlyFiles (hfiles : h.OnlyFiles h') :
    h'.flushRequested = h.flushRequested := by
  obtain ⟨d, t, p, rfl⟩ := hfiles
  rfl

/-- The job goes on behind a region that changes files only. -/
theorem onlyFiles (hfiles : h.OnlyFiles h') (hadvances : w.Advances o h h' w') :
    h.Works o w h' w' :=
  .advance (.onlyFiles hfiles) (flushRequested_onlyFiles hfiles) hadvances

theorem beginFlush {sweep : SweepFaults} {r : Except Status FlushJob}
    (hr : h.beginFlush sweep = (h', r)) (hi : h.immutable.isSome) :
    h.Works o (.claimed true) h' (System.continued true (.flushing · .create) r) := by
  obtain ⟨hfiles, ⟨status, rfl, hnone⟩ | ⟨m, -, -, -, -, -, -, rfl⟩⟩ := Handle.beginFlush_cases hr
  -- a job that fails here has an error status, as the MemTable is still sealed
  · refine onlyFiles hfiles (.failed rfl rfl ?_)
    rw [← Bool.not_eq_true]
    intro hok
    rw [hnone hok] at hi
    cases hi
  · exact onlyFiles hfiles .flush

/-- A step of a build, in a flush or in a compaction. -/
theorem buildStep {context : BuildContext} {checked : Output → Option Status} {number : ℕ}
    {entries : List InternalEntry} {fault : Option Failure} {phase : BuildPhase}
    {r : Except Status BuildPhase} {next : BuildPhase → Worker}
    (hchecked : ∀ out s, checked out = some s → s.ok = false) (hphase : ∀ out, phase ≠ .ready out)
    (hr : h.buildStep o context checked number entries fault phase = (h', r))
    (hbusy : (next phase).isFlushing || (next phase).isCompacting)
    (hfinished : (next phase).isFinished = false)
    (hnext : ∀ phase', phase'.rank < phase.rank → (next phase).Advances o h h' (next phase')) :
    h.Works o (next phase) h' (System.continued (next phase).isFlushing next r) := by
  refine onlyFiles (.buildStep hchecked hphase hr) ?_
  cases r with
  | ok phase' => exact hnext phase' (Handle.buildStep_ok hphase hr).rank_lt
  | error status => exact .failed hbusy hfinished (Handle.buildStep_error hchecked hr).1

theorem commitFlush {job : FlushJob} {out : Output} {fault : Option PublishFault} {status : Status}
    (hr : h.commitFlush o job out fault = (h', status)) :
    h.Works o (.flushing job (.ready out)) h'
      (if status.ok then .removingWal job.immutableWal else .finished true status) := by
  rcases Handle.commitFlush_cases hr with ⟨rfl, hfail⟩ | ⟨rfl, hfail, -⟩ | ⟨rfl, rfl, -⟩
  · rw [hfail]
    exact .advance (.refl _) rfl (.failed rfl rfl hfail)
  · rw [hfail]
    exact .advance ((Handle.Spares.onlyFiles (.perform h _)).trans (.terminal _ status)) rfl
      (.failed rfl rfl hfail)
  -- published: the table pays for the compaction that it may make due
  · exact .flushed (by simp [Handle.installFlush, Handle.withManifest]) rfl rfl rfl rfl

/-- The checks of a background compaction find nothing to do, or an error to report. -/
theorem compactionStatus_needs {status : Status}
    (hstatus : h.compactionStatus o o.compactionTableTrigger true = some status) :
    status.ok = false ∨ status = .okay ∧ h.needsBackgroundCompaction o = false := by
  unfold compactionStatus at hstatus
  split at hstatus
  · rename_i hopen
    cases hstatus
    exact .inl hopen
  split at hstatus
  · rename_i hfew
    cases hstatus
    refine .inr ⟨rfl, ?_⟩
    simp only [needsBackgroundCompaction, Bool.and_eq_false_iff, decide_eq_false_iff_not, not_le]
    exact hfew.imp_left fun h0 => by simp [h0]
  split at hstatus
  · cases hstatus
    exact .inl rfl
  split at hstatus
  · cases hstatus
    exact .inl rfl
  · cases hstatus

theorem beginCompaction {fault : Option PublishFault} {r : Except Status CompactionJob}
    (htrigger : o.compactionTableTrigger ≠ 1) (hr : h.beginBackgroundCompaction o fault = (h', r)) :
    h.Works o (.claimed false) h' (System.continued false .merging r) := by
  -- every way to give the job up leaves the requests, and an error for the worker
  have hfailed : ∀ (h₂ : Handle) (status : Status), h.Spares h₂ →
      h₂.flushRequested = h.flushRequested → status.ok = false →
      h.Works o (.claimed false) h₂ (.finished false status) :=
    fun _ _ hs hf hfail => .advance hs hf (.failed rfl rfl hfail)
  unfold beginBackgroundCompaction at hr
  split at hr
  · rename_i status hstatus
    cases hr
    rcases compactionStatus_needs hstatus with hfail | ⟨rfl, hneeds⟩
    · exact hfailed _ _ (.refl h) rfl hfail
    · exact .advance (.refl h) rfl (.idle hneeds)
  rename_i hstatus
  split at hr
  · cases hr
    exact hfailed _ _ (.refl _) rfl rfl
  dsimp only at hr
  rcases hp : published (h.publish
    { h.manifest with nextFileNumber := h.manifest.nextFileNumber + 1 } fault)
    "reserve compaction file number: close and reopen the database" "reserve compaction file number"
    id with ⟨h₁, s₁⟩
  rw [hp] at hr
  rcases published_cases hp with ⟨rfl, hfail, -⟩ | ⟨rfl, hfail, -⟩ | ⟨rfl, rfl, -⟩
  · rw [if_neg (by simp [hfail])] at hr
    cases hr
    exact hfailed _ _ (.refl _) rfl hfail
  · rw [if_neg (by simp [hfail])] at hr
    cases hr
    exact hfailed _ _ ((Handle.Spares.onlyFiles (.perform h _)).trans (.terminal _ s₁)) rfl hfail
  · cases hr
    -- the job takes the tables up to the trigger, hence two of them
    refine .advance ⟨le_rfl, id, id, id, fun hc => ⟨hc, id⟩⟩ rfl (.compact ?_)
    have hlength := hstatus
    unfold compactionStatus at hlength
    simp only [selectTables, List.length_take]
    grind

/-- The last region of a compaction. -/
theorem commitCompaction {job : CompactionJob} {replacement : Option Output}
    {fault : Option PublishFault} {fails : FileName → Bool} {status : Status}
    (htakes : 2 ≤ job.metas.length)
    (hr : h.commitCompaction job replacement fault fails = (h', status))
    (hw : w.isFlushing = false ∧ w.isCompacting) (hfinished : w.isFinished = false)
    (hdone : h'.tables.length < h.tables.length → w.Advances o h h' (.finished false .okay)) :
    h.Works o w h' (.finished false status) := by
  obtain ⟨hs, hf, htables⟩ := Handle.Spares.commitCompaction (by omega) hr
  refine .advance hs hf ?_
  have hfailed : status.ok = false → w.Advances o h h' (.finished false status) := by
    intro hfail
    have hadvances : w.Advances o h h' (.finished w.isFlushing status) :=
      .failed (by simp [hw.2]) hfinished hfail
    rwa [hw.1] at hadvances
  rcases Handle.commitCompaction_cases hr with ⟨-, hfail⟩ | ⟨-, hfail, -⟩ | ⟨-, rfl, -⟩
  · exact hfailed hfail
  · exact hfailed hfail
  · have hle := htables rfl
    exact hdone (by omega)

end Handle.Works

/-! ## Debt -/

/-- As long as a compaction is due it is requested, or the worker will look for it. -/
structure Repays (o : Options) (h : Handle) (w : Worker) : Prop where
  takes : w.Takes
  sealed : w = .claimed true → h.immutable.isSome
  ahead : h.needsBackgroundCompaction o → h.hasError = false → h.closing = false →
    h.compactionRequested ∨ w.compactionAhead

namespace Repays

variable {o : Options} {h h' : Handle} {w w' : Worker}

theorem spares (hs : h.Spares h') (hp : Repays o h w) : Repays o h' w := by
  refine ⟨hp.takes, fun hw => hs.immutable (hp.sealed hw), fun hneeds he hc => ?_⟩
  have hstill := hs.still hc
  have herror : h.hasError = false := Bool.eq_false_iff.mpr fun he' => by simp [hs.error he'] at he
  exact (hp.ahead (hs.needs hneeds) herror hstill.1).imp_left hstill.2

/-- The worker goes on: what it forgets of the requests it will look for. -/
theorem works (hworks : h.Works o w h' w') (hp : Repays o h w) : Repays o h' w' := by
  cases hworks with
  | exit => exact ⟨trivial, by simp, hp.ahead⟩
  -- a flush comes first; what is not claimed stays requested
  | claim =>
    simp only [Handle.claim]
    split
    · rename_i hflush
      simp only [Bool.and_eq_true] at hflush
      exact ⟨trivial, fun _ => hflush.2, fun _ _ _ => .inr rfl⟩
    rename_i hflush
    split
    · exact ⟨trivial, by simp, fun _ _ _ => .inr rfl⟩
    · rename_i hcompact
      refine ⟨trivial, by simp, fun hneeds he hc => ?_⟩
      have hrequested := (hp.ahead hneeds he hc).resolve_right (by simp [Worker.compactionAhead])
      have hclosing : h.closing = false := hc
      simp [hflush, hrequested, hclosing] at hcompact
  | advance hspares _ hadvances =>
    have hspared := hp.spares hspares
    cases hadvances with
    | flush | flushBuild => exact ⟨trivial, by simp, fun _ _ _ => .inr rfl⟩
    | removed =>
      refine ⟨trivial, by simp, fun hneeds he hc => .inl ?_⟩
      exact (hspared.ahead hneeds he hc).resolve_right (by simp [Worker.compactionAhead])
    | idle | compacted | dropped => exact ⟨trivial, by simp, fun _ _ _ => .inr rfl⟩
    | compact hjob => exact ⟨hjob, by simp, fun _ _ _ => .inr rfl⟩
    | merge | drop | compactBuild => exact ⟨hp.takes, by simp, fun _ _ _ => .inr rfl⟩
    | failed hw hfinished hstatus =>
      exact ⟨trivial, by simp, fun _ _ _ => .inr (by simp [Worker.compactionAhead, hstatus])⟩
  | flushed htables hflush hrequested =>
    refine ⟨trivial, by simp, fun hneeds _ _ => .inl ?_⟩
    rw [hrequested, hneeds, Bool.or_true]
  -- the request is taken back only where no compaction is due any more
  | @account flush status =>
    obtain ⟨htables, -, hclosing, hrequested, herror⟩ := h.account_spec o flush status
    refine ⟨trivial, by simp, fun hneeds he hc => .inl ?_⟩
    obtain ⟨he', hok⟩ := herror he
    have hneeds' : h.needsBackgroundCompaction o := by
      rwa [Handle.needsBackgroundCompaction, htables] at hneeds
    rw [hrequested]
    rcases hp.ahead hneeds' he' (hclosing ▸ hc) with hr | hahead
    · rw [hr, Bool.true_or]
    · simp only [Worker.compactionAhead, hok, Bool.not_true, Bool.or_false] at hahead
      rw [hahead, hok, hneeds']
      simp

end Repays

/-! ## Runs -/

/-- Recovery requests the compaction that is due. -/
theorem Handle.recover_requested [EntrySize] {o : Options} {h h' : Handle} {sweep : SweepFaults}
    (hr : h.recover o sweep = .ok h') :
    h'.compactionRequested = h'.needsBackgroundCompaction o := by
  unfold recover at hr
  split at hr
  · cases hr
  split at hr
  · cases hr
  · cases hr
    rfl

theorem Repays.opened [EntrySize] {o : Options} {h : Handle} {d : Directory} {listing : Listing}
    {sweep : SweepFaults} (hopen : Handle.open o d listing sweep = .ok h) :
    Repays o h .waiting := by
  refine ⟨trivial, by simp, fun hneeds _ _ => .inl ?_⟩
  obtain ⟨m, -, ⟨-, hrecover⟩ | ⟨-, -, h₁, -, hrecover, -⟩⟩ := Handle.open_eq_ok hopen
  · rw [Handle.recover_requested hrecover, hneeds]
  · rw [Handle.recover_requested hrecover, hneeds]

namespace System

/-- The worker moves on, or finds nothing to do in what was requested. -/
def WorkerMoves (s s' : System) : Prop :=
  s'.worker ≠ s.worker ∨ s.worker = .waiting ∧
    (s.handle.flushRequested || s.handle.compactionRequested) ∧
    s' = { s with handle := s.handle.claim.1, worker := s.handle.claim.2 }

/-- A flush that another thread requests. -/
def requestsFlush (s s' : System) : ℕ :=
  (!s.handle.flushRequested && s'.handle.flushRequested).toNat

/-- The worker has nothing to do. -/
def AtRest (s : System) : Prop :=
  s.worker = .exited ∨ s.worker = .waiting ∧ s.handle.workerStopping = false ∧
    s.handle.flushRequested = false ∧ s.handle.compactionRequested = false

section
variable [EntrySize]

/-- A step in which `Close` is not given up, and no exception follows the return of a job. -/
structure SettlingStep (o : Options) (s s' : System) : Prop where
  step : Step o false s s'
  closing : s'.worker = s.worker → s.handle.closing → s'.handle.closing
  returned : s.worker.isFinished → s'.worker.isFinished → s'.worker = s.worker

/-- The runs of a handle. All file operations may fail but the sync of the WAL in `Close`. -/
def settling (o : Options) : TransitionSystem System where
  init := (system o false).init
  step := SettlingStep o

theorem SettlingStep.reachable {o : Options} {s : System} (hs : (settling o).Reachable s) :
    (system o false).Reachable s := by
  obtain ⟨s₀, hinit, hrun⟩ := hs
  exact hrun.keeps (fun _ _ hstep hs => hs.step (SettlingStep.step hstep)) (.of_init hinit)

variable {o : Options} {s s' : System}

/-- A step is one of the worker, or leaves the worker its requests. -/
theorem SettlingStep.works_or_spares (htrigger : o.compactionTableTrigger ≠ 1)
    (hstep : SettlingStep o s s') (hp : Repays o s.handle s.worker) :
    s.handle.Works o s.worker s'.handle s'.worker ∨
      s'.worker = s.worker ∧ s.handle.Spares s'.handle := by
  obtain ⟨hstep, hclosing, hreturned⟩ := hstep
  cases hstep with
  | write f _ happly => exact .inr ⟨rfl, .applyWriteGroup happly⟩
  | getSnapshot | releaseSnapshot => exact .inr ⟨rfl, ⟨le_rfl, id, id, id, fun hc => ⟨hc, id⟩⟩⟩
  | workerExit hworker hstop =>
    rw [hworker]
    exact .inl (.exit hstop)
  | workerClaim hworker hstop hrequest =>
    rw [hworker]
    exact .inl (.claim hrequest)
  | flushBegin sweep _ hworker hr =>
    rw [hworker]
    exact .inl (.beginFlush hr (hp.sealed hworker))
  | @flushBuild job phase _ r fault _ hworker hphase hr =>
    rw [hworker]
    exact .inl (.buildStep (by simp) hphase hr rfl rfl fun _ => .flushBuild)
  | flushCommit fault _ hworker hr =>
    rw [hworker]
    exact .inl (.commitFlush hr)
  | flushRemove fails _ hworker =>
    rw [hworker]
    exact .inl (.onlyFiles (.bestEffortRemove _ _ _) .removed)
  | compactBegin fault _ hworker hr =>
    rw [hworker]
    exact .inl (.beginCompaction htrigger hr)
  | compactMerge fault _ hworker =>
    rw [hworker]
    refine .inl (.advance (.refl _) rfl ?_)
    split
    · rename_i failure _
      exact .failed rfl rfl (by rw [Status.ok_withContext, failure.2])
    · rename_i hmerged
      exact .failed rfl rfl (mergedEntries_error hmerged)
    · dsimp only
      split
      · exact .drop
      · exact .merge
  | @compactBuild job entries phase _ r fault _ hworker hphase hr =>
    rw [hworker]
    exact .inl (.buildStep Handle.compactionChecked_error hphase hr rfl rfl fun _ => .compactBuild)
  | compactCommit fault fails _ hworker hr =>
    have htakes := hp.takes
    rw [hworker] at htakes ⊢
    exact .inl (.commitCompaction htakes hr ⟨rfl, rfl⟩ rfl .compacted)
  | compactDrop fault fails _ hworker hr =>
    have htakes := hp.takes
    rw [hworker] at htakes ⊢
    exact .inl (.commitCompaction htakes hr ⟨rfl, rfl⟩ rfl .dropped)
  -- an exception behind the return of a job is outside these runs
  | workerException status _ hworker =>
    cases hfinished : s.worker.isFinished with
    | false => exact .inl (.advance (.refl _) rfl (.failed hworker hfinished status.2))
    | true => exact .inr ⟨hreturned hfinished rfl, .refl _⟩
  | workerAccount hworker =>
    rw [hworker]
    exact .inl .account
  | compactCall | compactResume | closeWake | next => exact .inr ⟨rfl, .refl _⟩
  | compactRun f _ _ hr => exact .inr ⟨rfl, .compactTablePrefix hr⟩
  | closeCall =>
    split
    · exact .inr ⟨rfl, .refl _⟩
    · exact .inr ⟨rfl, le_rfl, by simp, id, id, by simp⟩
  | closeRound fault _ _ hr => exact .inr ⟨rfl, .closeRound hr⟩
  | closeSync fault _ _ hr => exact .inr ⟨rfl, .closeSync hr (hclosing rfl)⟩
  | closeJoined fault _ _ _ hr =>
    cases hr
    exact .inr ⟨rfl, le_rfl, id, id, id, fun hc => ⟨hc, id⟩⟩

omit [EntrySize] in
theorem load_le (hworker : s'.worker = s.worker) (hs : s.handle.Spares s'.handle) :
    s'.load o ≤ s.load o + 33 * requestsFlush s s' := by
  have htables := hs.tables
  have hrequested := hs.requested_le
  -- the rank looks at the handle only behind a compaction, where another one may be due
  have hrank : s'.worker.rank o s'.handle ≤ s.worker.rank o s.handle := by
    rw [hworker]
    cases s.worker with
    | finished flush status =>
      simp only [Worker.rank]
      split
      · rename_i hmore
        rw [if_pos ⟨hmore.1, hmore.2.1, hs.needs hmore.2.2⟩]
      · split <;> omega
    | _ => exact le_rfl
  have hflush : s'.handle.flushRequested.toNat ≤
      s.handle.flushRequested.toNat + requestsFlush s s' := by
    unfold requestsFlush
    cases s.handle.flushRequested <;> cases s'.handle.flushRequested <;> simp
  simp only [load]
  omega

theorem SettlingStep.load_lt (htrigger : o.compactionTableTrigger ≠ 1)
    (hstep : SettlingStep o s s') (hp : Repays o s.handle s.worker) (hmoves : s.WorkerMoves s') :
    s'.load o < s.load o := by
  rcases hmoves with hne | ⟨hworker, hrequest, rfl⟩
  · rcases hstep.works_or_spares htrigger hp with hworks | ⟨heq, -⟩
    · exact hworks.load_lt s.calls s'.calls
    · exact absurd heq hne
  · have hworks : s.handle.Works o s.worker s.handle.claim.1 s.handle.claim.2 := by
      rw [hworker]
      exact .claim hrequest
    exact hworks.load_lt s.calls s.calls

theorem SettlingStep.load_le (htrigger : o.compactionTableTrigger ≠ 1)
    (hstep : SettlingStep o s s') (hp : Repays o s.handle s.worker) :
    s'.load o ≤ s.load o + 33 * requestsFlush s s' := by
  rcases hstep.works_or_spares htrigger hp with hworks | ⟨heq, hs⟩
  · have hlt := hworks.load_lt s.calls s'.calls
    exact hlt.le.trans (Nat.le_add_right _ _)
  · exact System.load_le heq hs

theorem SettlingStep.repays (htrigger : o.compactionTableTrigger ≠ 1)
    (hs : (settling o).Reachable s) : Repays o s.handle s.worker := by
  refine hs.invariant (P := fun s => Repays o s.handle s.worker) ?_ fun s s' hstep hp => ?_
  · rintro s ⟨d, listing, sweep, h, -, hopen, rfl⟩
    exact .opened hopen
  · rcases SettlingStep.works_or_spares htrigger hstep hp with hworks | ⟨heq, hs⟩
    · exact hp.works hworks
    · exact heq ▸ hp.spares hs

/-- A step that takes the worker elsewhere. -/
theorem Step.settling_of_ne (hstep : Step o false s s') (hne : s'.worker ≠ s.worker)
    (hreturned : s.worker.isFinished → s'.worker.isFinished = false) :
    ∃ s', SettlingStep o s s' ∧ s.WorkerMoves s' := by
  refine ⟨s', ⟨hstep, fun heq => absurd heq hne, fun hfinished hfinished' => ?_⟩, .inl hne⟩
  rw [hreturned hfinished] at hfinished'
  cases hfinished'

omit [EntrySize] in
theorem continued_ne {α : Type} {flush : Bool} {next : α → Worker} {r : Except Status α}
    {w : Worker} (hfinished : w.isFinished = false) (hnext : ∀ a, r = .ok a → next a ≠ w) :
    continued flush next r ≠ w := by
  cases r with
  | ok a => exact hnext a rfl
  | error status =>
    rintro rfl
    cases hfinished

omit [EntrySize] in
theorem continued_build_ne {context : BuildContext} {checked : Output → Option Status} {number : ℕ}
    {entries : List InternalEntry} {fault : Option Failure} {phase : BuildPhase} {h h' : Handle}
    {r : Except Status BuildPhase} {flush : Bool} {next : BuildPhase → Worker}
    (hphase : ∀ out, phase ≠ .ready out)
    (hr : h.buildStep o context checked number entries fault phase = (h', r))
    (hfinished : (next phase).isFinished = false) (hinj : Function.Injective next) :
    continued flush next r ≠ next phase := by
  refine continued_ne hfinished fun phase' hok heq => ?_
  subst hok
  have hlt := (Handle.buildStep_ok hphase hr).rank_lt
  rw [hinj heq] at hlt
  exact lt_irrefl _ hlt

/-- Where the worker is not at rest it can move. -/
theorem exists_workerMoves (hrest : ¬s.AtRest) : ∃ s', SettlingStep o s s' ∧ s.WorkerMoves s' := by
  have hbusy : ∀ {s'}, Step o false s s' → s.worker.isFinished = false → s'.worker ≠ s.worker →
      ∃ s', SettlingStep o s s' ∧ s.WorkerMoves s' :=
    fun hstep hfinished hne => hstep.settling_of_ne hne fun h => by simp [hfinished] at h
  -- every file operation of the step is taken to succeed
  cases hworker : s.worker with
  | waiting =>
    cases hstop : s.handle.workerStopping with
    | true => exact hbusy (.workerExit hworker hstop) (by rw [hworker]; rfl) (by simp [hworker])
    | false =>
      have hrequest : s.handle.flushRequested || s.handle.compactionRequested := by
        by_contra hnone
        simp only [Bool.or_eq_true, not_or, Bool.not_eq_true] at hnone
        exact hrest (.inr ⟨hworker, hstop, hnone⟩)
      refine ⟨_, ⟨.workerClaim hworker hstop hrequest, fun _ => ?_, ?_⟩,
        .inr ⟨hworker, hrequest, rfl⟩⟩
      · simp only [Handle.claim]
        split
        · exact id
        · split <;> exact id
      · simp [hworker, Worker.isFinished]
  | claimed flush =>
    cases flush with
    | true =>
      refine hbusy (.flushBegin ⟨none, fun _ => false⟩ (by simp) hworker rfl)
        (by rw [hworker]; rfl) ?_
      exact hworker ▸ continued_ne rfl (by simp)
    | false =>
      refine hbusy (.compactBegin none (by simp) hworker rfl) (by rw [hworker]; rfl) ?_
      exact hworker ▸ continued_ne rfl (by simp)
  | flushing job phase =>
    have hbuild : (∀ out, phase ≠ .ready out) → ∃ s', SettlingStep o s s' ∧ s.WorkerMoves s' := by
      intro hphase
      rcases hr : s.handle.buildStep o flushContext (fun _ => none) job.tableNumber job.entries none
        phase with ⟨h, r⟩
      refine hbusy (.flushBuild none (by simp) hworker hphase hr) (by rw [hworker]; rfl) ?_
      exact hworker ▸ continued_build_ne hphase hr rfl fun _ _ heq => by simpa using heq
    cases phase with
    | ready out =>
      rcases hr : s.handle.commitFlush o job out none with ⟨h, status⟩
      refine hbusy (.flushCommit none (by simp) hworker hr) (by rw [hworker]; rfl) ?_
      dsimp only
      rw [hworker]
      split <;> simp
    | _ => exact hbuild (by simp)
  | removingWal number =>
    exact hbusy (.flushRemove false (by simp) hworker) (by rw [hworker]; rfl) (by simp [hworker])
  | merging job =>
    refine hbusy (.compactMerge none (by simp) hworker) (by rw [hworker]; rfl) ?_
    dsimp only
    rw [hworker]
    split
    · simp
    · simp
    · split <;> simp
  | compacting job entries phase =>
    have hbuild : (∀ out, phase ≠ .ready out) → ∃ s', SettlingStep o s s' ∧ s.WorkerMoves s' := by
      intro hphase
      rcases hr : s.handle.buildStep o compactionContext compactionChecked job.number entries none
        phase with ⟨h, r⟩
      refine hbusy (.compactBuild none (by simp) hworker hphase hr) (by rw [hworker]; rfl) ?_
      exact hworker ▸ continued_build_ne hphase hr rfl fun _ _ heq => by simpa using heq
    cases phase with
    | ready out =>
      rcases hr : s.handle.commitCompaction job (some out) none fun _ => false with ⟨h, status⟩
      exact hbusy (.compactCommit none (fun _ => false) (by simp) hworker hr) (by rw [hworker]; rfl)
        (by simp [hworker])
    | _ => exact hbuild (by simp)
  | dropping job =>
    rcases hr : s.handle.commitCompaction job none none fun _ => false with ⟨h, status⟩
    exact hbusy (.compactDrop none (fun _ => false) (by simp) hworker hr) (by rw [hworker]; rfl)
      (by simp [hworker])
  | finished flush status =>
    exact (Step.workerAccount hworker).settling_of_ne (by simp [hworker]) fun _ => rfl
  | exited => exact absurd (.inl hworker) hrest

/-- The worker comes to rest. Along a run it takes at most as many steps as it had left to do, and
33 for each flush that another thread requests. It is at rest or can move, while no writer goes round
in `PrepareForWrite`; at rest, without an error and before `Close`, no MemTable waits for its flush
and no compaction is due. -/
theorem worker_comes_to_rest (ho : o.Accepted) {n k : ℕ} (hs : (settling o).Reachable s)
    (hrun : (settling o).CountedRun WorkerMoves requestsFlush s n k s') :
    n + s'.load o ≤ s.load o + 33 * k ∧
      (s'.AtRest ∨ ∃ s'', SettlingStep o s' s'' ∧ s'.WorkerMoves s'') ∧
      (s'.AtRest → s'.handle.hasError = false → s'.handle.closing = false →
        s'.handle.workerStopping = false →
        s'.handle.immutable = none ∧ s'.handle.needsBackgroundCompaction o = false) := by
  have htrigger := ho.trigger_ne_one
  refine ⟨?_, ?_, fun hrest he hclosing hstop => ?_⟩
  -- the bound: `load` is the potential, the flushes requested elsewhere its income
  · refine hrun.amortized ?_ ?_ hs
    · intro s s' hs hstep hmoves
      exact SettlingStep.load_lt htrigger hstep (SettlingStep.repays htrigger hs) hmoves
    · intro s s' hs hstep _
      exact SettlingStep.load_le htrigger hstep (SettlingStep.repays htrigger hs)
  · by_cases hrest : s'.AtRest
    · exact .inl hrest
    · exact .inr (exists_workerMoves hrest)
  · have hs' := hs.run hrun.run
    have hpending := FlushPending.of_reachable (SettlingStep.reachable hs')
    have hrepays := SettlingStep.repays htrigger hs'
    rcases hrest with hexited | ⟨hwaiting, -, hflush, hcompact⟩
    · rw [hpending.exited hexited] at hstop
      cases hstop
    -- at rest nothing is requested, and nothing is ahead of the worker
    rw [hwaiting] at hpending hrepays
    refine ⟨?_, ?_⟩
    · rw [← Option.not_isSome_iff_eq_none]
      intro hi
      rcases hpending.ahead hi he hstop with hf | hahead
      · rw [hflush] at hf
        cases hf
      · cases hahead
    · refine Bool.eq_false_iff.mpr fun hneeds => ?_
      rcases hrepays.ahead hneeds he hclosing with hf | hahead
      · rw [hcompact] at hf
        cases hf
      · cases hahead

/-- The moves of a schedule settle. -/
def movesSettle (o : Options) (s : System) : List Move → Bool
  | [] => true
  | m :: ms =>
    match s.move o m with
    | none => true
    | some s' =>
      (!s.handle.closing || s'.handle.closing) && !(s.worker.isFinished && s'.worker.isFinished) &&
        movesSettle o s' ms

theorem settling_of_moves {ms : List Move} (hsettle : s.movesSettle o ms)
    (h : s.moves o ms = some s') : (settling o).Run s s' := by
  induction ms generalizing s with
  | nil =>
    obtain rfl := Option.some.inj h
    exact .refl
  | cons m ms ih =>
    obtain ⟨s₁, hmove, hrest⟩ := Option.bind_eq_some_iff.mp h
    simp only [movesSettle, hmove, Bool.and_eq_true, Bool.or_eq_true, Bool.not_eq_true'] at hsettle
    obtain ⟨⟨hclosing, hreturned⟩, hsettle⟩ := hsettle
    refine .head ⟨move_step hmove, fun _ hc => ?_, fun hf hf' => ?_⟩ (ih hsettle hrest)
    · exact hclosing.resolve_left (by simp [hc])
    · simp [hf, hf'] at hreturned

end

/-- Two puts are flushed, and their tables merged. -/
theorem worker_comes_to_rest_compacted :
    let _ := entrySize80
    let o : Options := { memtableBytes := 1, compactionTableTrigger := 2 }
    ∃ (s s' : System) (n k : ℕ), s.load o = 1 ∧ s'.load o = 12 ∧
      (settling o).CountedRun WorkerMoves requestsFlush s n k s' ∧ n + 12 ≤ 1 + 33 * k ∧
      s'.handle.immutable = none ∧ s'.handle.needsBackgroundCompaction o = false := by
  intro _ o
  let ms : List Move := .write [WriterQueue.firstRequest] :: List.replicate 10 (.worker []) ++
    .write [WriterQueue.firstRequest] :: List.replicate 20 (.worker [])
  have htests : ((System.openThen o .empty ⟨false, []⟩ ⟨none, fun _ => false⟩ []).map fun s =>
      s.movesSettle o ms && decide (s.load o = 1) && ((s.moves o ms).map fun s' =>
        decide (s'.load o = 12 ∧ s'.handle.hasError = false ∧ s'.handle.closing = false ∧
          s'.handle.workerStopping = false ∧ s'.handle.flushRequested = false ∧
          s'.handle.compactionRequested = false) && (s'.worker matches .waiting)) == some true) =
      some true := by
    decide +kernel
  obtain ⟨s, hs, htests⟩ := Option.map_eq_some_iff.mp htests
  obtain ⟨htests, hmoved⟩ := Bool.and_eq_true_iff.mp htests
  obtain ⟨hsettle, hload⟩ := Bool.and_eq_true_iff.mp htests
  obtain ⟨s', hs', htests⟩ := Option.map_eq_some_iff.mp (eq_of_beq hmoved)
  obtain ⟨htests, hwaiting⟩ := Bool.and_eq_true_iff.mp htests
  obtain ⟨hload', he, hclosing, hstop, hflush, hcompact⟩ := of_decide_eq_true htests
  obtain ⟨h, hopen, hstart⟩ := System.openThen_eq_some hs
  obtain rfl := Option.some.inj hstart
  have hinit : (settling o).Reachable (started h) :=
    .of_init ⟨.empty, ⟨false, []⟩, ⟨none, fun _ => false⟩, h, by simp, hopen, rfl⟩
  obtain ⟨n, k, hrun⟩ : ∃ n k, (settling o).CountedRun WorkerMoves requestsFlush _ n k s' :=
    (settling_of_moves hsettle hs').exists_counted
  have hworker : s'.worker = .waiting := by
    cases hw : s'.worker <;> simp [hw] at hwaiting ⊢
  obtain ⟨hle, -, hrest⟩ := worker_comes_to_rest (o := o)
    ⟨by decide, by decide, by decide, by decide, by decide, by decide, by decide, by decide,
      by decide, by decide, by decide, by decide⟩ hinit hrun
  rw [of_decide_eq_true hload, hload'] at hle
  exact ⟨_, s', n, k, of_decide_eq_true hload, hload', hrun, hle,
    hrest (.inr ⟨hworker, hstop, hflush, hcompact⟩) he hclosing hstop⟩

end System

end TinyLsm
