import TinyLsm.Db.Maintenance

/-!
# The threads of a handle

`BackgroundWorkLoop`, `Compact` and `Close` of `db_impl.cpp` with the commits of write groups as
steps on the handle. A step is one region under `mutex_` or one file operation outside it; a wait on
`background_cv_` is a step that is enabled when its predicate holds.
-/

namespace TinyLsm

/-- Where the background worker stands. -/
inductive Worker where
  /-- At the wait of `BackgroundWorkLoop`. -/
  | waiting
  /-- A flush or a compaction was claimed, and the lock released. -/
  | claimed (flush : Bool)
  /-- Between the two regions of `FlushImmutableMemTable`. -/
  | flushing (job : FlushJob) (phase : BuildPhase)
  /-- About to remove the WAL of a flushed MemTable. -/
  | removingWal (number : ℕ)
  /-- Behind the first region of `CompactTablePrefix`, before the watermark is read. -/
  | merging (job : CompactionJob)
  | compacting (job : CompactionJob) (entries : List InternalEntry) (phase : BuildPhase)
  /-- Nothing is kept, so that there is no output. -/
  | dropping (job : CompactionJob)
  /-- The job returned, and the lock is to be taken again. -/
  | finished (flush : Bool) (status : Status)
  | exited

namespace Worker

/-- A flush is claimed and not yet accounted for. -/
def isFlushing : Worker → Bool
  | claimed flush | finished flush _ => flush
  | flushing _ _ | removingWal _ => true
  | _ => false

/-- A compaction is claimed and not yet accounted for. -/
def isCompacting : Worker → Bool
  | claimed flush | finished flush _ => !flush
  | merging _ | compacting _ _ _ | dropping _ => true
  | _ => false

end Worker

/-- Where a thread stands that calls `Compact` or `Close`. -/
inductive Call where
  | idle
  /-- In `WaitForBackgroundWork`. -/
  | compactWaiting
  /-- Behind the release of the lock in `Compact`. -/
  | compactReady (inputCount : ℕ)
  /-- At the head of the loop of `Close`. -/
  | closeLoop
  | closeWaitCompaction
  /-- In `WaitForBackgroundFlush`. -/
  | closeWaitFlush
  /-- Behind the loop of `Close`. -/
  | closeSync
  | closeJoining
  | returned (status : Status)
deriving DecidableEq, Repr

/-- The handle and its threads. -/
structure System where
  handle : Handle
  worker : Worker
  calls : ℕ → Call

namespace Handle

/-- What the worker does under the lock when something is requested. -/
def claim (h : Handle) : Handle × Worker :=
  let flush := h.flushRequested && h.immutable.isSome
  let compact := !flush && h.compactionRequested && !h.closing
  let h := { h with flushRequested := false, compactionRequested := false }
  if flush then ({ h with flushRunning := true }, .claimed true)
  else if compact then ({ h with compactionRunning := true }, .claimed false)
  else (h, .waiting)

/-- What the worker does under the lock behind a job. -/
def account (o : Options) (h : Handle) (flush : Bool) (status : Status) : Handle :=
  let h := { h with flushRunning := false, compactionRunning := false }
  if status.ok = false then
    if h.terminalError.isSome then h
    else
      { h with
        backgroundError := some (status.withContext
          (if flush then "background immutable flush" else "background compaction")) }
  else if flush then h
  else { h with compactionRequested := h.compactionRequested || h.needsBackgroundCompaction o }

/-- A sticky error is set. -/
def hasError (h : Handle) : Bool := h.terminalError.isSome || h.backgroundError.isSome

/-- The predicate of `WaitForBackgroundFlush`. -/
def flushWaitOver (h : Handle) : Bool :=
  (h.immutable.isNone && !h.flushRunning) || h.hasError || h.workerStopping

/-- The predicate of `WaitForBackgroundWork`. -/
def workWaitOver (h : Handle) : Bool :=
  (h.immutable.isNone && !h.flushRunning && !h.compactionRunning && !h.flushRequested &&
    !h.compactionRequested) || h.hasError || h.workerStopping

/-- One round of the loop of `Close`. -/
def closeRound (o : Options) (h : Handle) (fault : Option RotateFault) : Handle × Call :=
  if h.hasError then (h, .closeSync)
  else if h.compactionRunning then (h, .closeWaitCompaction)
  else if h.immutable.isSome then ({ h with flushRequested := true }, .closeWaitFlush)
  else if o.memtableBytes ≤ h.memtable.bytes then
    let r := h.rotateMemTable fault
    (if r.2.ok then r.1
      else
        { r.1 with backgroundError := some (r.2.withContext "close database: rotate MemTable") },
      .closeLoop)
  else (h, .closeSync)

/-- `Close` behind its loop, until the worker is joined. -/
def closeSyncWal (o : Options) (h : Handle) (fault : Option Failure) : Handle × Call :=
  if o.syncOnWrite then
    match fault with
    | some status =>
      ({ h with closing := false }, .returned (status.1.withContext "close database: sync WAL"))
    | none =>
      ({ h.perform (.sync (.wal h.manifest.activeWalNumber)) with workerStopping := true },
        .closeJoining)
  else ({ h with workerStopping := true }, .closeJoining)

/-- The last part of `Close`. -/
def closeDone (h : Handle) (fault : Option Failure) : Handle × Status :=
  ({ h with closed := true },
    match fault with
    | some status => status.1.withContext "close database: close WAL"
    | none => h.backgroundError.getD .okay)

end Handle

namespace System

def setCall (s : System) (t : ℕ) (c : Call) : System :=
  { s with calls := Function.update s.calls t c }

/-- The worker continues with the next phase, or with the status of the failed one. -/
def continued {α : Type} (flush : Bool) (next : α → Worker) : Except Status α → Worker
  | .ok a => next a
  | .error status => .finished flush status

section
variable [EntrySize] (o : Options) (faultFree : Bool)

/-- One step of one thread. In a fault-free run no file operation fails. -/
inductive Step : System → System → Prop
  /-- The leader of the writer queue commits a group. One that waits in `PrepareForWrite`, or goes
  round there with the lock held, is no state of the system. -/
  | write {s group h status} (f : WriteFaults) (hf : faultFree → f = {})
      (happly : s.handle.applyWriteGroup o group f = some (h, status)) :
      Step s { s with handle := h }
  | getSnapshot {s : System} (hopen : s.handle.checkOpen.ok) :
      Step s { s with
        handle := { s.handle with
          snapshots := (s.handle.nextSequence - 1) :: s.handle.snapshots } }
  | releaseSnapshot {s : System} (sequence : ℕ) :
      Step s { s with
        handle := { s.handle with snapshots := s.handle.snapshots.erase sequence } }
  | workerExit {s : System} (hworker : s.worker = .waiting) (hstop : s.handle.workerStopping) :
      Step s { s with worker := .exited }
  | workerClaim {s : System} (hworker : s.worker = .waiting)
      (hstop : s.handle.workerStopping = false)
      (hrequest : s.handle.flushRequested || s.handle.compactionRequested) :
      Step s { s with handle := s.handle.claim.1, worker := s.handle.claim.2 }
  | flushBegin {s : System} {h r} (sweep : SweepFaults)
      (hf : faultFree → sweep.fails = fun _ => false) (hworker : s.worker = .claimed true)
      (hr : s.handle.beginFlush sweep = (h, r)) :
      Step s { s with handle := h, worker := continued true (.flushing · .create) r }
  | flushBuild {s : System} {job phase h r} (fault : Option Failure) (hf : faultFree → fault = none)
      (hworker : s.worker = .flushing job phase) (hphase : ∀ out, phase ≠ .ready out)
      (hr : s.handle.buildStep o flushContext (fun _ => none) job.tableNumber job.entries fault
        phase = (h, r)) :
      Step s { s with handle := h, worker := continued true (.flushing job) r }
  | flushCommit {s : System} {job out h status} (fault : Option PublishFault)
      (hf : faultFree → fault = none) (hworker : s.worker = .flushing job (.ready out))
      (hr : s.handle.commitFlush o job out fault = (h, status)) :
      Step s { s with
        handle := h
        worker := if status.ok then .removingWal job.immutableWal else .finished true status }
  | flushRemove {s : System} {number} (fails : Bool) (hf : faultFree → fails = false)
      (hworker : s.worker = .removingWal number) :
      Step s { s with
        handle := s.handle.bestEffortRemove (.wal number) fails
        worker := .finished true .okay }
  | compactBegin {s : System} {h r} (fault : Option PublishFault) (hf : faultFree → fault = none)
      (hworker : s.worker = .claimed false)
      (hr : s.handle.beginBackgroundCompaction o fault = (h, r)) :
      Step s { s with handle := h, worker := continued false .merging r }
  /-- The watermark is read, and the inputs are merged. -/
  | compactMerge {s : System} {job} (fault : Option Failure) (hf : faultFree → fault = none)
      (hworker : s.worker = .merging job) :
      Step s { s with
        worker :=
          match fault, mergedEntries job.tables with
          | some status, _ => .finished false (status.1.withContext "read compaction input")
          | none, .error status => .finished false status
          | none, .ok merged =>
            let entries := retainEntries job.coversAll (oldestSnapshot s.handle.snapshots) none false
              merged
            if entries = [] then .dropping job else .compacting job entries .create }
  | compactBuild {s : System} {job entries phase h r} (fault : Option Failure)
      (hf : faultFree → fault = none) (hworker : s.worker = .compacting job entries phase)
      (hphase : ∀ out, phase ≠ .ready out)
      (hr : s.handle.buildStep o compactionContext compactionChecked job.number entries fault phase =
        (h, r)) :
      Step s { s with handle := h, worker := continued false (.compacting job entries) r }
  | compactCommit {s : System} {job entries out h status} (fault : Option PublishFault)
      (fails : FileName → Bool) (hf : faultFree → fault = none ∧ fails = fun _ => false)
      (hworker : s.worker = .compacting job entries (.ready out))
      (hr : s.handle.commitCompaction job (some out) fault fails = (h, status)) :
      Step s { s with handle := h, worker := .finished false status }
  | compactDrop {s : System} {job h status} (fault : Option PublishFault) (fails : FileName → Bool)
      (hf : faultFree → fault = none ∧ fails = fun _ => false) (hworker : s.worker = .dropping job)
      (hr : s.handle.commitCompaction job none fault fails = (h, status)) :
      Step s { s with handle := h, worker := .finished false status }
  /-- An exception ends a job of the worker outside its locked regions. -/
  | workerException {s : System} (status : Failure) (hf : faultFree = false)
      (hworker : s.worker.isFlushing || s.worker.isCompacting) :
      Step s { s with worker := .finished s.worker.isFlushing status.1 }
  | workerAccount {s : System} {flush status} (hworker : s.worker = .finished flush status) :
      Step s { s with handle := s.handle.account o flush status, worker := .waiting }
  | compactCall {s : System} {t} (ht : s.calls t = .idle) :
      Step s (s.setCall t
        (if s.handle.checkOpen.ok then .compactWaiting else .returned s.handle.checkOpen))
  | compactResume {s : System} {t} (ht : s.calls t = .compactWaiting)
      (hwait : s.handle.workWaitOver) :
      Step s (s.setCall t (if s.handle.checkOpen.ok then .compactReady s.handle.tables.length
        else .returned s.handle.checkOpen))
  | compactRun {s : System} {t inputCount h status} (f : Handle.CompactFaults)
      (hf : faultFree → f.sweep.fails = (fun _ => false) ∧ f.read = none ∧ f.create = none ∧
        f.write = none ∧ f.verify = none ∧ f.rename = none ∧ f.syncDir = none ∧ f.publish = none ∧
        f.fails = fun _ => false)
      (ht : s.calls t = .compactReady inputCount)
      (hr : s.handle.compactTablePrefix o inputCount f = (h, status)) :
      Step s { s with handle := h, calls := Function.update s.calls t (.returned status) }
  /-- `Close` behind `StopWriterQueue`, whose wait for the leader is a step of the writer queue. -/
  | closeCall {s : System} {t} (ht : s.calls t = .idle) :
      Step s (if s.handle.closed then s.setCall t (.returned (.alreadyClosed "database is closed"))
        else { s with
          handle := { s.handle with closing := true, compactionRequested := false }
          calls := Function.update s.calls t .closeLoop })
  | closeRound {s : System} {t h c} (fault : Option RotateFault) (hf : faultFree → fault = none)
      (ht : s.calls t = .closeLoop) (hr : s.handle.closeRound o fault = (h, c)) :
      Step s { s with handle := h, calls := Function.update s.calls t c }
  | closeWake {s : System} {t}
      (ht : s.calls t = .closeWaitCompaction ∧
          (s.handle.compactionRunning = false ∨ s.handle.hasError) ∨
        s.calls t = .closeWaitFlush ∧ s.handle.flushWaitOver) :
      Step s (s.setCall t .closeLoop)
  | closeSync {s : System} {t h c} (fault : Option Failure) (hf : faultFree → fault = none)
      (ht : s.calls t = .closeSync) (hr : s.handle.closeSyncWal o fault = (h, c)) :
      Step s { s with handle := h, calls := Function.update s.calls t c }
  | closeJoined {s : System} {t h status} (fault : Option Failure) (hf : faultFree → fault = none)
      (ht : s.calls t = .closeJoining) (hworker : s.worker = .exited)
      (hr : s.handle.closeDone fault = (h, status)) :
      Step s { s with handle := h, calls := Function.update s.calls t (.returned status) }
  /-- A call returned, and the thread may make another one. -/
  | next {s : System} {t status} (ht : s.calls t = .returned status) : Step s (s.setCall t .idle)

end

end System

end TinyLsm
