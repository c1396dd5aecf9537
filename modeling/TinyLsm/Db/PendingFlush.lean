import TinyLsm.Db.Regions

/-!
# No flush is lost

The request and running flags of the background worker against the immutable MemTable and the
Manifest, over every interleaving of writers, `Compact`, `Close` and the worker.
-/

namespace TinyLsm

namespace Worker

/-- A claimed flush that has not committed, or whose failure is about to be recorded. -/
def flushAhead : Worker → Bool
  | claimed flush => flush
  | flushing _ _ => true
  | finished flush status => flush && !status.ok
  | _ => false

theorem isFlushing_of_flushAhead {w : Worker} (h : w.flushAhead) : w.isFlushing := by
  cases w <;> simp_all [flushAhead, isFlushing]

end Worker

/-- The flags agree with the worker, and a pending MemTable has a flush to come. -/
structure FlushPending (h : Handle) (w : Worker) : Prop where
  active_pos : h.manifest.activeWalNumber ≠ 0
  immutable_iff : h.terminalError = none →
    (h.manifest.immutableWalNumber ≠ 0 ↔ h.immutable.isSome)
  flushRunning : h.flushRunning = w.isFlushing
  compactionRunning : h.compactionRunning = w.isCompacting
  ahead : h.immutable.isSome → h.hasError = false → h.workerStopping = false →
    h.flushRequested ∨ w.flushAhead
  exited : w = .exited → h.workerStopping

namespace FlushPending

variable {h h' : Handle} {w w' : Worker} {o : Options}

theorem onlyFiles (hh : h.OnlyFiles h') (hp : FlushPending h w) : FlushPending h' w := by
  obtain ⟨d, t, p, rfl⟩ := hh
  exact ⟨hp.1, hp.2, hp.3, hp.4, hp.5, hp.6⟩

theorem store {m : MemTable} {n : ℕ} (hp : FlushPending h w) :
    FlushPending { h with memtable := m, nextSequence := n } w :=
  ⟨hp.1, hp.2, hp.3, hp.4, hp.5, hp.6⟩

/-- Behind a terminal error nothing is promised. -/
theorem terminal (hp : FlushPending h w) (status : Status) :
    FlushPending { h with terminalError := some status } w :=
  ⟨hp.1, by simp, hp.3, hp.4, by simp [Handle.hasError], hp.6⟩

theorem rotate {fault : Option RotateFault} {status : Status}
    (hr : h.rotateMemTable fault = (h', status)) (hp : FlushPending h w) : FlushPending h' w := by
  rcases Handle.rotateMemTable_cases hr with ⟨hwal, -⟩ | ⟨rfl, -⟩ | ⟨rfl, -⟩
  · exact hp.onlyFiles hwal.onlyFiles
  · exact (hp.onlyFiles (h.onlyFiles_withWal.trans (.perform _ _))).terminal status
  · obtain ⟨d, t, heq⟩ := h.rotated_eq
    rw [heq]
    exact ⟨Nat.succ_ne_zero _, fun _ => ⟨fun _ => rfl, fun _ => hp.active_pos⟩, hp.flushRunning,
      hp.compactionRunning, fun _ _ _ => .inl rfl, hp.exited⟩

/-- A Manifest that keeps the WALs. -/
theorem withManifest {next : ManifestSnapshot}
    (hactive : next.activeWalNumber = h.manifest.activeWalNumber)
    (himmutable : next.immutableWalNumber = h.manifest.immutableWalNumber)
    (hp : FlushPending h w) : FlushPending (h.withManifest next) w :=
  ⟨fun h0 => hp.1 (hactive ▸ h0), fun ht => himmutable ▸ hp.2 ht, hp.3, hp.4, hp.5, hp.6⟩

theorem compactedManifest_activeWal (m : ManifestSnapshot) (job : CompactionJob)
    (replacement : Option Output) :
    (Handle.compactedManifest m job replacement).activeWalNumber = m.activeWalNumber := by
  cases replacement <;> rfl

theorem compactedManifest_immutableWal (m : ManifestSnapshot) (job : CompactionJob)
    (replacement : Option Output) :
    (Handle.compactedManifest m job replacement).immutableWalNumber = m.immutableWalNumber := by
  cases replacement <;> rfl

theorem commitCompaction {job : CompactionJob} {replacement : Option Output}
    {fault : Option PublishFault} {fails : FileName → Bool} {status : Status}
    (hr : h.commitCompaction job replacement fault fails = (h', status))
    (hp : FlushPending h w) : FlushPending h' w := by
  rcases Handle.commitCompaction_cases hr with ⟨rfl, -⟩ | ⟨rfl, -⟩ | ⟨rfl, -⟩
  · exact hp
  · exact (hp.onlyFiles (.perform h _)).terminal status
  · have hinstalled := hp.withManifest (compactedManifest_activeWal h.manifest job replacement)
      (compactedManifest_immutableWal h.manifest job replacement)
    refine onlyFiles (.removeAll _ _ _) ?_
    exact ⟨hinstalled.1, hinstalled.2, hinstalled.3, hinstalled.4, hinstalled.5, hinstalled.6⟩

/-- The worker moves on within a job. -/
theorem worker (hp : FlushPending h w) (hflush : w'.isFlushing = w.isFlushing)
    (hcompact : w'.isCompacting = w.isCompacting) (hahead : w.flushAhead → w'.flushAhead)
    (hexited : w' ≠ .exited) : FlushPending h w' :=
  ⟨hp.1, hp.2, hp.3.trans hflush.symm, hp.4.trans hcompact.symm,
    fun hi he hs => (hp.5 hi he hs).imp id hahead, fun hw => absurd hw hexited⟩

/-! ## The steps of the worker -/

theorem claim (hp : FlushPending h .waiting) (hstop : h.workerStopping = false) :
    FlushPending h.claim.1 h.claim.2 := by
  have hno : h.immutable.isSome → h.hasError = false → h.flushRequested := by
    intro hi he
    exact (hp.ahead hi he hstop).resolve_right (by simp [Worker.flushAhead])
  simp only [Handle.claim]
  split
  · exact ⟨hp.1, hp.2, rfl, hp.4, fun _ _ _ => .inr rfl, by intros; contradiction⟩
  · rename_i hflush
    have hahead : h.immutable.isSome → h.hasError = false → False := by
      intro hi he
      exact hflush (by simp [hno hi he, hi])
    split
    · exact ⟨hp.1, hp.2, hp.3, rfl, fun hi he _ => (hahead hi he).elim, by intros; contradiction⟩
    · exact ⟨hp.1, hp.2, hp.3, hp.4, fun hi he _ => (hahead hi he).elim, by intros; contradiction⟩

theorem account {flush : Bool} {status : Status} (hp : FlushPending h (.finished flush status)) :
    FlushPending (h.account o flush status) .waiting := by
  simp only [Handle.account]
  split
  · split
    · rename_i herror
      refine ⟨hp.1, hp.2, rfl, rfl, fun _ he _ => ?_, by intros; contradiction⟩
      simp only [Handle.hasError, Bool.or_eq_false_iff] at he
      rw [he.1] at herror
      cases herror
    · exact ⟨hp.1, hp.2, rfl, rfl, by simp [Handle.hasError], by intros; contradiction⟩
  · rename_i hok
    have hahead : h.immutable.isSome → h.hasError = false → h.workerStopping = false →
        h.flushRequested := by
      intro hi he hs
      refine (hp.ahead hi he hs).resolve_right ?_
      simp only [Bool.not_eq_false] at hok
      simp [Worker.flushAhead, hok]
    split
    · exact ⟨hp.1, hp.2, rfl, rfl, fun hi he hs => .inl (hahead hi he hs), by intros; contradiction⟩
    · exact ⟨hp.1, hp.2, rfl, rfl, fun hi he hs => .inl (hahead hi he hs), by intros; contradiction⟩

theorem commitFlush {job : FlushJob} {out : Output} {fault : Option PublishFault} {status : Status}
    (hr : h.commitFlush o job out fault = (h', status))
    (hp : FlushPending h (.flushing job (.ready out))) :
    FlushPending h' (if status.ok then .removingWal job.immutableWal else .finished true status) := by
  have hfailed : status.ok = false → FlushPending h
      (if status.ok then .removingWal job.immutableWal else .finished true status) := by
    intro hfail
    simp only [hfail, Bool.false_eq_true, if_false]
    exact hp.worker rfl rfl (by simp [Worker.flushAhead, hfail]) (by rintro ⟨⟩)
  rcases Handle.commitFlush_cases hr with ⟨rfl, hfail⟩ | ⟨rfl, hfail, -⟩ | ⟨rfl, rfl, -⟩
  · exact hfailed hfail
  · exact ((hfailed hfail).onlyFiles (.perform h _)).terminal status
  · exact ⟨hp.active_pos, fun _ => ⟨fun h0 => absurd rfl h0, by intros; contradiction⟩, hp.flushRunning,
      hp.compactionRunning, by intros; contradiction, by intros; contradiction⟩

theorem beginFlush {sweep : SweepFaults} {r : Except Status FlushJob}
    (hr : h.beginFlush sweep = (h', r)) (hp : FlushPending h (.claimed true)) :
    FlushPending h' (System.continued true (.flushing · .create) r) := by
  obtain ⟨hfiles, ⟨status, rfl, hnone⟩ | ⟨m, -, -, -, -, -, -, rfl⟩⟩ := Handle.beginFlush_cases hr
  · refine onlyFiles hfiles ⟨hp.1, hp.2, hp.3, hp.4, fun hi _ _ => .inr ?_, by intros; contradiction⟩
    have hfail : ¬status.ok := fun hok => by simp [hnone hok] at hi
    simpa [System.continued, Worker.flushAhead] using hfail
  · exact (hp.onlyFiles hfiles).worker rfl rfl (fun _ => rfl) (by rintro ⟨⟩)

theorem beginCompaction {fault : Option PublishFault} {r : Except Status CompactionJob}
    (hr : h.beginBackgroundCompaction o fault = (h', r)) (hp : FlushPending h (.claimed false)) :
    FlushPending h' (System.continued false .merging r) := by
  have hworker : FlushPending h (System.continued false .merging r) := by
    cases r with
    | ok job => exact hp.worker rfl rfl (by simp [Worker.flushAhead]) (by rintro ⟨⟩)
    | error status => exact hp.worker rfl rfl (by simp [Worker.flushAhead]) (by rintro ⟨⟩)
  rcases Handle.beginBackgroundCompaction_cases hr with ⟨rfl, -⟩ | ⟨status, rfl, -⟩ | ⟨rfl, -⟩
  · exact hworker
  · exact (hworker.onlyFiles (.perform h _)).terminal status
  · exact hworker.withManifest rfl rfl

theorem closeRound {fault : Option RotateFault} {c : Call} (hr : h.closeRound o fault = (h', c))
    (hp : FlushPending h w) : FlushPending h' w := by
  unfold Handle.closeRound at hr
  split at hr
  · cases hr
    exact hp
  split at hr
  · cases hr
    exact hp
  split at hr
  · cases hr
    exact ⟨hp.1, hp.2, hp.3, hp.4, fun _ _ _ => .inl rfl, hp.6⟩
  split at hr
  · rcases hrotate : h.rotateMemTable fault with ⟨h₁, s₁⟩
    have hp₁ := hp.rotate hrotate
    rw [hrotate] at hr
    cases hr
    split
    · exact hp₁
    · exact ⟨hp₁.1, hp₁.2, hp₁.3, hp₁.4, by simp [Handle.hasError], hp₁.6⟩
  · cases hr
    exact hp

theorem closeSync {fault : Option Failure} {c : Call} (hr : h.closeSyncWal o fault = (h', c))
    (hp : FlushPending h w) : FlushPending h' w := by
  unfold Handle.closeSyncWal at hr
  split at hr
  · split at hr
    · cases hr
      exact ⟨hp.1, hp.2, hp.3, hp.4, hp.5, hp.6⟩
    · cases hr
      exact ⟨hp.1, hp.2, hp.3, hp.4, by simp, fun _ => rfl⟩
  · cases hr
    exact ⟨hp.1, hp.2, hp.3, hp.4, by simp, fun _ => rfl⟩

/-- The worker continues a compaction. -/
theorem compaction (hp : FlushPending h w) (hw : w.isCompacting) (hw' : w'.isCompacting)
    (hflush : w.isFlushing = w'.isFlushing) : FlushPending h w' := by
  refine hp.worker hflush.symm (hw'.trans hw.symm) (fun hahead => ?_) (by rintro rfl; cases hw')
  cases w <;> simp_all [Worker.flushAhead, Worker.isCompacting]

/-! ## Runs -/

theorem step [EntrySize] {faultFree : Bool} {s s' : System} (hstep : System.Step o faultFree s s')
    (hp : FlushPending s.handle s.worker) : FlushPending s'.handle s'.worker := by
  cases hstep with
  | write f _ happly =>
    exact Handle.applyWriteGroup_keeps (FlushPending · s.worker)
      (fun h op _ hp => hp.onlyFiles (.perform h op)) (fun _ _ _ _ hp => hp.store)
      (fun _ _ _ _ hr hp => hp.rotate hr) happly hp
  | getSnapshot | releaseSnapshot => exact ⟨hp.1, hp.2, hp.3, hp.4, hp.5, hp.6⟩
  | workerExit hworker hstop =>
    rw [hworker] at hp
    exact ⟨hp.1, hp.2, hp.3, hp.4, fun _ _ hs => absurd (hstop.symm.trans hs) (by simp),
      fun _ => hstop⟩
  | workerClaim hworker hstop _ =>
    rw [hworker] at hp
    exact hp.claim hstop
  | flushBegin sweep _ hworker hr =>
    rw [hworker] at hp
    exact hp.beginFlush hr
  | @flushBuild job phase _ r fault _ hworker hphase hr =>
    rw [hworker] at hp
    refine onlyFiles (.buildStep (by simp) hphase hr) ?_
    cases r with
    | ok phase' => exact hp.worker rfl rfl (fun _ => rfl) (by rintro ⟨⟩)
    | error status =>
      have hfail : status.ok = false := (Handle.buildStep_error (by simp) hr).1
      exact hp.worker rfl rfl (fun _ => by simp [System.continued, Worker.flushAhead, hfail])
        (by rintro ⟨⟩)
  | flushCommit fault _ hworker hr =>
    rw [hworker] at hp
    exact hp.commitFlush hr
  | flushRemove fails _ hworker =>
    rw [hworker] at hp
    exact onlyFiles (.bestEffortRemove _ _ _)
      (hp.worker rfl rfl (by simp [Worker.flushAhead]) (by rintro ⟨⟩))
  | compactBegin fault _ hworker hr =>
    rw [hworker] at hp
    exact hp.beginCompaction hr
  | compactMerge fault _ hworker =>
    rw [hworker] at hp
    refine hp.compaction rfl ?_ ?_
    · split <;> first | rfl | (dsimp only; split <;> rfl)
    · split <;> first | rfl | (dsimp only; split <;> rfl)
  | @compactBuild job entries phase _ r fault _ hworker hphase hr =>
    rw [hworker] at hp
    refine onlyFiles (.buildStep Handle.compactionChecked_error hphase hr) (hp.compaction rfl ?_ ?_)
    · cases r <;> rfl
    · cases r <;> rfl
  | compactCommit fault fails _ hworker hr =>
    rw [hworker] at hp
    exact FlushPending.commitCompaction hr (hp.compaction rfl rfl rfl)
  | compactDrop fault fails _ hworker hr =>
    rw [hworker] at hp
    exact FlushPending.commitCompaction hr (hp.compaction rfl rfl rfl)
  | workerException status _ hworker =>
    refine hp.worker ?_ ?_ ?_ (by rintro ⟨⟩)
    · rfl
    · cases hw : s.worker <;> simp_all [Worker.isCompacting, Worker.isFlushing]
    · intro hahead
      simp [Worker.flushAhead, Worker.isFlushing_of_flushAhead hahead, status.2]
  | workerAccount hworker =>
    rw [hworker] at hp
    exact hp.account
  | compactCall | compactResume | next => exact hp
  | compactRun f _ _ hr =>
    exact Handle.compactTablePrefix_keeps (FlushPending · s.worker)
      (fun _ _ hfiles hp => hp.onlyFiles hfiles)
      (fun _ _ _ _ _ _ _ hr hp => hp.commitCompaction hr) hr hp
  | closeCall =>
    split
    · exact hp
    · exact ⟨hp.1, hp.2, hp.3, hp.4, hp.5, hp.6⟩
  | closeRound fault _ _ hr => exact hp.closeRound hr
  | closeWake => exact hp
  | closeSync fault _ _ hr => exact hp.closeSync hr
  | closeJoined fault _ _ _ hr =>
    cases hr
    exact ⟨hp.1, hp.2, hp.3, hp.4, hp.5, hp.6⟩

/-- What `Open` returns. -/
theorem opened [EntrySize] {d : Directory} {listing : Listing} {sweep : SweepFaults}
    (hopen : Handle.open o d listing sweep = .ok h) : FlushPending h .waiting := by
  obtain ⟨d', hopened⟩ := Handle.open_opened hopen
  refine ⟨hopened.valid.active_pos, fun _ => hopened.immutable_iff, hopened.flushRunning,
    hopened.compactionRunning, fun hi _ _ => .inl ?_, by intros; contradiction⟩
  rw [hopened.flushRequested]
  exact hi

theorem of_reachable [EntrySize] {faultFree : Bool} {s : System}
    (hs : (System.system o faultFree).Reachable s) : FlushPending s.handle s.worker := by
  refine hs.induction (fun s => FlushPending s.handle s.worker) ?_ fun _ _ _ => step
  rintro s ⟨d, listing, sweep, h, -, hopen, rfl⟩
  exact opened hopen

end FlushPending

section
variable [EntrySize] {o : Options}

/-- In every reachable state the Manifest names an immutable WAL exactly when there is an immutable
MemTable, outside a terminal error; and while there is one, without an error and with the worker not
stopping, its flush is requested or running, and has yet to commit or to report its failure. -/
theorem no_flush_is_lost {s : System} (hs : (System.system o false).Reachable s) :
    (s.handle.terminalError = none →
      (s.handle.manifest.immutableWalNumber ≠ 0 ↔ s.handle.immutable.isSome)) ∧
    (s.handle.immutable.isSome → s.handle.hasError = false → s.handle.workerStopping = false →
      (s.handle.flushRequested ∨ s.handle.flushRunning) ∧
      (s.handle.flushRequested ∨ s.worker.flushAhead) ∧ s.worker ≠ .exited) := by
  have hp := FlushPending.of_reachable hs
  refine ⟨hp.immutable_iff, fun hi he hstop => ?_⟩
  have hahead := hp.ahead hi he hstop
  refine ⟨hahead.imp id fun h => ?_, hahead, fun hw => ?_⟩
  · rw [hp.flushRunning]
    exact Worker.isFlushing_of_flushAhead h
  · rw [hp.exited hw] at hstop
    cases hstop

end

/-- One put fills the MemTable of a new database, and its flush is requested. -/
theorem no_flush_is_lost_rotated :
    ∃ s : System, s.handle.immutable.isSome ∧ s.handle.hasError = false ∧
      s.handle.workerStopping = false ∧ (s.handle.flushRequested ∨ s.handle.flushRunning) := by
  let _ := entrySize80
  let o : Options := { memtableBytes := 1 }
  have hrun : ((Handle.open o .empty ⟨false, []⟩ ⟨none, fun _ => false⟩).toOption.bind fun h =>
      (h.applyWriteGroup o [WriterQueue.firstRequest] {}).map fun r =>
        (r.1.immutable.isSome, r.1.hasError, r.1.workerStopping)) = some (true, false, false) := by
    decide +kernel
  obtain ⟨h, hopen, hrun⟩ := Option.bind_eq_some_iff.mp hrun
  obtain ⟨⟨h', status⟩, happly, hflags⟩ := Option.map_eq_some_iff.mp hrun
  simp only [Prod.mk.injEq] at hflags
  have hinit : (System.system o false).Reachable (System.started h) := by
    refine .of_init ⟨.empty, ⟨false, []⟩, ⟨none, fun _ => false⟩, h, by simp, ?_, rfl⟩
    cases hopened : Handle.open o .empty ⟨false, []⟩ ⟨none, fun _ => false⟩ with
    | error s => simp [hopened, Except.toOption] at hopen
    | ok h₀ => simpa [hopened, Except.toOption] using hopen
  have hwritten : (System.system o false).Reachable { System.started h with handle := h' } :=
    hinit.step (.write {} (by simp) happly)
  have hlost := (no_flush_is_lost hwritten).2 hflags.1 hflags.2.1 hflags.2.2
  exact ⟨_, hflags.1, hflags.2.1, hflags.2.2, hlost.1⟩

end TinyLsm
