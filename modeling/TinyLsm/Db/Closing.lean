import TinyLsm.Db.CheckOpen
import TinyLsm.Db.CrashWrites
import TinyLsm.Db.Quiescence

/-!
# `Close` returns

A thread in `Close` takes a bounded number of steps of its own, whatever the other threads do
between them; and where it waits the worker has something left to do, or has done what the thread
waits for.
-/

namespace TinyLsm

/-! ## The handle of a `Close` under way -/

namespace Handle

/-- The active MemTable has reached its limit. -/
def full (o : Options) (h : Handle) : Bool := decide (o.memtableBytes ≤ h.memtable.bytes)

/-- The loop of `Close` has nothing left to flush. -/
def Drained (o : Options) (h : Handle) : Prop :=
  h.hasError ∨ h.immutable = none ∧ h.full o = false

/-- No step takes back what a `Close` has set, and none gives its loop more to do: at most a full
MemTable is rotated. -/
structure Subsides (o : Options) (h h' : Handle) : Prop where
  closing : h.closing → h'.closing
  error : h.hasError → h'.hasError
  running : h'.compactionRunning → h.compactionRunning
  layers : (h'.memtable = h.memtable ∧ (h'.immutable.isSome → h.immutable.isSome)) ∨
    (h.immutable = none ∧ h.full o ∧ h'.full o = false)

namespace Subsides

variable {o : Options} {h h' h'' : Handle}

theorem refl (o : Options) (h : Handle) : h.Subsides o h :=
  ⟨id, id, id, .inl ⟨rfl, id⟩⟩

/-- Files and MemTables apart, the same. -/
theorem onlyFiles (hfiles : h.OnlyFiles h') : h.Subsides o h' := by
  obtain ⟨d, t, p, rfl⟩ := hfiles
  exact ⟨id, id, id, .inl ⟨rfl, id⟩⟩

theorem onlyFiles_trans (hfiles : h.OnlyFiles h') (hs : h'.Subsides o h'') : h.Subsides o h'' := by
  obtain ⟨d, t, p, rfl⟩ := hfiles
  exact ⟨hs.closing, hs.error, hs.running, hs.layers⟩

/-- A terminal error is set. -/
theorem terminal (o : Options) (h : Handle) (status : Status) :
    h.Subsides o { h with terminalError := some status } :=
  ⟨id, fun _ => by simp [hasError], id, .inl ⟨rfl, id⟩⟩

theorem drained (hs : h.Subsides o h') (hd : h.Drained o) : h'.Drained o := by
  rcases hd with he | ⟨hi, hfull⟩
  · exact .inl (hs.error he)
  refine .inr ?_
  rcases hs.layers with ⟨hmemtable, himmutable⟩ | ⟨-, hfull', -⟩
  · refine ⟨?_, by rw [full, hmemtable]; exact hfull⟩
    rw [← Option.not_isSome_iff_eq_none]
    intro hi'
    simp [hi] at himmutable
    simp [himmutable] at hi'
  · rw [hfull] at hfull'
    cases hfull'

/-! ## The regions of the worker -/

theorem claim (hclosing : h.closing) : h.Subsides o h.claim.1 := by
  simp only [Handle.claim]
  split
  · exact ⟨id, id, id, .inl ⟨rfl, id⟩⟩
  split
  · rename_i hcompact
    simp [hclosing] at hcompact
  · exact ⟨id, id, id, .inl ⟨rfl, id⟩⟩

theorem account (h : Handle) (flush : Bool) (status : Status) :
    h.Subsides o (h.account o flush status) := by
  simp only [Handle.account]
  split
  · split
    · exact ⟨id, id, by simp, .inl ⟨rfl, id⟩⟩
    · exact ⟨id, fun _ => by simp [hasError], by simp, .inl ⟨rfl, id⟩⟩
  · split
    · exact ⟨id, id, by simp, .inl ⟨rfl, id⟩⟩
    · exact ⟨id, id, by simp, .inl ⟨rfl, id⟩⟩

theorem commitFlush {job : FlushJob} {out : Output} {fault : Option PublishFault} {status : Status}
    (hr : h.commitFlush o job out fault = (h', status)) : h.Subsides o h' := by
  rcases commitFlush_cases hr with ⟨rfl, -⟩ | ⟨rfl, -⟩ | ⟨rfl, -⟩
  · exact refl o _
  · exact onlyFiles_trans (.perform h _) (terminal o _ status)
  · exact ⟨id, id, id, .inl ⟨rfl, by intros; contradiction⟩⟩

theorem beginCompaction {fault : Option PublishFault} {r : Except Status CompactionJob}
    (hr : h.beginBackgroundCompaction o fault = (h', r)) : h.Subsides o h' := by
  rcases beginBackgroundCompaction_cases hr with ⟨rfl, -⟩ | ⟨status, rfl, -⟩ | ⟨rfl, -⟩
  · exact refl o _
  · exact onlyFiles_trans (.perform h _) (terminal o _ status)
  · exact ⟨id, id, id, .inl ⟨rfl, id⟩⟩

theorem commitCompaction {job : CompactionJob} {replacement : Option Output}
    {fault : Option PublishFault} {fails : FileName → Bool} {status : Status}
    (hr : h.commitCompaction job replacement fault fails = (h', status)) : h.Subsides o h' := by
  rcases commitCompaction_cases hr with ⟨rfl, -⟩ | ⟨rfl, -⟩ | ⟨rfl, -⟩
  · exact refl o _
  · exact onlyFiles_trans (.perform h _) (terminal o _ status)
  · obtain ⟨d, t, p, heq⟩ := h.installCompaction_eq (compactedManifest h.manifest job replacement)
      job replacement fails
    rw [heq]
    exact ⟨id, id, id, .inl ⟨rfl, id⟩⟩

/-! ## The regions of the calls -/

theorem compactTablePrefix {inputCount : ℕ} {f : CompactFaults} {status : Status}
    (hr : h.compactTablePrefix o inputCount f = (h', status)) : h.Subsides o h' := by
  have hfiles := OnlyFiles.cleanupObsoleteFiles h f.sweep.listed f.sweep.fails
  rcases compactTablePrefix_cases hr with
    ⟨rfl, -⟩ | ⟨-, h₁, rfl, rfl | ⟨_, -, -, hcommit⟩ | ⟨_, h₂, r, -, -, hbuild, hend⟩⟩
  · exact refl o _
  · exact onlyFiles hfiles
  · exact onlyFiles_trans hfiles (commitCompaction hcommit)
  · have hbuilt := hfiles.trans (OnlyFiles.buildOutput hbuild)
    rcases hend with ⟨-, rfl⟩ | ⟨out, -, hcommit⟩
    · exact onlyFiles hbuilt
    · exact onlyFiles_trans hbuilt (commitCompaction hcommit)

/-- A group that arrives while the handle is closing is refused. -/
theorem applyWriteGroup [EntrySize] {group : List WriterRequest} {f : WriteFaults} {status : Status}
    (hclosing : h.closing) (hr : h.applyWriteGroup o group f = some (h', status)) :
    h.Subsides o h' := by
  have hrefused : h.checkOpen = .alreadyClosed "database is closed" := by simp [checkOpen, hclosing]
  have hfail : (Status.alreadyClosed "database is closed").ok = false := rfl
  unfold Handle.applyWriteGroup prepareForWrite at hr
  rw [hrefused, if_pos hfail] at hr
  split at hr
  · cases hr
    exact refl o _
  split at hr
  · cases hr
  rename_i h₁ s₁ hprepare
  split at hprepare
  · cases hprepare
  cases hprepare
  rw [if_pos hfail] at hr
  cases hr
  exact refl o _

/-- The rotation of a round switches the MemTables, or leaves an error. -/
theorem closeRotate {fault : Option RotateFault} (ho : 0 < o.memtableBytes)
    (hzero : h.memtable.EmptyIsZero) (hfull : o.memtableBytes ≤ h.memtable.bytes) {h₁ : Handle}
    {s₁ : Status} (hrotate : h.rotateMemTable fault = (h₁, s₁)) (context : String)
    (heq : h' = if s₁.ok then h₁ else
      { h₁ with backgroundError := some (s₁.withContext context) }) :
    h.Subsides o h' ∧ (h'.hasError ∨ h'.full o = false) := by
  subst heq
  rcases rotateMemTable_cases hrotate with
    ⟨hwal, hidle⟩ | ⟨rfl, hfail, -⟩ | ⟨rfl, rfl, -, hnone, -⟩
  · have hfail : s₁.ok = false := by
      rw [← Bool.not_eq_true]
      intro hok
      have hbytes := hzero (hidle hok).2.2
      omega
    rw [if_neg (by simp [hfail])]
    obtain ⟨d, t, p, rfl⟩ := hwal.onlyFiles
    exact ⟨⟨id, fun _ => by simp [hasError], id, .inl ⟨rfl, id⟩⟩, .inl (by simp [hasError])⟩
  · rw [if_neg (by simp [hfail])]
    exact ⟨⟨id, fun _ => by simp [hasError], id, .inl ⟨rfl, id⟩⟩, .inl (by simp [hasError])⟩
  · obtain ⟨d, t, heq⟩ := h.rotated_eq
    have hempty : h.rotated.full o = false := by
      rw [heq]
      exact decide_eq_false (not_le.mpr ho)
    rw [if_pos (by rfl)]
    refine ⟨?_, .inr hempty⟩
    have hlayers := And.intro hnone (And.intro (decide_eq_true hfull : h.full o) hempty)
    rw [heq] at hlayers ⊢
    exact ⟨id, id, id, .inr hlayers⟩

/-- A round of the loop rotates a full MemTable, or reports why it could not. -/
theorem closeRound {fault : Option RotateFault} {c : Call} (ho : 0 < o.memtableBytes)
    (hzero : h.memtable.EmptyIsZero) (hr : h.closeRound o fault = (h', c)) : h.Subsides o h' := by
  unfold Handle.closeRound at hr
  split at hr
  · cases hr
    exact refl o _
  split at hr
  · cases hr
    exact refl o _
  split at hr
  · cases hr
    exact ⟨id, id, id, .inl ⟨rfl, id⟩⟩
  split at hr
  · rename_i hfull
    exact (closeRotate ho hzero hfull Prod.mk.eta.symm _ (Prod.mk.inj hr).1.symm).1
  · cases hr
    exact refl o _

/-- `Close` is not given up. -/
theorem closeSync {fault : Option Failure} {c : Call} (hr : h.closeSyncWal o fault = (h', c))
    (hclosing : h.closing → h'.closing) : h.Subsides o h' := by
  unfold Handle.closeSyncWal at hr
  split at hr
  · split at hr
    · cases hr
      exact ⟨hclosing, id, id, .inl ⟨rfl, id⟩⟩
    · cases hr
      exact ⟨id, id, id, .inl ⟨rfl, id⟩⟩
  · cases hr
    exact ⟨id, id, id, .inl ⟨rfl, id⟩⟩

end Subsides

end Handle

/-! ## What a `Close` has left to do -/

/-- Behind a sticky error the loop of `Close` has no work. -/
def Handle.work (h : Handle) (n : ℕ) : ℕ := if h.hasError then 0 else n

theorem Handle.work_of_ok {h : Handle} (he : h.hasError = false) (n : ℕ) : h.work n = n := by
  rw [work, he]
  rfl

theorem Handle.work_of_error {h : Handle} (he : h.hasError) (n : ℕ) : h.work n = 0 := by
  rw [work, he]
  rfl

theorem Handle.work_le (h : Handle) (n : ℕ) : h.work n ≤ n := by
  unfold work
  split <;> omega

theorem Handle.Subsides.work_le {o : Options} {h h' : Handle} (hs : h.Subsides o h') {n n' : ℕ}
    (hle : n' ≤ n) : h'.work n' ≤ h.work n := by
  cases he : h.hasError with
  | true => rw [work_of_error (hs.error he)]; omega
  | false =>
    rw [work_of_ok he]
    exact (h'.work_le n').trans hle

namespace Call

/-- The thread is in `Close`. -/
def inClose : Call → Bool
  | closeLoop | closeWaitCompaction | closeWaitFlush | closeSync | closeJoining => true
  | idle | compactWaiting | compactReady _ | returned _ => false

/-- The steps that a thread in `Close` has left. Each wait costs a round of the loop, and so does
a rotation, which a flush follows. -/
def rank (o : Options) (h : Handle) : Call → ℕ
  | closeLoop => 3 + h.work (2 * h.compactionRunning.toNat + 2 * h.immutable.isSome.toNat +
      3 * (h.full o).toNat)
  | closeWaitCompaction => 4 + h.work (2 * h.immutable.isSome.toNat + 3 * (h.full o).toNat)
  | closeWaitFlush => 4 + h.work (2 * h.compactionRunning.toNat + 3 * (h.full o).toNat)
  | closeSync => 2
  | closeJoining => 1
  | idle | compactWaiting | compactReady _ | returned _ => 0

variable {o : Options} {h h' : Handle}

/-- A round of the loop leaves less to do. -/
theorem rank_closeRound {fault : Option RotateFault} {c : Call} (ho : 0 < o.memtableBytes)
    (hzero : h.memtable.EmptyIsZero) (hr : h.closeRound o fault = (h', c)) :
    c.rank o h' < closeLoop.rank o h := by
  -- one branch of the loop after the other, in the order of the source
  unfold Handle.closeRound at hr
  split at hr
  · cases hr
    simp only [rank]
    omega
  rename_i he
  rw [Bool.not_eq_true] at he
  simp only [rank, h.work_of_ok he]
  split at hr
  · rename_i hrunning
    cases hr
    have hle := h.work_le (2 * h.immutable.isSome.toNat + 3 * (h.full o).toNat)
    rw [hrunning, Bool.toNat_true]
    simp only
    omega
  split at hr
  · rename_i himmutable
    cases hr
    have hle := { h with flushRequested := true }.work_le
      (2 * h.compactionRunning.toNat + 3 * (h.full o).toNat)
    rw [himmutable, Bool.toNat_true]
    exact lt_of_le_of_lt (Nat.add_le_add_left hle 4) (by omega)
  split at hr
  · rename_i hfull
    -- the rotation seals the MemTable and leaves an empty one, or ends in an error
    have hlimit : h.full o = true := decide_eq_true hfull
    obtain ⟨heq, rfl⟩ := Prod.mk.inj hr
    obtain ⟨hs, he' | hempty⟩ :=
      Handle.Subsides.closeRotate ho hzero hfull Prod.mk.eta.symm _ heq.symm
    · rw [hlimit, Bool.toNat_true]
      simp only [h'.work_of_error he']
      omega
    · have hrunning := Bool.toNat_le_toNat hs.running
      have himmutable := Bool.toNat_le h'.immutable.isSome
      have hle := h'.work_le (2 * h'.compactionRunning.toNat + 2 * h'.immutable.isSome.toNat +
        3 * (h'.full o).toNat)
      rw [hempty, Bool.toNat_false] at hle
      rw [hlimit, Bool.toNat_true]
      simp only [hempty, Bool.toNat_false]
      omega
  · cases hr
    simp only
    omega

end Call

/-! ## Runs -/

namespace System

variable [EntrySize] {o : Options} {s s' : System}

/-- While a `Close` is under way no step gives it more to do. -/
theorem SettlingStep.subsides (ho : 0 < o.memtableBytes) (hstep : SettlingStep o s s')
    (hzero : s.handle.memtable.EmptyIsZero) (hclosing : s.handle.closing) :
    s.handle.Subsides o s'.handle := by
  obtain ⟨hstep, hkept, -⟩ := hstep
  cases hstep with
  | write f _ happly => exact .applyWriteGroup hclosing happly
  | getSnapshot | releaseSnapshot => exact ⟨id, id, id, .inl ⟨rfl, id⟩⟩
  | workerClaim => exact .claim hclosing
  | flushBegin sweep _ _ hr => exact .onlyFiles (Handle.beginFlush_cases hr).1
  | flushBuild fault _ _ hphase hr => exact .onlyFiles (.buildStep (by simp) hphase hr)
  | flushCommit fault _ _ hr => exact .commitFlush hr
  | flushRemove fails => exact .onlyFiles (.bestEffortRemove _ _ _)
  | compactBegin fault _ _ hr => exact .beginCompaction hr
  | compactBuild fault _ _ hphase hr =>
    exact .onlyFiles (.buildStep Handle.compactionChecked_error hphase hr)
  | compactCommit fault fails _ _ hr | compactDrop fault fails _ _ hr => exact .commitCompaction hr
  | workerAccount => exact .account _ _ _
  | workerExit | compactMerge | workerException | compactCall | compactResume | closeWake | next =>
    exact .refl o _
  | compactRun f _ _ hr => exact .compactTablePrefix hr
  | closeCall =>
    split
    · exact .refl o _
    · exact ⟨fun _ => rfl, id, id, .inl ⟨rfl, id⟩⟩
  | closeRound fault _ _ hr => exact .closeRound ho hzero hr
  -- a failed sync of the WAL would lower `closing` again: these runs leave it out
  | closeSync fault _ _ hr => exact .closeSync hr (hkept rfl)
  | closeJoined fault _ _ _ hr =>
    cases hr
    exact ⟨id, id, id, .inl ⟨rfl, id⟩⟩

/-- What the threads in `Close` have set, and what they found. -/
structure Closes (o : Options) (s : System) : Prop where
  zero : s.handle.memtable.EmptyIsZero
  closing : ∀ t, (s.calls t).inClose → s.handle.closing
  sync : ∀ t, s.calls t = .closeSync → s.handle.Drained o
  joining : ∀ t, s.calls t = .closeJoining → s.handle.workerStopping
  stopping : s.handle.workerStopping → s.handle.closing ∧ s.handle.Drained o
  closed : s.handle.closed → s.handle.workerStopping ∧ s.worker = .exited

/-- A thread in `Close` moves on, or rotates the MemTable and goes round. -/
def CloseMoves (o : Options) (t : ℕ) (s s' : System) : Prop :=
  (s.calls t).inClose ∧ (s'.calls t ≠ s.calls t ∨
    s.calls t = .closeLoop ∧ ∃ fault, s.handle.closeRound o fault = (s'.handle, .closeLoop))

/-- What a step of a thread in `Close` does. -/
inductive CloseStep (o : Options) (h : Handle) (w : Worker) : Call → Handle → Call → Prop
  | round {h' c} (fault : Option RotateFault) (hr : h.closeRound o fault = (h', c)) :
      CloseStep o h w .closeLoop h' c
  | wokenCompaction (hwake : h.compactionRunning = false ∨ h.hasError) :
      CloseStep o h w .closeWaitCompaction h .closeLoop
  | wokenFlush (hwake : h.flushWaitOver) : CloseStep o h w .closeWaitFlush h .closeLoop
  | sync {h' c} (fault : Option Failure) (hr : h.closeSyncWal o fault = (h', c)) :
      CloseStep o h w .closeSync h' c
  | joined {h' status} (fault : Option Failure) (hw : w = .exited)
      (hr : h.closeDone fault = (h', status)) : CloseStep o h w .closeJoining h' (.returned status)

omit [EntrySize] in
theorem update_cases {t u : ℕ} {calls : ℕ → Call} {c : Call}
    (hne : Function.update calls u c t ≠ calls t) : u = t := by
  by_contra hut
  exact hne (Function.update_of_ne (Ne.symm hut) c calls)

/-- A thread leaves its place in `Close` by a step of its own. -/
theorem Step.closeStep {t : ℕ} (hstep : Step o false s s') (hin : (s.calls t).inClose)
    (hne : s'.calls t ≠ s.calls t) :
    CloseStep o s.handle s.worker (s.calls t) s'.handle (s'.calls t) ∧ s'.worker = s.worker := by
  -- a step of another thread, or one outside `Close`, leaves the place of this one
  have hother : ∀ {u : ℕ} {c c' : Call}, Function.update s.calls u c t ≠ s.calls t →
      s.calls u = c' → c'.inClose = false → False := by
    intro u c c' hne hu hout
    rw [← update_cases hne, hu, hout] at hin
    cases hin
  cases hstep with
  | write | getSnapshot | releaseSnapshot | workerExit | workerClaim | flushBegin | flushBuild
  | flushCommit | flushRemove | compactBegin | compactMerge | compactBuild | compactCommit
  | compactDrop | workerException | workerAccount => exact absurd rfl hne
  | compactCall ht | compactResume ht | compactRun _ _ ht | next ht =>
    exact (hother hne ht rfl).elim
  | closeCall ht =>
    split at hne
    · exact (hother hne ht rfl).elim
    · exact (hother hne ht rfl).elim
  | @closeRound u h c fault _ ht hr =>
    obtain rfl := update_cases hne
    exact ⟨by simpa [ht] using CloseStep.round fault hr, rfl⟩
  | @closeWake u ht =>
    obtain rfl := update_cases hne
    refine ⟨?_, rfl⟩
    rcases ht with ⟨ht, hwake⟩ | ⟨ht, hwake⟩
    · simpa [ht, setCall] using CloseStep.wokenCompaction hwake
    · simpa [ht, setCall] using CloseStep.wokenFlush hwake
  | @closeSync u h c fault _ ht hr =>
    obtain rfl := update_cases hne
    exact ⟨by simpa [ht] using CloseStep.sync fault hr, rfl⟩
  | @closeJoined u h status fault _ ht hworker hr =>
    obtain rfl := update_cases hne
    exact ⟨by simpa [ht] using CloseStep.joined fault hworker hr, rfl⟩

omit [EntrySize] in
theorem CloseStep.rank_lt {h h' : Handle} {w : Worker} {c c' : Call}
    (hstep : CloseStep o h w c h' c') (ho : 0 < o.memtableBytes) (hzero : h.memtable.EmptyIsZero)
    (hstopping : h.workerStopping → h.Drained o) : c'.rank o h' < c.rank o h := by
  cases hstep with
  | round fault hr => exact Call.rank_closeRound ho hzero hr
  | wokenCompaction hwake =>
    simp only [Call.rank]
    rcases hwake with hrunning | he
    · rw [hrunning, Bool.toNat_false, Nat.mul_zero, Nat.zero_add]
      omega
    · rw [h.work_of_error he, h.work_of_error he]
      omega
  -- a stopped worker also ends the wait; then the MemTables were drained before
  | wokenFlush hwake =>
    have hcases : h.hasError ∨ h.immutable = none := by
      simp only [Handle.flushWaitOver, Bool.or_eq_true, Bool.and_eq_true,
        Option.isNone_iff_eq_none] at hwake
      rcases hwake with (⟨hnone, -⟩ | he) | hstop
      · exact .inr hnone
      · exact .inl he
      · exact (hstopping hstop).imp_right And.left
    simp only [Call.rank]
    rcases hcases with he | hnone
    · rw [h.work_of_error he, h.work_of_error he]
      omega
    · rw [hnone, Option.isSome_none, Bool.toNat_false, Nat.mul_zero, Nat.add_zero]
      omega
  | sync fault hr =>
    obtain ⟨-, ⟨rfl, -⟩ | ⟨⟨status, rfl⟩, -⟩⟩ := Handle.closeSyncWal_cases_stop hr
    · simp [Call.rank]
    · simp [Call.rank]
  | joined => simp [Call.rank]

/-- Every step of a thread in `Close` leaves it less to do. -/
theorem CloseMoves.rank_lt {t : ℕ} (hmoves : CloseMoves o t s s') (hstep : Step o false s s')
    (ho : 0 < o.memtableBytes) (hc : Closes o s) :
    (s'.calls t).rank o s'.handle < (s.calls t).rank o s.handle := by
  obtain ⟨hin, hne | ⟨hloop, fault, hr⟩⟩ := hmoves
  · exact (hstep.closeStep hin hne).1.rank_lt ho hc.zero fun hstop => (hc.stopping hstop).2
  -- a rotation goes round the loop without leaving its place
  · by_cases hne : s'.calls t = s.calls t
    · rw [hne, hloop]
      exact Call.rank_closeRound ho hc.zero hr
    · exact (hstep.closeStep hin hne).1.rank_lt ho hc.zero fun hstop => (hc.stopping hstop).2

/-- What stops the worker, and what closes the handle. -/
theorem Step.stop_cases {faultFree : Bool} (hstep : Step o faultFree s s') :
    (s'.handle.workerStopping = s.handle.workerStopping ∧ s'.handle.closed = s.handle.closed) ∨
      (∃ t, s.calls t = .closeSync ∧ s'.handle.closed = s.handle.closed ∧
        (s.handle.workerStopping → s'.handle.workerStopping)) ∨
      ∃ t, s.calls t = .closeJoining ∧ s.worker = .exited ∧ s'.worker = .exited ∧
        s'.handle.closed ∧ s'.handle.workerStopping = s.handle.workerStopping := by
  rcases hstep.flags_cases with
    hsame | ⟨_, -, -, -, heq⟩ | ⟨t, fault, c, -, ht, hr⟩ | ⟨t, ht, hworker, hworker', heq⟩
  · exact .inl ⟨hsame.workerStopping, hsame.closed⟩
  · exact .inl (by simp [heq])
  · obtain ⟨hclosed, ⟨-, hstop, -⟩ | ⟨-, -, hstop, -⟩⟩ := Handle.closeSyncWal_cases_stop hr
    · exact .inr (.inl ⟨t, ht, hclosed, fun _ => hstop⟩)
    · exact .inr (.inl ⟨t, ht, hclosed, fun h => hstop.trans h⟩)
  · exact .inr (.inr ⟨t, ht, hworker, hworker', by simp [heq]⟩)

/-- A worker that left its loop does not come back. -/
theorem Step.exited {faultFree : Bool} (hstep : Step o faultFree s s') (hworker : s.worker = .exited) :
    s'.worker = .exited := by
  cases hstep with
  | workerException _ _ hw =>
    rw [hworker] at hw
    cases hw
  | closeCall => split <;> exact hworker
  | write | getSnapshot | releaseSnapshot | compactCall | compactResume | compactRun | closeRound
  | closeWake | closeSync | closeJoined | next => exact hworker
  | workerExit h | workerClaim h | flushBegin _ _ h | flushBuild _ _ h | flushCommit _ _ h
  | flushRemove _ _ h | compactBegin _ _ h | compactMerge _ _ h | compactBuild _ _ h
  | compactCommit _ _ _ h | compactDrop _ _ _ h | workerAccount h =>
    exact absurd (hworker.symm.trans h) (by simp)

/-- A thread enters `Close` at the head of the loop. -/
theorem Step.entersClose {faultFree : Bool} {t : ℕ} (hstep : Step o faultFree s s')
    (hout : (s.calls t).inClose = false) (hin : (s'.calls t).inClose) :
    s'.handle.closing ∧ s'.calls t = .closeLoop := by
  have hne : s'.calls t ≠ s.calls t := by
    intro heq
    rw [heq, hout] at hin
    cases hin
  cases hstep with
  | write | getSnapshot | releaseSnapshot | workerExit | workerClaim | flushBegin | flushBuild
  | flushCommit | flushRemove | compactBegin | compactMerge | compactBuild | compactCommit
  | compactDrop | workerException | workerAccount => exact absurd rfl hne
  | compactCall | compactResume =>
    obtain rfl := update_cases hne
    simp only [setCall, Function.update_self] at hin
    split at hin <;> cases hin
  | compactRun | next =>
    obtain rfl := update_cases hne
    simp only [setCall, Function.update_self] at hin
    cases hin
  -- the only step into `Close`, where the handle is not closed
  | closeCall =>
    split at hne
    · obtain rfl := update_cases hne
      rename_i hclosed
      simp only [hclosed, if_true, setCall, Function.update_self] at hin
      cases hin
    · obtain rfl := update_cases hne
      rename_i hclosed
      simp [hclosed]
  | closeRound _ _ ht | closeSync _ _ ht | closeJoined _ _ ht =>
    obtain rfl := update_cases hne
    rw [ht] at hout
    cases hout
  | closeWake ht =>
    obtain rfl := update_cases hne
    rcases ht with ⟨ht, -⟩ | ⟨ht, -⟩ <;> rw [ht] at hout <;> cases hout

omit [EntrySize] in
/-- The step of the loop after which a thread closes found nothing to flush. -/
theorem CloseStep.drained {h h' : Handle} {w : Worker} {c : Call}
    (hstep : CloseStep o h w c h' .closeSync) : h'.Drained o := by
  cases hstep with
  | round fault hr =>
    unfold Handle.closeRound at hr
    split at hr
    · rename_i he
      cases hr
      exact .inl he
    split at hr
    · cases hr
    split at hr
    · cases hr
    rename_i hi
    split at hr
    · cases hr
    rename_i hfull
    cases hr
    exact .inr ⟨by simpa using hi, by simpa [Handle.full] using hfull⟩
  | sync fault hr =>
    obtain ⟨-, ⟨hc, -⟩ | ⟨⟨_, hc⟩, -⟩⟩ := Handle.closeSyncWal_cases_stop hr
    · cases hc
    · cases hc

omit [EntrySize] in
/-- A thread joins the worker that it has stopped. -/
theorem CloseStep.stopping {h h' : Handle} {w : Worker} {c : Call}
    (hstep : CloseStep o h w c h' .closeJoining) : h'.workerStopping := by
  cases hstep with
  | round fault hr =>
    unfold Handle.closeRound at hr
    repeat' split at hr
    all_goals cases hr
  | sync fault hr =>
    obtain ⟨-, ⟨-, hstop, -⟩ | ⟨⟨_, hc⟩, -⟩⟩ := Handle.closeSyncWal_cases_stop hr
    · exact hstop
    · cases hc

theorem Closes.step (ho : 0 < o.memtableBytes) (hstep : SettlingStep o s s') (hc : Closes o s) :
    Closes o s' := by
  have hsubsides : s.handle.closing → s.handle.Subsides o s'.handle := hstep.subsides ho hc.zero
  have hentered : ∀ t, (s'.calls t).inClose → s'.calls t ≠ .closeLoop → (s.calls t).inClose := by
    intro t hin hloop
    by_contra hout
    exact hloop (hstep.step.entersClose (by simpa using hout) hin).2
  -- where the thread was before, and by which step it came
  have hcame : ∀ t, (s'.calls t).inClose → s'.calls t ≠ .closeLoop → s'.calls t ≠ s.calls t →
      CloseStep o s.handle s.worker (s.calls t) s'.handle (s'.calls t) := fun t hin hloop hne =>
    (hstep.step.closeStep (hentered t hin hloop) hne).1
  have hstops : s.handle.workerStopping → s'.handle.workerStopping := by
    rcases hstep.step.stop_cases with ⟨heq, -⟩ | ⟨_, -, -, hstop⟩ | ⟨_, -, -, -, -, heq⟩
    · exact fun h => heq.trans h
    · exact hstop
    · exact fun h => heq.trans h
  refine ⟨hstep.step.emptyIsZero hc.zero, fun t hin => ?_, fun t ht => ?_, fun t ht => ?_,
    fun hstop => ?_, fun hclosed => ?_⟩
  -- `closing`: the thread was in `Close` before, or sets the flag as it enters
  · cases hout : (s.calls t).inClose with
    | true => exact (hsubsides (hc.closing t hout)).closing (hc.closing t hout)
    | false => exact (hstep.step.entersClose hout hin).1
  -- `sync`: the round before found nothing to flush
  · have hin : (s'.calls t).inClose := by rw [ht]; rfl
    by_cases hne : s'.calls t = s.calls t
    · have hclosing := hc.closing t (hentered t hin (by simp [ht]))
      exact (hsubsides hclosing).drained (hc.sync t (hne ▸ ht))
    · have hcame := hcame t hin (by simp [ht]) hne
      rw [ht] at hcame
      exact hcame.drained
  · have hin : (s'.calls t).inClose := by rw [ht]; rfl
    by_cases hne : s'.calls t = s.calls t
    · exact hstops (hc.joining t (hne ▸ ht))
    · have hcame := hcame t hin (by simp [ht]) hne
      rw [ht] at hcame
      exact hcame.stopping
  -- `stopping`: only the sync of the WAL behind a drained loop stops the worker
  · have hbefore : s.handle.closing ∧ s.handle.Drained o := by
      rcases hstep.step.stop_cases with ⟨heq, -⟩ | ⟨t, ht, -⟩ | ⟨_, -, -, -, -, heq⟩
      · exact hc.stopping (heq ▸ hstop)
      · exact ⟨hc.closing t (by rw [ht]; rfl), hc.sync t ht⟩
      · exact hc.stopping (heq ▸ hstop)
    have hs := hsubsides hbefore.1
    exact ⟨hs.closing hbefore.1, hs.drained hbefore.2⟩
  · rcases hstep.step.stop_cases with ⟨-, heq⟩ | ⟨_, -, heq, -⟩ | ⟨t, ht, -, hworker, -⟩
    · obtain ⟨hstop, hworker⟩ := hc.closed (heq ▸ hclosed)
      exact ⟨hstops hstop, hstep.step.exited hworker⟩
    · obtain ⟨hstop, hworker⟩ := hc.closed (heq ▸ hclosed)
      exact ⟨hstops hstop, hstep.step.exited hworker⟩
    · exact ⟨hstops (hc.joining t ht), hworker⟩

theorem Closes.of_reachable (ho : 0 < o.memtableBytes) (hs : (settling o).Reachable s) :
    Closes o s := by
  refine hs.invariant (P := Closes o) ?_ fun s s' hstep hc => hc.step ho hstep
  rintro s ⟨d, listing, sweep, h, -, hopen, rfl⟩
  obtain ⟨d', hopened⟩ := Handle.open_opened hopen
  refine ⟨Handle.open_emptyIsZero hopen, ?_, ?_, ?_, ?_, ?_⟩
  -- no thread is in `Close` when the handle is opened
  · intro t hin
    cases hin
  · intro t ht
    cases ht
  · intro t ht
    cases ht
  · intro hstop
    rw [started, hopened.workerStopping] at hstop
    cases hstop
  · intro hclosed
    rw [started, hopened.closed] at hclosed
    cases hclosed

/-! ## A thread in `Close` -/

/-- The runs from a state in which the thread is in `Close`, without another call of it. -/
def closingBy (o : Options) (t : ℕ) : TransitionSystem System where
  init s := (settling o).Reachable s ∧ (s.calls t).inClose
  step s s' := SettlingStep o s s' ∧ ((s.calls t).inClose = false → s'.calls t = s.calls t)

/-- A thread in `Close` that has not yet returned, or has closed the handle. -/
def Underway (t : ℕ) (s : System) : Prop :=
  (s.calls t).inClose ∨ (∃ status, s.calls t = .returned status) ∧ s.handle.closed

variable {t : ℕ}

omit [EntrySize] in
theorem Underway.closing (hu : s.Underway t) (hc : Closes o s) : s.handle.closing :=
  hu.elim (hc.closing t) fun hreturned => (hc.stopping (hc.closed hreturned.2).1).1

omit [EntrySize] in
theorem closeRound_inClose {h h' : Handle} {fault : Option RotateFault} {c : Call}
    (hr : h.closeRound o fault = (h', c)) : c.inClose := by
  unfold Handle.closeRound at hr
  repeat' split at hr
  all_goals
    cases hr
    rfl

omit [EntrySize] in
/-- A `Close` that is not given up ends with the handle closed. -/
theorem CloseStep.underway {h h' : Handle} {w : Worker} {c c' : Call}
    (hstep : CloseStep o h w c h' c') (hclosing : h'.closing) :
    c'.inClose ∨ (∃ status, c' = .returned status) ∧ h'.closed := by
  cases hstep with
  | round fault hr => exact .inl (closeRound_inClose hr)
  | wokenCompaction | wokenFlush => exact .inl rfl
  | sync fault hr =>
    obtain ⟨-, ⟨rfl, -⟩ | ⟨-, hgivenUp, -⟩⟩ := Handle.closeSyncWal_cases_stop hr
    · exact .inl rfl
    · rw [hgivenUp] at hclosing
      cases hclosing
  | joined fault hw hr =>
    cases hr
    exact .inr ⟨⟨_, rfl⟩, rfl⟩

theorem Underway.step (hstep : (closingBy o t).step s s') (hc : Closes o s) (hu : s.Underway t) :
    s'.Underway t := by
  obtain ⟨hstep, hstays⟩ := hstep
  rcases hu with hin | ⟨⟨status, hreturned⟩, hclosed⟩
  · by_cases hne : s'.calls t = s.calls t
    · exact .inl (hne ▸ hin)
    -- `Close` is left only by its end, as these runs do not give it up
    obtain ⟨hclose, hworker⟩ := hstep.step.closeStep hin hne
    exact hclose.underway (hstep.closing hworker (hc.closing t hin))
  · refine .inr ⟨⟨status, by rw [hstays (by rw [hreturned]; rfl), hreturned]⟩, ?_⟩
    rcases hstep.step.stop_cases with ⟨-, heq⟩ | ⟨_, -, heq, -⟩ | ⟨_, -, -, -, hdone, -⟩
    · exact heq.trans hclosed
    · exact heq.trans hclosed
    · exact hdone

end System

end TinyLsm
