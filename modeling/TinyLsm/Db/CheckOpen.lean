import TinyLsm.Db.Regions

/-!
# What `CheckOpen` reads

`closing_`, `closed_` and `worker_stopping_` are written in three places of `Close`; everything else
that a thread or the worker does leaves them alone. The sticky errors are only ever set to failures,
so that `CheckOpen` passes exactly in an open handle without one.
-/

namespace TinyLsm

/-! ## The flags of `Close` -/

namespace Handle

/-- The flags that `Close` writes are the same. -/
structure SameFlags (h h' : Handle) : Prop where
  closed : h'.closed = h.closed
  closing : h'.closing = h.closing
  workerStopping : h'.workerStopping = h.workerStopping

namespace SameFlags

variable {o : Options} {h h' h'' : Handle}

theorem refl (h : Handle) : h.SameFlags h := ⟨rfl, rfl, rfl⟩

theorem trans (hh : h.SameFlags h') (hh' : h'.SameFlags h'') : h.SameFlags h'' :=
  ⟨hh'.1.trans hh.1, hh'.2.trans hh.2, hh'.3.trans hh.3⟩

theorem onlyFiles (hfiles : h.OnlyFiles h') : h.SameFlags h' := by
  obtain ⟨d, t, p, rfl⟩ := hfiles
  exact ⟨rfl, rfl, rfl⟩

theorem rotate {fault : Option RotateFault} {status : Status}
    (hr : h.rotateMemTable fault = (h', status)) : h.SameFlags h' := by
  rcases rotateMemTable_cases hr with ⟨hwal, -⟩ | ⟨rfl, -⟩ | ⟨rfl, -⟩
  · exact onlyFiles hwal.onlyFiles
  · exact (onlyFiles h.onlyFiles_withWal).trans ⟨rfl, rfl, rfl⟩
  · obtain ⟨d, t, heq⟩ := h.rotated_eq
    rw [heq]
    exact ⟨rfl, rfl, rfl⟩

theorem applyWriteGroup [EntrySize] {group : List WriterRequest} {f : WriteFaults} {status : Status}
    (hr : h.applyWriteGroup o group f = some (h', status)) : h.SameFlags h' :=
  applyWriteGroup_keeps (h.SameFlags ·) (fun h₁ op _ hs => hs.trans (onlyFiles (.perform h₁ op)))
    (fun _ _ _ _ hs => ⟨hs.1, hs.2, hs.3⟩) (fun _ _ _ _ hrotate hs => hs.trans (rotate hrotate)) hr
    (.refl h)

theorem claim (h : Handle) : h.SameFlags h.claim.1 := by
  simp only [Handle.claim]
  split
  · exact ⟨rfl, rfl, rfl⟩
  · split <;> exact ⟨rfl, rfl, rfl⟩

theorem account (h : Handle) (flush : Bool) (status : Status) :
    h.SameFlags (h.account o flush status) := by
  simp only [Handle.account]
  repeat' split
  all_goals exact ⟨rfl, rfl, rfl⟩

theorem commitFlush {job : FlushJob} {out : Output} {fault : Option PublishFault} {status : Status}
    (hr : h.commitFlush o job out fault = (h', status)) : h.SameFlags h' := by
  rcases commitFlush_cases hr with ⟨rfl, -⟩ | ⟨rfl, -⟩ | ⟨rfl, -⟩
  all_goals exact ⟨rfl, rfl, rfl⟩

theorem beginCompaction {fault : Option PublishFault} {r : Except Status CompactionJob}
    (hr : h.beginBackgroundCompaction o fault = (h', r)) : h.SameFlags h' := by
  rcases beginBackgroundCompaction_cases hr with ⟨rfl, -⟩ | ⟨_, rfl, -⟩ | ⟨rfl, -⟩
  all_goals exact ⟨rfl, rfl, rfl⟩

theorem commitCompaction {job : CompactionJob} {replacement : Option Output}
    {fault : Option PublishFault} {fails : FileName → Bool} {status : Status}
    (hr : h.commitCompaction job replacement fault fails = (h', status)) : h.SameFlags h' := by
  rcases commitCompaction_cases hr with ⟨rfl, -⟩ | ⟨rfl, -⟩ | ⟨rfl, -⟩
  · exact .refl _
  · exact ⟨rfl, rfl, rfl⟩
  · obtain ⟨d, t, p, heq⟩ := h.installCompaction_eq (compactedManifest h.manifest job replacement)
      job replacement fails
    rw [heq]
    exact ⟨rfl, rfl, rfl⟩

theorem compactTablePrefix {inputCount : ℕ} {f : CompactFaults} {status : Status}
    (hr : h.compactTablePrefix o inputCount f = (h', status)) : h.SameFlags h' :=
  compactTablePrefix_keeps (h.SameFlags ·) (fun _ _ hfiles hs => hs.trans (onlyFiles hfiles))
    (fun _ _ _ _ _ _ _ hcommit hs => hs.trans (commitCompaction hcommit)) hr (.refl h)

theorem closeRound {fault : Option RotateFault} {c : Call} (hr : h.closeRound o fault = (h', c)) :
    h.SameFlags h' := by
  unfold Handle.closeRound at hr
  split at hr
  · cases hr
    exact .refl h
  split at hr
  · cases hr
    exact .refl h
  split at hr
  · cases hr
    exact ⟨rfl, rfl, rfl⟩
  split at hr
  · rcases hrotate : h.rotateMemTable fault with ⟨h₁, s₁⟩
    have hs := rotate hrotate
    rw [hrotate] at hr
    cases hr
    split <;> exact ⟨hs.1, hs.2, hs.3⟩
  · cases hr
    exact .refl h

end SameFlags

/-- `Close` behind its loop stops the worker, or is given up when the sync of the WAL fails. -/
theorem closeSyncWal_cases_stop {o : Options} {h h' : Handle} {fault : Option Failure} {c : Call}
    (hr : h.closeSyncWal o fault = (h', c)) :
    h'.closed = h.closed ∧ ((c = .closeJoining ∧ h'.workerStopping ∧ h'.closing = h.closing) ∨
      (∃ status, c = .returned status) ∧ h'.closing = false ∧
        h'.workerStopping = h.workerStopping ∧ fault ≠ none) := by
  unfold closeSyncWal at hr
  split at hr
  · split at hr
    · cases hr
      exact ⟨rfl, .inr ⟨⟨_, rfl⟩, rfl, rfl, by simp⟩⟩
    · cases hr
      exact ⟨rfl, .inl ⟨rfl, rfl, rfl⟩⟩
  · cases hr
    exact ⟨rfl, .inl ⟨rfl, rfl, rfl⟩⟩

end Handle

namespace System

variable [EntrySize] {o : Options} {faultFree : Bool} {s s' : System}

/-- The flags change where a `Close` begins, behind its loop, and where it ends. -/
theorem Step.flags_cases (hstep : Step o faultFree s s') :
    s.handle.SameFlags s'.handle ∨
    (∃ t, s.calls t = .idle ∧ s'.calls t = .closeLoop ∧ s.handle.closed = false ∧
      s'.handle = { s.handle with closing := true, compactionRequested := false }) ∨
    (∃ t fault c, (faultFree → fault = none) ∧ s.calls t = .closeSync ∧
      s.handle.closeSyncWal o fault = (s'.handle, c)) ∨
    ∃ t, s.calls t = .closeJoining ∧ s.worker = .exited ∧ s'.worker = .exited ∧
      s'.handle = { s.handle with closed := true } := by
  cases hstep with
  | write f _ happly => exact .inl (.applyWriteGroup happly)
  | getSnapshot | releaseSnapshot | workerExit | compactMerge | workerException | compactCall
  | compactResume | closeWake | next => exact .inl ⟨rfl, rfl, rfl⟩
  | workerClaim => exact .inl (.claim _)
  | flushBegin sweep _ _ hr => exact .inl (.onlyFiles (Handle.beginFlush_cases hr).1)
  | flushBuild fault _ _ hphase hr => exact .inl (.onlyFiles (.buildStep (by simp) hphase hr))
  | flushCommit fault _ _ hr => exact .inl (.commitFlush hr)
  | flushRemove fails => exact .inl (.onlyFiles (.bestEffortRemove _ _ _))
  | compactBegin fault _ _ hr => exact .inl (.beginCompaction hr)
  | compactBuild fault _ _ hphase hr =>
    exact .inl (.onlyFiles (.buildStep Handle.compactionChecked_error hphase hr))
  | compactCommit fault fails _ _ hr | compactDrop fault fails _ _ hr =>
    exact .inl (.commitCompaction hr)
  | workerAccount => exact .inl (.account _ _ _)
  | compactRun f _ _ hr => exact .inl (.compactTablePrefix hr)
  | @closeCall t ht =>
    split
    · exact .inl ⟨rfl, rfl, rfl⟩
    · rename_i hclosed
      rw [Bool.not_eq_true] at hclosed
      exact .inr (.inl ⟨t, ht, Function.update_self _ _ _, hclosed, rfl⟩)
  | closeRound fault _ _ hr => exact .inl (.closeRound hr)
  | @closeSync t _ c fault hf ht hr => exact .inr (.inr (.inl ⟨t, fault, c, hf, ht, hr⟩))
  | @closeJoined t _ _ fault _ ht hworker hr =>
    cases hr
    exact .inr (.inr (.inr ⟨t, ht, hworker, hworker, rfl⟩))

end System

/-! ## The sticky errors -/

namespace Handle

/-- The sticky errors are failures. -/
structure ErrorsFail (h : Handle) : Prop where
  terminal : ∀ status, h.terminalError = some status → status.ok = false
  background : ∀ status, h.backgroundError = some status → status.ok = false

/-- `CheckOpen` passes in an open handle without a sticky error. -/
theorem ErrorsFail.checkOpen_ok_iff {h : Handle} (he : h.ErrorsFail) :
    h.checkOpen.ok ↔ h.closed = false ∧ h.closing = false ∧ h.hasError = false := by
  unfold checkOpen hasError
  cases hclosed : h.closed with
  | true => simp
  | false =>
    cases hclosing : h.closing with
    | true => simp
    | false =>
      cases hterminal : h.terminalError with
      | some status => simp [he.terminal status hterminal]
      | none =>
        cases hbackground : h.backgroundError with
        | some status => simp [he.background status hbackground]
        | none => simp

namespace ErrorsFail

variable {o : Options} {h h' : Handle}

theorem of_eq (he : h.ErrorsFail) (hterminal : h'.terminalError = h.terminalError)
    (hbackground : h'.backgroundError = h.backgroundError) : h'.ErrorsFail :=
  ⟨fun s hs => he.terminal s (hterminal ▸ hs), fun s hs => he.background s (hbackground ▸ hs)⟩

theorem onlyFiles (hfiles : h.OnlyFiles h') (he : h.ErrorsFail) : h'.ErrorsFail := by
  obtain ⟨d, t, p, rfl⟩ := hfiles
  exact he.of_eq rfl rfl

theorem setTerminal {status : Status} (hfail : status.ok = false) (he : h.ErrorsFail) :
    { h with terminalError := some status }.ErrorsFail :=
  ⟨fun _ hs => Option.some.inj hs ▸ hfail, he.background⟩

theorem setBackground {status : Status} (hfail : status.ok = false) (he : h.ErrorsFail) :
    { h with backgroundError := some status }.ErrorsFail :=
  ⟨he.terminal, fun _ hs => Option.some.inj hs ▸ hfail⟩

theorem rotate {fault : Option RotateFault} {status : Status}
    (hr : h.rotateMemTable fault = (h', status)) (he : h.ErrorsFail) : h'.ErrorsFail := by
  rcases rotateMemTable_cases hr with ⟨hwal, -⟩ | ⟨rfl, hfail, -⟩ | ⟨rfl, -⟩
  · exact he.onlyFiles hwal.onlyFiles
  · exact (he.onlyFiles (h.onlyFiles_withWal.trans (.perform _ _))).setTerminal hfail
  · obtain ⟨d, t, heq⟩ := h.rotated_eq
    rw [heq]
    exact he.of_eq rfl rfl

theorem applyWriteGroup [EntrySize] {group : List WriterRequest} {f : WriteFaults} {status : Status}
    (hr : h.applyWriteGroup o group f = some (h', status)) (he : h.ErrorsFail) : h'.ErrorsFail :=
  applyWriteGroup_keeps ErrorsFail (fun h₁ op _ he => he.onlyFiles (.perform h₁ op))
    (fun _ _ _ _ he => he.of_eq rfl rfl) (fun _ _ _ _ hrotate he => he.rotate hrotate) hr he

theorem claim (he : h.ErrorsFail) : h.claim.1.ErrorsFail := by
  simp only [Handle.claim]
  split
  · exact he.of_eq rfl rfl
  · split <;> exact he.of_eq rfl rfl

theorem account (he : h.ErrorsFail) (flush : Bool) (status : Status) :
    (h.account o flush status).ErrorsFail := by
  simp only [Handle.account]
  split
  · rename_i hfail
    split
    · exact he.of_eq rfl rfl
    · have hidle : { h with flushRunning := false, compactionRunning := false }.ErrorsFail :=
        he.of_eq rfl rfl
      exact hidle.setBackground (by simpa using hfail)
  · split <;> exact he.of_eq rfl rfl

theorem commitFlush {job : FlushJob} {out : Output} {fault : Option PublishFault} {status : Status}
    (hr : h.commitFlush o job out fault = (h', status)) (he : h.ErrorsFail) : h'.ErrorsFail := by
  rcases commitFlush_cases hr with ⟨rfl, -⟩ | ⟨rfl, hfail, -⟩ | ⟨rfl, -⟩
  · exact he
  · exact (he.onlyFiles (.perform h _)).setTerminal hfail
  · exact he.of_eq rfl rfl

theorem beginCompaction {fault : Option PublishFault} {r : Except Status CompactionJob}
    (hr : h.beginBackgroundCompaction o fault = (h', r)) (he : h.ErrorsFail) : h'.ErrorsFail := by
  rcases beginBackgroundCompaction_cases hr with ⟨rfl, -⟩ | ⟨_, rfl, -, hfail, -⟩ | ⟨rfl, -⟩
  · exact he
  · exact (he.onlyFiles (.perform h _)).setTerminal hfail
  · exact he.of_eq rfl rfl

theorem commitCompaction {job : CompactionJob} {replacement : Option Output}
    {fault : Option PublishFault} {fails : FileName → Bool} {status : Status}
    (hr : h.commitCompaction job replacement fault fails = (h', status)) (he : h.ErrorsFail) :
    h'.ErrorsFail := by
  rcases commitCompaction_cases hr with ⟨rfl, -⟩ | ⟨rfl, hfail, -⟩ | ⟨rfl, -⟩
  · exact he
  · exact (he.onlyFiles (.perform h _)).setTerminal hfail
  · obtain ⟨d, t, p, heq⟩ := h.installCompaction_eq (compactedManifest h.manifest job replacement)
      job replacement fails
    rw [heq]
    exact he.of_eq rfl rfl

theorem closeRound {fault : Option RotateFault} {c : Call} (hr : h.closeRound o fault = (h', c))
    (he : h.ErrorsFail) : h'.ErrorsFail := by
  unfold Handle.closeRound at hr
  split at hr
  · cases hr
    exact he
  split at hr
  · cases hr
    exact he
  split at hr
  · cases hr
    exact he.of_eq rfl rfl
  split at hr
  · rcases hrotate : h.rotateMemTable fault with ⟨h₁, s₁⟩
    have hrotated := he.rotate hrotate
    rw [hrotate] at hr
    cases hr
    split
    · exact hrotated
    · rename_i hfail
      exact hrotated.setBackground (by simpa using hfail)
  · cases hr
    exact he

theorem closeSyncWal {fault : Option Failure} {c : Call} (hr : h.closeSyncWal o fault = (h', c))
    (he : h.ErrorsFail) : h'.ErrorsFail := by
  unfold Handle.closeSyncWal at hr
  split at hr
  · split at hr
    all_goals
      cases hr
      exact he.of_eq rfl rfl
  · cases hr
    exact he.of_eq rfl rfl

theorem step [EntrySize] {faultFree : Bool} {s s' : System} (hstep : System.Step o faultFree s s')
    (he : s.handle.ErrorsFail) : s'.handle.ErrorsFail := by
  cases hstep with
  | write f _ happly => exact he.applyWriteGroup happly
  | getSnapshot | releaseSnapshot => exact he.of_eq rfl rfl
  | workerExit | compactMerge | workerException | compactCall | compactResume | closeWake | next =>
    exact he
  | workerClaim => exact he.claim
  | flushBegin sweep _ _ hr => exact he.onlyFiles (beginFlush_cases hr).1
  | flushBuild fault _ _ hphase hr => exact he.onlyFiles (.buildStep (by simp) hphase hr)
  | flushCommit fault _ _ hr => exact he.commitFlush hr
  | flushRemove fails => exact he.onlyFiles (.bestEffortRemove _ _ _)
  | compactBegin fault _ _ hr => exact he.beginCompaction hr
  | compactBuild fault _ _ hphase hr =>
    exact he.onlyFiles (.buildStep compactionChecked_error hphase hr)
  | compactCommit fault fails _ _ hr | compactDrop fault fails _ _ hr =>
    exact he.commitCompaction hr
  | workerAccount => exact he.account _ _
  | compactRun f _ _ hr =>
    exact compactTablePrefix_keeps ErrorsFail (fun _ _ hfiles he => he.onlyFiles hfiles)
      (fun _ _ _ _ _ _ _ hcommit he => he.commitCompaction hcommit) hr he
  | closeCall => split <;> exact he.of_eq rfl rfl
  | closeRound fault _ _ hr => exact he.closeRound hr
  | closeSync fault _ _ hr => exact he.closeSyncWal hr
  | closeJoined fault _ _ _ hr =>
    cases hr
    exact he.of_eq rfl rfl

theorem opened [EntrySize] {d : Directory} {listing : Listing} {sweep : SweepFaults}
    (hopen : Handle.open o d listing sweep = .ok h) : h.ErrorsFail := by
  obtain ⟨d', hopened⟩ := open_opened hopen
  exact ⟨by simp [hopened.terminalError], by simp [hopened.backgroundError]⟩

end ErrorsFail

end Handle

end TinyLsm
