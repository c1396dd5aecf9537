import TinyLsm.Db.Recovery

/-!
# Schedules

Runs without failures, given by the order in which the threads move. A move is executable, so that
a concrete run can be evaluated.
-/

namespace TinyLsm

/-- Which thread moves. -/
inductive Move where
  | write (group : List WriterRequest)
  /-- The worker; `listed` is what a sweep sees of the directory. -/
  | worker (listed : List FileName)
  /-- Thread `t` calls `Compact`. -/
  | compact (t : ℕ)
  /-- Thread `t` calls `Close`. -/
  | close (t : ℕ)
  /-- Thread `t` goes on in its call. -/
  | call (t : ℕ) (listed : List FileName)

namespace System

section
variable [EntrySize] (o : Options)

/-- The next step of the worker. -/
def moveWorker (s : System) (sweep : SweepFaults) : Option System :=
  match s.worker with
  | .waiting =>
    if s.handle.workerStopping then some { s with worker := .exited }
    else if s.handle.flushRequested || s.handle.compactionRequested then
      some { s with handle := s.handle.claim.1, worker := s.handle.claim.2 }
    else none
  | .claimed true =>
    let r := s.handle.beginFlush sweep
    some { s with handle := r.1, worker := continued true (.flushing · .create) r.2 }
  | .claimed false =>
    let r := s.handle.beginBackgroundCompaction o none
    some { s with handle := r.1, worker := continued false .merging r.2 }
  | .flushing job (.ready out) =>
    let r := s.handle.commitFlush o job out none
    some { s with
      handle := r.1
      worker := if r.2.ok then .removingWal job.immutableWal else .finished true r.2 }
  | .flushing job phase =>
    let r := s.handle.buildStep o flushContext (fun _ => none) job.tableNumber job.entries none phase
    some { s with handle := r.1, worker := continued true (.flushing job) r.2 }
  | .removingWal number =>
    some { s with
      handle := s.handle.bestEffortRemove (.wal number) false
      worker := .finished true .okay }
  | .merging job =>
    some { s with
      worker :=
        match mergedEntries job.tables with
        | .error status => .finished false status
        | .ok merged =>
          let entries := retainEntries job.coversAll (oldestSnapshot s.handle.snapshots) none false
            merged
          if entries = [] then .dropping job else .compacting job entries .create }
  | .compacting job _ (.ready out) =>
    let r := s.handle.commitCompaction job (some out) none fun _ => false
    some { s with handle := r.1, worker := .finished false r.2 }
  | .compacting job entries phase =>
    let r := s.handle.buildStep o compactionContext compactionChecked job.number entries none phase
    some { s with handle := r.1, worker := continued false (.compacting job entries) r.2 }
  | .dropping job =>
    let r := s.handle.commitCompaction job none none fun _ => false
    some { s with handle := r.1, worker := .finished false r.2 }
  | .finished flush status =>
    some { s with handle := s.handle.account o flush status, worker := .waiting }
  | .exited => none

/-- The next step of a call. -/
def moveCall (s : System) (t : ℕ) (sweep : SweepFaults) : Option System :=
  match s.calls t with
  | .idle => none
  | .compactWaiting =>
    if s.handle.workWaitOver then
      some (s.setCall t (if s.handle.checkOpen.ok then .compactReady s.handle.tables.length
        else .returned s.handle.checkOpen))
    else none
  | .compactReady inputCount =>
    let r := s.handle.compactTablePrefix o inputCount { sweep := sweep }
    some { s with handle := r.1, calls := Function.update s.calls t (.returned r.2) }
  | .closeLoop =>
    let r := s.handle.closeRound o none
    some { s with handle := r.1, calls := Function.update s.calls t r.2 }
  | .closeWaitCompaction =>
    if s.handle.compactionRunning = false ∨ s.handle.hasError then some (s.setCall t .closeLoop)
    else none
  | .closeWaitFlush => if s.handle.flushWaitOver then some (s.setCall t .closeLoop) else none
  | .closeSync =>
    let r := s.handle.closeSyncWal o none
    some { s with handle := r.1, calls := Function.update s.calls t r.2 }
  | .closeJoining =>
    match s.worker with
    | .exited =>
      let r := s.handle.closeDone none
      some { s with handle := r.1, calls := Function.update s.calls t (.returned r.2) }
    | _ => none
  | .returned _ => some (s.setCall t .idle)

/-- One move. -/
def move (s : System) : Move → Option System
  | .write group => (s.handle.applyWriteGroup o group {}).map fun r => { s with handle := r.1 }
  | .worker listed => s.moveWorker o ⟨some listed, fun _ => false⟩
  | .compact t =>
    match s.calls t with
    | .idle => some (s.setCall t
        (if s.handle.checkOpen.ok then .compactWaiting else .returned s.handle.checkOpen))
    | _ => none
  | .close t =>
    match s.calls t with
    | .idle => some (if s.handle.closed then
          s.setCall t (.returned (.alreadyClosed "database is closed"))
        else { s with
          handle := { s.handle with closing := true, compactionRequested := false }
          calls := Function.update s.calls t .closeLoop })
    | _ => none
  | .call t listed => s.moveCall o t ⟨some listed, fun _ => false⟩

/-- A run of moves. -/
def moves (s : System) : List Move → Option System
  | [] => some s
  | m :: ms => (s.move o m).bind fun s => s.moves ms

variable {o} {s s' : System} {faultFree : Bool}

theorem moveWorker_step {listed : List FileName}
    (h : s.moveWorker o ⟨some listed, fun _ => false⟩ = some s') : Step o faultFree s s' := by
  unfold moveWorker at h
  split at h
  · rename_i hworker
    split at h
    · rename_i hstop
      exact Option.some.inj h ▸ .workerExit hworker hstop
    · rename_i hstop
      split at h
      · rename_i hrequest
        exact Option.some.inj h ▸ .workerClaim hworker (by simpa using hstop) hrequest
      · cases h
  · rename_i hworker
    exact Option.some.inj h ▸ .flushBegin ⟨some listed, fun _ => false⟩ (fun _ => rfl) hworker rfl
  · rename_i hworker
    exact Option.some.inj h ▸ .compactBegin none (fun _ => rfl) hworker rfl
  · rename_i job out hworker
    exact Option.some.inj h ▸ .flushCommit none (fun _ => rfl) hworker rfl
  · rename_i job phase hphase hworker
    exact Option.some.inj h ▸ .flushBuild none (fun _ => rfl) hworker hphase rfl
  · rename_i hworker
    exact Option.some.inj h ▸ .flushRemove false (fun _ => rfl) hworker
  · rename_i job hworker
    have hmerge : Step o faultFree s _ := .compactMerge none (fun _ => rfl) hworker
    rw [← Option.some.inj h]
    cases hmerged : mergedEntries job.tables with
    | error status => simpa only [hmerged] using hmerge
    | ok merged => simpa only [hmerged] using hmerge
  · rename_i hworker
    exact Option.some.inj h ▸ .compactCommit none _ (fun _ => ⟨rfl, rfl⟩) hworker rfl
  · rename_i job entries phase hphase hworker
    exact Option.some.inj h ▸ .compactBuild none (fun _ => rfl) hworker hphase rfl
  · rename_i hworker
    exact Option.some.inj h ▸ .compactDrop none _ (fun _ => ⟨rfl, rfl⟩) hworker rfl
  · rename_i hworker
    exact Option.some.inj h ▸ .workerAccount hworker
  · cases h

theorem moveCall_step {t : ℕ} {listed : List FileName}
    (h : s.moveCall o t ⟨some listed, fun _ => false⟩ = some s') : Step o faultFree s s' := by
  unfold moveCall at h
  split at h
  · cases h
  · rename_i ht
    split at h
    · rename_i hwait
      exact Option.some.inj h ▸ .compactResume ht hwait
    · cases h
  · rename_i ht
    exact Option.some.inj h ▸ .compactRun { sweep := ⟨some listed, fun _ => false⟩ }
      (fun _ => ⟨rfl, rfl, rfl, rfl, rfl, rfl, rfl, rfl, rfl⟩) ht rfl
  · rename_i ht
    exact Option.some.inj h ▸ .closeRound none (fun _ => rfl) ht rfl
  · rename_i ht
    split at h
    · rename_i hwait
      exact Option.some.inj h ▸ .closeWake (.inl ⟨ht, hwait⟩)
    · cases h
  · rename_i ht
    split at h
    · rename_i hwait
      exact Option.some.inj h ▸ .closeWake (.inr ⟨ht, hwait⟩)
    · cases h
  · rename_i ht
    exact Option.some.inj h ▸ .closeSync none (fun _ => rfl) ht rfl
  · rename_i ht
    split at h
    · rename_i hworker
      exact Option.some.inj h ▸ .closeJoined none (fun _ => rfl) ht hworker rfl
    · cases h
  · rename_i ht
    exact Option.some.inj h ▸ .next ht

omit [EntrySize] in
theorem moveWorker_calls {sweep : SweepFaults} (h : s.moveWorker o sweep = some s') :
    s'.calls = s.calls := by
  unfold moveWorker at h
  repeat' split at h
  all_goals cases h
  all_goals rfl

omit [EntrySize] in
/-- A call in progress goes on, and the others stand still. -/
theorem moveCall_calls {t t' : ℕ} {sweep : SweepFaults} (h : s.moveCall o t' sweep = some s') :
    s.calls t' ≠ .idle ∧ (t ≠ t' → s'.calls t = s.calls t) := by
  unfold moveCall at h
  split at h
  · cases h
  all_goals
    rename_i ht
    refine ⟨by simp [ht], fun hne => ?_⟩
    try split at h
    all_goals cases h
    try exact Function.update_of_ne hne _ _

/-- A move changes the call of at most one thread. -/
theorem move_calls {m : Move} {t : ℕ} (h : s.move o m = some s') : s'.calls t = s.calls t ∨
    (m = .compact t ∧ s.calls t = .idle ∧ s'.calls t ≠ .closeLoop) ∨
    (m = .close t ∧ s.calls t = .idle) ∨ ∃ listed, m = .call t listed ∧ s.calls t ≠ .idle := by
  cases m with
  | write group =>
    obtain ⟨r, -, rfl⟩ := Option.map_eq_some_iff.mp h
    exact .inl rfl
  | worker listed => exact .inl (congrFun (moveWorker_calls h) t)
  | compact t' =>
    simp only [move] at h
    split at h
    · rename_i ht
      cases h
      by_cases hne : t = t'
      · subst hne
        refine .inr (.inl ⟨rfl, ht, ?_⟩)
        show Function.update s.calls t _ t ≠ .closeLoop
        rw [Function.update_self]
        split <;> simp
      · exact .inl (Function.update_of_ne hne _ _)
    · cases h
  | close t' =>
    simp only [move] at h
    split at h
    · rename_i ht
      cases h
      by_cases hne : t = t'
      · subst hne
        exact .inr (.inr (.inl ⟨rfl, ht⟩))
      · refine .inl ?_
        split <;> exact Function.update_of_ne hne _ _
    · cases h
  | call t' listed =>
    obtain ⟨hidle, hothers⟩ := moveCall_calls (t := t) h
    by_cases hne : t = t'
    · subst hne
      exact .inr (.inr (.inr ⟨listed, rfl, hidle⟩))
    · exact .inl (hothers hne)

/-- A move is a step, whether or not file operations may fail. -/
theorem move_step {m : Move} (h : s.move o m = some s') : Step o faultFree s s' := by
  cases m with
  | write group =>
    obtain ⟨⟨h', status⟩, happly, rfl⟩ := Option.map_eq_some_iff.mp h
    exact .write {} (fun _ => rfl) happly
  | worker listed => exact moveWorker_step h
  | compact t =>
    simp only [move] at h
    split at h
    · rename_i ht
      exact Option.some.inj h ▸ .compactCall ht
    · cases h
  | close t =>
    simp only [move] at h
    split at h
    · rename_i ht
      exact Option.some.inj h ▸ .closeCall ht
    · cases h
  | call t listed => exact moveCall_step h

theorem moves_run {ms : List Move} (h : s.moves o ms = some s') :
    (system o faultFree).Run s s' := by
  induction ms generalizing s with
  | nil =>
    obtain rfl := Option.some.inj h
    exact .refl
  | cons m ms ih =>
    obtain ⟨s₁, hmove, hrest⟩ := Option.bind_eq_some_iff.mp h
    exact .head (move_step hmove) (ih hrest)

/-- `Open`, then a schedule. -/
def openThen (o : Options) (d : Directory) (listing : Listing) (sweep : SweepFaults)
    (ms : List Move) : Option System :=
  match Handle.open o d listing sweep with
  | .error _ => none
  | .ok h => (started h).moves o ms

theorem openThen_eq_some {d : Directory} {listing : Listing} {sweep : SweepFaults} {ms : List Move}
    (h : openThen o d listing sweep ms = some s) :
    ∃ h₀, Handle.open o d listing sweep = .ok h₀ ∧ (started h₀).moves o ms = some s := by
  unfold openThen at h
  split at h
  · cases h
  · exact ⟨_, ‹_›, h⟩

end

end System

end TinyLsm
