import TinyLsm.Db.Closing
import TinyLsm.Db.Openable
import TinyLsm.Db.StickyErrors

/-!
# A single client

A client that makes one call at a time, beside the background worker. Between the wait of its
`Compact` and the sweep nothing is requested of the worker, so that the worker has no output under
way then: the runs of a single client are quiet, and all that is proved of these holds of them.
-/

namespace TinyLsm

namespace System

section
variable [EntrySize] {o : Options} {faultFree : Bool} {s s' : System}

/-- A step of thread 0 or of the worker, without failing file operations. While the thread is in a
call, only the call and the worker go on. -/
structure ClientStep (o : Options) (s s' : System) : Prop where
  step : Step o true s s'
  alone : ∀ t, t ≠ 0 → s'.calls t = s.calls t
  oneAtATime : s.calls 0 = .idle ∨ s.WorkerMoves s' ∨ s'.calls 0 ≠ s.calls 0

/-- The runs of a handle that a single client uses. -/
def client (o : Options) : TransitionSystem System where
  init := (system o true).init
  step := ClientStep o

/-- The worker is between two jobs and stays there: it is gone, or nothing is requested. -/
def Resting (s : System) : Prop :=
  s.worker = .exited ∨ s.worker = .waiting ∧ s.handle.flushRequested = false ∧
    s.handle.compactionRequested = false

omit [EntrySize] in
theorem Resting.renamed (hr : s.Resting) : s.worker.renamed? = none := by
  rcases hr with hworker | ⟨hworker, -⟩ <;> rw [hworker] <;> rfl

omit [EntrySize] in
theorem Resting.not_exposed (hr : s.Resting) : s.worker.exposed = false := by
  rcases hr with hworker | ⟨hworker, -⟩ <;> rw [hworker] <;> rfl

/-- A resting worker can only leave its loop. -/
theorem Step.exited_of_resting (hstep : Step o faultFree s s') (hr : s.Resting)
    (hmoves : s.WorkerMoves s') : s'.worker = .exited := by
  rcases hr with hexited | ⟨hwaiting, hflush, hcompact⟩
  · exact hstep.exited hexited
  have hquiet : ¬(s.handle.flushRequested || s.handle.compactionRequested) := by
    simp [hflush, hcompact]
  obtain hne | ⟨-, hrequest, -⟩ := hmoves
  · cases hstep with
    | workerExit => rfl
    | workerClaim _ _ hrequest => exact absurd hrequest hquiet
    | flushBegin _ _ hworker | flushBuild _ _ hworker | flushCommit _ _ hworker
    | flushRemove _ _ hworker | compactBegin _ _ hworker | compactMerge _ _ hworker
    | compactBuild _ _ hworker | compactCommit _ _ _ hworker | compactDrop _ _ _ hworker
    | workerAccount hworker => exact absurd (hwaiting.symm.trans hworker) (by simp)
    | workerException _ _ hworker =>
      rw [hwaiting] at hworker
      cases hworker
    | closeCall =>
      split at hne
      · exact absurd rfl hne
      · exact absurd rfl hne
    | write | getSnapshot | releaseSnapshot | compactCall | compactResume | compactRun | closeRound
    | closeWake | closeSync | closeJoined | next => exact absurd rfl hne
  · exact absurd hrequest hquiet

/-- A call of `Compact` comes to its sweep from the wait for the worker. -/
theorem Step.ready_cases {t inputCount : ℕ} (hstep : Step o faultFree s s')
    (hready : s'.calls t = .compactReady inputCount) (hne : s'.calls t ≠ s.calls t) :
    s.handle.workWaitOver ∧ s.handle.checkOpen.ok ∧ s'.handle = s.handle ∧
      s'.worker = s.worker := by
  cases hstep with
  | write | getSnapshot | releaseSnapshot | workerExit | workerClaim | flushBegin | flushBuild
  | flushCommit | flushRemove | compactBegin | compactMerge | compactBuild | compactCommit
  | compactDrop | workerException | workerAccount => exact absurd rfl hne
  | compactResume ht hwait =>
    obtain rfl := update_cases hne
    simp only [setCall, Function.update_self] at hready
    split at hready
    · rename_i hopen
      exact ⟨hwait, hopen, rfl, rfl⟩
    · cases hready
  | closeCall =>
    split at hne
    · obtain rfl := update_cases hne
      rename_i hclosed
      simp [hclosed, setCall] at hready
    · obtain rfl := update_cases hne
      rename_i hclosed
      simp [hclosed] at hready
  | closeRound fault _ ht hr =>
    obtain rfl := update_cases hne
    simp only [Function.update_self] at hready
    have hin := closeRound_inClose hr
    rw [hready] at hin
    cases hin
  | closeSync fault _ ht hr =>
    obtain rfl := update_cases hne
    simp only [Function.update_self] at hready
    obtain ⟨-, ⟨rfl, -⟩ | ⟨⟨_, rfl⟩, -⟩⟩ := Handle.closeSyncWal_cases_stop hr
    · cases hready
    · cases hready
  | compactCall =>
    obtain rfl := update_cases hne
    simp only [setCall, Function.update_self] at hready
    split at hready <;> cases hready
  | compactRun | closeWake | closeJoined | next =>
    obtain rfl := update_cases hne
    simp [setCall] at hready

/-- Without failing file operations a `Close` is not given up. -/
theorem Step.closing_of_faultFree (hstep : Step o true s s') (hclosing : s.handle.closing) :
    s'.handle.closing := by
  rcases hstep.flags_cases with
    hsame | ⟨_, -, -, -, heq⟩ | ⟨t, fault, c, hf, -, hr⟩ | ⟨_, -, -, -, heq⟩
  · exact hsame.closing.trans hclosing
  · rw [heq]
  · obtain ⟨-, ⟨-, -, hsame⟩ | ⟨-, -, -, hfault⟩⟩ := Handle.closeSyncWal_cases_stop hr
    · exact hsame.trans hclosing
    · exact absurd (hf rfl) hfault
  · rw [heq]
    exact hclosing

/-! ## Runs -/

/-- What the runs of a single client keep. -/
structure Alone (s : System) : Prop where
  others : ∀ t, t ≠ 0 → s.calls t = .idle
  pending : FlushPending s.handle s.worker
  errors : s.handle.ErrorsFail
  closing : ∀ t, (s.calls t).inClose → s.handle.closing
  stopping : s.handle.workerStopping → s.handle.closing
  resting : ∀ inputCount, s.calls 0 = .compactReady inputCount → s.Resting

omit [EntrySize] in
/-- The wait of `Compact` ends, in a handle that stays open, when the worker has nothing to do. -/
theorem Alone.resting_of_wait (ha : s.Alone) (hwait : s.handle.workWaitOver)
    (hopen : s.handle.checkOpen.ok) : s.Resting := by
  obtain ⟨-, hclosing, herror⟩ := ha.errors.checkOpen_ok_iff.mp hopen
  have hstop : s.handle.workerStopping = false := by
    by_contra hstop
    rw [Bool.not_eq_false] at hstop
    exact absurd (ha.stopping hstop) (by simp [hclosing])
  simp only [Handle.workWaitOver, herror, hstop, Bool.or_false, Bool.and_eq_true,
    Bool.not_eq_true'] at hwait
  obtain ⟨⟨⟨⟨-, hflush⟩, hcompact⟩, hflushRequested⟩, hcompactRequested⟩ := hwait
  rw [ha.pending.flushRunning] at hflush
  rw [ha.pending.compactionRunning] at hcompact
  cases hworker : s.worker with
  | waiting => exact .inr ⟨hworker, hflushRequested, hcompactRequested⟩
  | exited => exact .inl hworker
  | claimed flush | finished flush status =>
    rw [hworker] at hflush hcompact
    simp only [Worker.isFlushing, Worker.isCompacting] at hflush hcompact
    simp [hflush] at hcompact
  | flushing job phase | removingWal number =>
    rw [hworker] at hflush
    cases hflush
  | merging job | compacting job entries phase | dropping job =>
    rw [hworker] at hcompact
    cases hcompact

theorem Alone.step (hstep : ClientStep o s s') (ha : s.Alone) : s'.Alone := by
  obtain ⟨hstep, halone, honce⟩ := hstep
  refine ⟨fun t ht => (halone t ht).trans (ha.others t ht), ha.pending.step hstep,
    ha.errors.step hstep, fun t hin => ?_, fun hstop => ?_, fun inputCount hready => ?_⟩
  · cases hout : (s.calls t).inClose with
    | true => exact hstep.closing_of_faultFree (ha.closing t hout)
    | false => exact (hstep.entersClose hout hin).1
  -- `worker_stopping_` is set behind the loop of `Close`
  · rcases hstep.flags_cases with hsame | ⟨_, -, -, -, heq⟩ | ⟨t, _, _, -, ht, -⟩ | ⟨t, ht, -⟩
    · exact hstep.closing_of_faultFree (ha.stopping (hsame.workerStopping ▸ hstop))
    · rw [heq]
    · exact hstep.closing_of_faultFree (ha.closing t (by rw [ht]; rfl))
    · exact hstep.closing_of_faultFree (ha.closing t (by rw [ht]; rfl))
  -- the sweep is reached from the wait, and behind the wait only the worker can move
  · by_cases hne : s'.calls 0 = s.calls 0
    · have hbefore := ha.resting inputCount (hne ▸ hready)
      obtain hidle | hmoves | hcalls := honce
      · rw [hne, hidle] at hready
        cases hready
      · exact .inl (hstep.exited_of_resting hbefore hmoves)
      · exact absurd hne hcalls
    · obtain ⟨hwait, hopen, hhandle, hworker⟩ := hstep.ready_cases hready hne
      have hresting := ha.resting_of_wait hwait hopen
      unfold Resting at hresting ⊢
      rwa [hhandle, hworker]

theorem Alone.opened {d : Directory} {listing : Listing} {sweep : SweepFaults} {h : Handle}
    (hopen : Handle.open o d listing sweep = .ok h) : (started h).Alone := by
  obtain ⟨d', hopened⟩ := Handle.open_opened hopen
  refine ⟨fun _ _ => rfl, .opened hopen, .opened hopen, ?_, ?_, ?_⟩
  · intro t hin
    cases hin
  · intro hstop
    rw [started, hopened.workerStopping] at hstop
    cases hstop
  · intro inputCount hready
    cases hready

theorem Alone.quietStep (hstep : ClientStep o s s') (ha : s.Alone) : QuietStep o s s' := by
  refine ⟨hstep.step, fun t inputCount status hready _ _ => ?_⟩
  by_cases ht : t = 0
  · subst ht
    exact (ha.resting inputCount hready).renamed
  · rw [ha.others t ht] at hready
    cases hready

/-- The runs of a single client are quiet, and its `Compact` starts beside no job of the worker. -/
theorem single_client_keeps_apart {d : Directory} {listing : Listing} {sweep : SweepFaults}
    {h : Handle} (hopen : Handle.open o d listing sweep = .ok h)
    (hrun : (client o).Run (started h) s) :
    (quiet o).Run (started h) s ∧
      ∀ inputCount, s.calls 0 = .compactReady inputCount → s.worker.exposed = false := by
  have hruns : (quiet o).Run (started h) s ∧ s.Alone := by
    induction hrun with
    | refl => exact ⟨.refl, .opened hopen⟩
    | tail _ hstep ih => exact ⟨ih.1.tail (ih.2.quietStep hstep), ih.2.step hstep⟩
  exact ⟨hruns.1, fun inputCount hready => (hruns.2.resting inputCount hready).not_exposed⟩

end

end System

section
variable [EntrySize] {o : Options} {d : Directory} {listing : Listing} {sweep : SweepFaults}
  {h : Handle} {s : System}

/-- What a single client does behind `Open` is a part of a life. -/
theorem Life.exists_running_of_client {log : List InternalEntry}
    (hopen : Handle.open o d listing sweep = .ok h)
    (hrun : (System.client o).Run (System.started h) s) :
    ∃ g : History, g.system = s ∧
      (transitions o).Run (.running ⟨d, ⟨System.started h, log, []⟩, []⟩) (.running ⟨d, g, []⟩) :=
  exists_running (l := ⟨d, ⟨System.started h, log, []⟩, []⟩) rfl
    (System.single_client_keeps_apart hopen hrun).1

/-- Whatever a crash leaves of what a single client does, `Open` finds what the handle had. -/
theorem single_client_reopens (ho : o.Accepted) (hroom : o.HasRoom) (hd : d.Written)
    (hfails : sweep.fails = fun _ => false) (hopen : Handle.open o d listing sweep = .ok h)
    (hrun : (System.client o).Run (System.started h) s) {c : Crash} {d' : Directory}
    (hcrash : c.Survivable o d) (hleaves : c.Leaves d s.handle.trace d') (listing' : Listing)
    (sweep' : SweepFaults) :
    ∃ h', Handle.open o d' listing' sweep' = .ok h' ∧ h'.manifest = s.handle.manifest ∧
      h'.tables = s.handle.tables ∧ h'.memtable = s.handle.memtable ∧
      h'.immutable = s.handle.immutable ∧ h'.nextSequence = s.handle.nextSequence := by
  have hquiet := (System.single_client_keeps_apart hopen hrun).1
  obtain ⟨g, rfl, hi⟩ := Live.Inv.of_run ho hroom hd hfails hopen hquiet
  exact hi.open_eq_ok rfl hcrash hleaves listing' sweep'

end

end TinyLsm
