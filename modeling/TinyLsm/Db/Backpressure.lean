import TinyLsm.Db.Regions
import TinyLsm.Db.Schedule

/-!
# Backpressure

The loop of `PrepareForWrite`, step by step. The loop goes on while the immutable MemTable exists
and the active one is full; the wait inside it is also over when the handle has failed or closes.
The wait releases `mutex_` only while its predicate does not hold, so a loop whose condition and
whose predicate both hold never lets another thread in.
-/

namespace TinyLsm

namespace Handle

section
variable (o : Options)

/-- The condition of the loop of `PrepareForWrite`. -/
def writeBlocked (h : Handle) : Bool :=
  h.immutable.isSome && decide (o.memtableBytes ≤ h.memtable.bytes)

theorem writeBlocked_eq_false_iff {o : Options} {h : Handle} : h.writeBlocked o = false ↔
    h.immutable = none ∨ h.memtable.bytes < o.memtableBytes := by
  simp only [writeBlocked, Bool.and_eq_false_iff, decide_eq_false_iff_not, not_le,
    Option.isSome_eq_false_iff, Option.isNone_iff_eq_none]

/-- The predicate of the wait in `PrepareForWrite`. -/
def writeWaitOver (h : Handle) : Bool :=
  h.immutable.isNone || h.terminalError.isSome || h.backgroundError.isSome || h.closing || h.closed

/-- `PrepareForWrite` behind its loop. -/
def prepared (h : Handle) (fault : Option RotateFault) : Handle × Status :=
  if h.checkOpen.ok = false then (h, h.checkOpen)
  else if h.immutable.isNone ∧ o.memtableBytes ≤ h.memtable.bytes then h.rotateMemTable fault
  else (h, .okay)

/-- The commits of a group see the loop as one wait. -/
theorem prepareForWrite_eq (h : Handle) (fault : Option RotateFault) :
    h.prepareForWrite o fault = if h.writeBlocked o then none else some (h.prepared o fault) := by
  simp only [prepareForWrite, writeBlocked, prepared, Bool.and_eq_true, decide_eq_true_eq]
  split
  · rfl
  split
  · rfl
  split <;> rfl

end

end Handle

/-- Where a writer stands in `PrepareForWrite`. -/
inductive PreparePoint where
  /-- At the condition of the loop, with the lock. -/
  | looping
  /-- In the wait, without the lock. -/
  | waiting
  | returned (status : Status)
deriving DecidableEq, Repr

/-- A handle and the writer in `PrepareForWrite`. -/
structure Preparing where
  handle : Handle
  point : PreparePoint

namespace Preparing

section
variable (o : Options) (fault : Option RotateFault)

/-- What the writer does next, once it is scheduled and can take the lock. -/
def advance (w : Preparing) : Preparing :=
  match w.point with
  | .looping =>
    if w.handle.writeBlocked o then
      -- the wait returns at once when its predicate holds
      if w.handle.writeWaitOver then w else { w with point := .waiting }
    else
      ⟨(w.handle.prepared o fault).1, .returned (w.handle.prepared o fault).2⟩
  | .waiting => if w.handle.writeWaitOver then { w with point := .looping } else w
  | .returned _ => w

/-- The writer moves; other threads move in any way while the lock is free, and otherwise touch
files only. -/
inductive Step : Preparing → Preparing → Prop
  | writer {w : Preparing} : Step w (w.advance o fault)
  | others {w : Preparing} (handle : Handle) (hpoint : w.point = .waiting) : Step w { w with handle }
  | files {w : Preparing} {handle : Handle} (h : Handle.OnlyFiles w.handle handle) :
      Step w { w with handle }

/-- `PrepareForWrite` called in any state of the handle. -/
def system : TransitionSystem Preparing where
  init w := w.point = .looping
  step := Step o fault

end

section
variable {o : Options} {fault : Option RotateFault} {w w' : Preparing}

/-- A writer that leaves its loop returns what follows it. -/
theorem advance_returns (hover : w.handle.writeWaitOver) (hpoint : ∀ status, w.point ≠ .returned status)
    (hfree : w.handle.writeBlocked o = false) :
    ∃ n ≤ 2, (advance o fault)^[n] w =
      ⟨(w.handle.prepared o fault).1, .returned (w.handle.prepared o fault).2⟩ := by
  obtain ⟨handle, point⟩ := w
  have hleave : advance o fault ⟨handle, .looping⟩ =
      ⟨(handle.prepared o fault).1, .returned (handle.prepared o fault).2⟩ := by
    simp only [advance, hfree, Bool.false_eq_true, if_false]
  cases point with
  | looping => exact ⟨1, by omega, hleave⟩
  | waiting =>
    have hwake : advance o fault ⟨handle, .waiting⟩ = ⟨handle, .looping⟩ := by
      simp only [advance, hover, if_true]
    refine ⟨2, le_rfl, ?_⟩
    rw [Function.iterate_succ_apply, hwake]
    exact hleave
  | returned status => exact (hpoint status rfl).elim

/-- The writer has the lock, and nothing it tests can change any more. -/
def Spinning (o : Options) (w : Preparing) : Prop :=
  w.point = .looping ∧ w.handle.writeWaitOver ∧ w.handle.writeBlocked o

theorem Spinning.advance (h : Spinning o w) : w.advance o fault = w := by
  obtain ⟨handle, point⟩ := w
  obtain ⟨rfl, hover, hblocked⟩ := h
  simp only [Preparing.advance, hover, hblocked, if_true]

theorem Spinning.step (h : Spinning o w) (hstep : Step o fault w w') : Spinning o w' := by
  obtain ⟨hpoint, hover, hblocked⟩ := h
  rcases hstep with _ | ⟨_, hwaiting⟩ | hfiles
  · rw [Spinning.advance ⟨hpoint, hover, hblocked⟩]
    exact ⟨hpoint, hover, hblocked⟩
  · rw [hpoint] at hwaiting
    cases hwaiting
  · obtain ⟨d, t, p, rfl⟩ := hfiles
    exact ⟨hpoint, hover, hblocked⟩

/-- While the condition and the predicate hold, the writer's own steps lead nowhere. -/
theorem iterate_advance_ne_returned (hover : w.handle.writeWaitOver)
    (hpoint : ∀ status, w.point ≠ .returned status) (hblocked : w.handle.writeBlocked o) (n : ℕ)
    (status : Status) : ((advance o fault)^[n] w).point ≠ .returned status := by
  have hstays : ((advance o fault)^[n] w).handle = w.handle ∧
      ∀ status, ((advance o fault)^[n] w).point ≠ .returned status := by
    induction n with
    | zero => exact ⟨rfl, hpoint⟩
    | succ n ih =>
      obtain ⟨hhandle, hnot⟩ := ih
      rw [Function.iterate_succ_apply']
      set w' := (advance o fault)^[n] w
      unfold advance
      split
      · rw [hhandle, if_pos hblocked, if_pos hover]
        exact ⟨hhandle, hnot⟩
      · rw [hhandle, if_pos hover]
        exact ⟨rfl, by simp⟩
      · exact ⟨hhandle, hnot⟩
  exact hstays.2 status

/-- When a blocked writer gets out. Once the predicate of its wait holds, whatever the other threads
did meanwhile, the writer returns after finitely many steps of its own exactly when the immutable
MemTable is gone or the active one is below the limit, and then with the result of what follows the
loop. Otherwise, from the moment it has the lock, it keeps it in every run. -/
theorem blocked_writer_gets_out_iff (o : Options) (fault : Option RotateFault) (w : Preparing)
    (hpoint : ∀ status, w.point ≠ .returned status) (hover : w.handle.writeWaitOver) :
    ((∃ n status, ((advance o fault)^[n] w).point = .returned status) ↔
      w.handle.immutable = none ∨ w.handle.memtable.bytes < o.memtableBytes) ∧
    (w.handle.immutable = none ∨ w.handle.memtable.bytes < o.memtableBytes →
      ∃ n ≤ 2, (advance o fault)^[n] w =
        ⟨(w.handle.prepared o fault).1, .returned (w.handle.prepared o fault).2⟩) ∧
    (¬ (w.handle.immutable = none ∨ w.handle.memtable.bytes < o.memtableBytes) →
      w.point = .looping → ∀ w', (system o fault).Run w w' → w'.point = .looping) := by
  rw [← Handle.writeBlocked_eq_false_iff]
  refine ⟨⟨?_, fun hfree => ?_⟩, advance_returns hover hpoint, fun hblocked hloop w' hrun => ?_⟩
  · rintro ⟨n, status, hreturned⟩
    by_contra hblocked
    exact iterate_advance_ne_returned hover hpoint (by simpa using hblocked) n status hreturned
  · obtain ⟨n, -, heq⟩ := @advance_returns o fault w hover hpoint hfree
    exact ⟨n, _, by rw [heq]⟩
  · have hspinning : Spinning o w := ⟨hloop, hover, by simpa using hblocked⟩
    exact (hrun.keeps (fun _ _ hstep h => h.step hstep) hspinning).1

end

/-! ## A failed flush -/

/-- A limit that every MemTable reaches. -/
def smallMemTable : Options := { memtableBytes := 1 }

/-- Two generations are full, and the worker has claimed the flush of the older one. -/
def twoGenerations : List Move :=
  [.write [WriterQueue.firstRequest], .write [WriterQueue.firstRequest], .worker []]

/-- The writer enters its wait, the flush fails, and the writer never returns. -/
theorem failed_flush_keeps_writer_looping :
    let _ := entrySize80
    ∃ s s' : System,
      System.openThen smallMemTable .empty ⟨false, []⟩ ⟨none, fun _ => false⟩ twoGenerations = some s ∧
      (System.system smallMemTable false).Run s s' ∧
      (advance smallMemTable none ⟨s.handle, .looping⟩).point = .waiting ∧
      s'.handle.backgroundError.isSome ∧ s'.handle.writeWaitOver ∧
      (∀ n status, ((advance smallMemTable none)^[n] ⟨s'.handle, .waiting⟩).point ≠
        .returned status) ∧
      ∀ w, (system smallMemTable none).Run ⟨s'.handle, .looping⟩ w → w.point = .looping := by
  intro _
  have htests : ((System.openThen smallMemTable .empty ⟨false, []⟩ ⟨none, fun _ => false⟩
      twoGenerations).map fun s => (s.handle.writeBlocked smallMemTable, s.handle.writeWaitOver,
        s.worker.isFlushing)) = some (true, false, true) := by
    decide +kernel
  obtain ⟨s, hs, htests⟩ := Option.map_eq_some_iff.mp htests
  simp only [Prod.mk.injEq] at htests
  obtain ⟨hblocked, hwaits, hflushing⟩ := htests
  let failure : Failure := ⟨.ioError "write", rfl⟩
  let s₁ : System := { s with worker := .finished s.worker.isFlushing failure.1 }
  let s₂ : System :=
    { s₁ with
      handle := s₁.handle.account smallMemTable s.worker.isFlushing failure.1, worker := .waiting }
  have hfails : (System.system smallMemTable false).step s s₁ :=
    .workerException failure rfl (by rw [hflushing]; rfl)
  have haccount : (System.system smallMemTable false).step s₁ s₂ := .workerAccount rfl
  have herror : s.handle.terminalError = none := by
    simp only [Handle.writeWaitOver, Bool.or_eq_false_iff] at hwaits
    simpa using hwaits.1.1.1.2
  have hhandle : s₂.handle.backgroundError.isSome ∧
      s₂.handle.writeBlocked smallMemTable = s.handle.writeBlocked smallMemTable := by
    simp only [s₂, s₁, Handle.account, herror, failure]
    exact ⟨rfl, rfl⟩
  obtain ⟨hbackground, hsame⟩ := hhandle
  have hover : s₂.handle.writeWaitOver := by
    simp [Handle.writeWaitOver, hbackground]
  have hspinning : Spinning smallMemTable ⟨s₂.handle, .looping⟩ :=
    ⟨rfl, hover, by rw [hsame, hblocked]⟩
  refine ⟨s, s₂, hs, .tail (.tail .refl hfails) haccount, ?_, hbackground, hover, ?_, fun w hrun => ?_⟩
  · simp [advance, hblocked, hwaits]
  · exact fun n => iterate_advance_ne_returned hover (by simp) (by rw [hsame, hblocked]) n
  · exact (hrun.keeps (fun _ _ hstep h => h.step hstep) hspinning).1

/-- The flush succeeds, and the writer rotates the MemTable. -/
theorem blocked_writer_gets_out_iff_flushed :
    let _ := entrySize80
    ∃ s : System,
      System.openThen smallMemTable .empty ⟨false, []⟩ ⟨none, fun _ => false⟩
        (twoGenerations ++ List.replicate 8 (.worker [])) = some s ∧ s.handle.writeWaitOver ∧
      ∃ n status, ((advance smallMemTable none)^[n] ⟨s.handle, .waiting⟩).point =
        .returned status := by
  intro _
  have htests : ((System.openThen smallMemTable .empty ⟨false, []⟩ ⟨none, fun _ => false⟩
      (twoGenerations ++ List.replicate 8 (.worker []))).map
        fun s => (s.handle.immutable.isNone, s.handle.writeWaitOver)) = some (true, true) := by
    decide +kernel
  obtain ⟨s, hs, htests⟩ := Option.map_eq_some_iff.mp htests
  simp only [Prod.mk.injEq, Option.isNone_iff_eq_none] at htests
  exact ⟨s, hs, htests.2, (blocked_writer_gets_out_iff smallMemTable none ⟨s.handle, .waiting⟩
    (by simp) htests.2).1.mpr (.inl htests.1)⟩

end Preparing

end TinyLsm
