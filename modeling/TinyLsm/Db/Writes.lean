import TinyLsm.Db.Regions

/-!
# What the commit of a write group does

How far `ApplyWriteGroup` gets: nothing is logged, a part of the record is, all of it is and the
sync fails, or the record is logged and the group goes into the MemTable.
-/

namespace TinyLsm

namespace Handle

/-- `PrepareForWrite` refuses, rotates a full MemTable, or finds room in it. -/
theorem prepareForWrite_cases {o : Options} {h h' : Handle} {fault : Option RotateFault}
    {status : Status} (hr : h.prepareForWrite o fault = some (h', status)) :
    (h' = h ∧ status = h.checkOpen ∧ h.checkOpen.ok = false) ∨
    (h.checkOpen.ok ∧ h.immutable = none ∧ o.memtableBytes ≤ h.memtable.bytes ∧
      h.rotateMemTable fault = (h', status)) ∨
    (h' = h ∧ status = .okay ∧ h.checkOpen.ok ∧ h.memtable.bytes < o.memtableBytes) := by
  unfold prepareForWrite at hr
  split at hr
  · cases hr
  rename_i hblocked
  split at hr
  · rename_i hfail
    cases hr
    exact .inl ⟨rfl, rfl, hfail⟩
  rename_i hopen
  rw [Bool.not_eq_false] at hopen
  split at hr
  · rename_i hfull
    exact .inr (.inl ⟨hopen, Option.isNone_iff_eq_none.mp hfull.1, hfull.2, Option.some.inj hr⟩)
  · rename_i hroom
    cases hr
    refine .inr (.inr ⟨rfl, rfl, hopen, ?_⟩)
    by_contra hle
    cases himmutable : h.immutable with
    | none => exact hroom ⟨by simp [himmutable], not_lt.mp hle⟩
    | some m => exact hblocked ⟨by simp [himmutable], not_lt.mp hle⟩

/-- What a rotation keeps, `PrepareForWrite` keeps. -/
theorem prepareForWrite_keeps {o : Options} (P : Handle → Prop) {h h' : Handle}
    {fault : Option RotateFault} {status : Status}
    (hrotate : h.rotateMemTable fault = (h', status) → P h')
    (hr : h.prepareForWrite o fault = some (h', status)) (hP : P h) : P h' := by
  rcases prepareForWrite_cases hr with ⟨rfl, -⟩ | ⟨-, -, -, hr⟩ | ⟨rfl, -⟩
  · exact hP
  · exact hrotate hr
  · exact hP

/-- The record is in the active WAL, and synced if writes are. -/
def logged (o : Options) (h : Handle) (bytes : Bytes) : Handle :=
  if o.syncOnWrite then
    (h.perform (.append (.wal h.manifest.activeWalNumber) bytes)).perform
      (.sync (.wal h.manifest.activeWalNumber))
  else h.perform (.append (.wal h.manifest.activeWalNumber) bytes)

theorem onlyFiles_logged (o : Options) (h : Handle) (bytes : Bytes) :
    OnlyFiles h (h.logged o bytes) := by
  unfold logged
  split
  · exact (OnlyFiles.perform h _).trans (.perform _ _)
  · exact .perform h _

section
variable [EntrySize]

/-- How far `ApplyWriteGroup` gets. -/
inductive WritesTo (o : Options) (h : Handle) (group : List WriterRequest) (f : WriteFaults) :
    Handle → Status → Prop
  | empty (hgroup : group = []) : WritesTo o h group f h .okay
  | refused {h₁ s₁ status} (hprepare : h.prepareForWrite o f.rotateBefore = some (h₁, s₁))
      (hfail : status.ok = false) : WritesTo o h group f h₁ status
  | torn {h₁ s₁ bytes written status} (hprepare : h.prepareForWrite o f.rotateBefore = some (h₁, s₁))
      (hok : s₁.ok)
      (hencode : encodeWalBatch (groupEntries h₁.nextSequence group) o.limits = .ok bytes)
      (hfault : f.append ≠ none) (hfail : status.ok = false) :
      WritesTo o h group f
        (h₁.perform (.append (.wal h₁.manifest.activeWalNumber) (bytes.take written))) status
  | unsynced {h₁ s₁ bytes status} (hprepare : h.prepareForWrite o f.rotateBefore = some (h₁, s₁))
      (hok : s₁.ok)
      (hencode : encodeWalBatch (groupEntries h₁.nextSequence group) o.limits = .ok bytes)
      (hsync : o.syncOnWrite) (hfault : f.sync ≠ none) (hfail : status.ok = false) :
      WritesTo o h group f (h₁.perform (.append (.wal h₁.manifest.activeWalNumber) bytes)) status
  | stored {h₁ s₁ bytes h' status} (hprepare : h.prepareForWrite o f.rotateBefore = some (h₁, s₁))
      (hok : s₁.ok)
      (hencode : encodeWalBatch (groupEntries h₁.nextSequence group) o.limits = .ok bytes)
      (hspace : h₁.nextSequence < 2 ^ 64 →
        h₁.nextSequence + (groupEntries h₁.nextSequence group).length < 2 ^ 64)
      (hstore : (h₁.logged o bytes).storeEntries o (groupEntries h₁.nextSequence group) f.rotateAfter =
        (h', status)) : WritesTo o h group f h' status

variable {o : Options} {h h' : Handle} {group : List WriterRequest} {f : WriteFaults}
  {status : Status}

theorem writesTo_of_commitGroup {h₁ : Handle} {s₁ : Status}
    (hprepare : h.prepareForWrite o f.rotateBefore = some (h₁, s₁)) (hok : s₁.ok)
    (hr : h₁.commitGroup o group f = (h', status)) : WritesTo o h group f h' status := by
  unfold commitGroup at hr
  split at hr
  · rename_i s hcount
    cases hr
    exact .refused hprepare (countGroup_error hcount)
  rename_i count hcount
  split at hr
  · cases hr
    exact .refused hprepare rfl
  rename_i hspace
  rw [countGroup_eq_ok hcount, Nat.zero_add] at hspace
  have hfits : h₁.nextSequence < 2 ^ 64 →
      h₁.nextSequence + (groupEntries h₁.nextSequence group).length < 2 ^ 64 := by
    rw [groupEntries, length_assignSequences]
    omega
  dsimp only [appendBatch] at hr
  cases hencode : encodeWalBatch (groupEntries h₁.nextSequence group) o.limits with
  | error s =>
    rw [hencode] at hr
    have hfail := encodeWalBatch_error hencode
    simp only [hfail, if_true] at hr
    cases hr
    exact .refused hprepare hfail
  | ok bytes =>
    rw [hencode] at hr
    dsimp only at hr
    rcases happend : f.append with _ | ⟨s, written⟩
    · simp only [happend, Status.ok_okay, Bool.true_eq_false, if_false] at hr
      by_cases hsync : o.syncOnWrite
      · rw [if_pos hsync] at hr
        rcases hfault : f.sync with _ | s
        · rw [hfault] at hr
          refine .stored hprepare hok hencode hfits ?_
          rw [logged, if_pos hsync]
          exact hr
        · rw [hfault] at hr
          cases hr
          exact .unsynced hprepare hok hencode hsync (by simp [hfault]) s.2
      · rw [if_neg hsync] at hr
        refine .stored hprepare hok hencode hfits ?_
        rw [logged, if_neg hsync]
        exact hr
    · simp only [happend, s.2, if_true] at hr
      cases hr
      exact .torn hprepare hok hencode (by simp [happend]) s.2

theorem applyWriteGroup_writesTo (hr : h.applyWriteGroup o group f = some (h', status)) :
    WritesTo o h group f h' status := by
  unfold applyWriteGroup at hr
  split at hr
  · rename_i hgroup
    cases hr
    exact .empty hgroup
  split at hr
  · cases hr
  rename_i h₁ s₁ hprepare
  split at hr
  · rename_i hfail
    cases hr
    exact .refused hprepare hfail
  · rename_i hok
    exact writesTo_of_commitGroup hprepare (by simpa using hok) (Option.some.inj hr)

/-- What logging, storing and a rotation keep, a commit without failures keeps. -/
theorem applyWriteGroup_rule (P : Handle → Prop) (hlog : ∀ h bytes, P h → P (h.logged o bytes))
    (hstore : ∀ (h : Handle) m n, P h → P { h with memtable := m, nextSequence := n })
    (hrotate : ∀ (h h' : Handle) status, h.rotateMemTable none = (h', status) → P h → P h')
    (hr : h.applyWriteGroup o group {} = some (h', status)) (hP : P h) : P h' := by
  have hprepared : ∀ {h₁ s₁}, h.prepareForWrite o none = some (h₁, s₁) → P h₁ := fun hprepare =>
    prepareForWrite_keeps P (fun hr => hrotate _ _ _ hr hP) hprepare hP
  cases applyWriteGroup_writesTo hr with
  | empty => exact hP
  | refused hprepare => exact hprepared hprepare
  | torn _ _ _ hfault => exact absurd rfl hfault
  | unsynced _ _ _ _ hfault => exact absurd rfl hfault
  | @stored h₁ s₁ bytes _ _ hprepare hok hencode hspace hwritten =>
    have hlogged := hlog h₁ bytes (hprepared hprepare)
    simp only [Handle.storeEntries] at hwritten
    split at hwritten
    · cases hwritten
      exact hstore _ _ _ hlogged
    split at hwritten
    · exact hrotate _ _ _ hwritten (hstore _ _ _ hlogged)
    · cases hwritten
      exact hstore _ _ _ hlogged

end

end Handle

end TinyLsm
