import TinyLsm.Db.Layers
import TinyLsm.Db.Lifetime
import TinyLsm.Db.PublishCalls

/-!
# The space of sequences

`next_sequence_` only grows, and never past 64 bits: a write group is refused before it would, and
so is the recovery of a log that ends there. No Manifest of a run names a larger last sequence, so that
the next handle starts below it again.
-/

namespace TinyLsm

/-! ## Recovery -/

section
variable {limits : DecodeLimits}

theorem lastSequence_lt {es : List InternalEntry} {previous : ℕ}
    (hes : ∀ e ∈ es, e.sequence < 2 ^ 64) (hprevious : previous < 2 ^ 64) :
    lastSequence es previous < 2 ^ 64 := by
  unfold lastSequence
  split
  · rename_i e he
    exact hes e (List.mem_of_getLast? he)
  · exact hprevious

theorem replayLoop_lt {σ : Type} {apply : σ → List InternalEntry → Result σ} {fuel : ℕ}
    {rest : Bytes} {previous : ℕ} {result result' : WalReplayResult} {t t' : σ}
    (h : replayLoop apply limits fuel rest previous result t = .ok (result', t'))
    (hprevious : previous < 2 ^ 64) (hresult : result.maxSequence < 2 ^ 64) :
    result'.maxSequence < 2 ^ 64 := by
  induction fuel generalizing rest previous result t with
  | zero =>
    cases h
    exact hresult
  | succ fuel ih =>
    simp only [replayLoop] at h
    split at h
    · cases h
      exact hresult
    split at h
    · cases h
      exact hresult
    split at h
    · cases h
    split at h
    · cases h
    split at h
    · cases h
      exact hresult
    split at h
    · cases h
    rename_i es hframe
    split at h
    · cases h
    obtain ⟨-, -, -, hlt, -⟩ := decodeFrame_eq_ok hframe
    have hlast := lastSequence_lt hlt hprevious
    exact ih h hlast hlast

end

namespace Handle

section
variable [EntrySize] {o : Options} {h h' : Handle}

theorem recoverWal_lt {number floor recoveredMax : ℕ} {m : MemTable}
    (hr : h.recoverWal o number floor = .ok (h', recoveredMax, m)) (hfloor : floor < 2 ^ 64) :
    recoveredMax < 2 ^ 64 := by
  unfold recoverWal at hr
  split at hr
  · cases hr
  split at hr
  · cases hr
  rename_i result target hreplay
  cases hr
  exact max_lt hfloor (replayLoop_lt hreplay hfloor (by decide))

theorem recoverActive_lt {floor : ℕ} (hr : h.recoverActive o floor = .ok h')
    (hfloor : floor < 2 ^ 64) : h'.nextSequence < 2 ^ 64 := by
  unfold recoverActive at hr
  split at hr
  · cases hr
  rename_i hwal
  split at hr
  · cases hr
  cases hr
  have hlt := recoverWal_lt hwal hfloor
  simp only
  omega

theorem recoverWals_lt (hr : h.recoverWals o = .ok h') (hlast : h.manifest.lastSequence < 2 ^ 64) :
    h'.nextSequence < 2 ^ 64 := by
  unfold recoverWals at hr
  split at hr
  · exact recoverActive_lt hr hlast
  split at hr
  · cases hr
  rename_i hwal
  split at hr
  · cases hr
  · exact recoverActive_lt hr (recoverWal_lt hwal hlast)

end

end Handle

/-! ## Regions -/

namespace Handle

/-- The sequence counter and the snapshots stay. -/
def SameReads (h h' : Handle) : Prop :=
  h'.nextSequence = h.nextSequence ∧ h'.snapshots = h.snapshots

variable {o : Options} {h h' h'' : Handle}

theorem SameReads.trans (hh : h.SameReads h') (hh' : h'.SameReads h'') : h.SameReads h'' :=
  ⟨hh'.1.trans hh.1, hh'.2.trans hh.2⟩

theorem OnlyFiles.sameReads (hh : h.OnlyFiles h') : h.SameReads h' := by
  obtain ⟨d, t, p, rfl⟩ := hh
  exact ⟨rfl, rfl⟩

theorem OnlyFlags.sameReads (hh : h.OnlyFlags h') : h.SameReads h' := by
  obtain ⟨e, c₁, c₂, r₁, r₂, f₁, f₂, k, rfl⟩ := hh
  exact ⟨rfl, rfl⟩

theorem sameReads_rotate {fault : Option RotateFault} {status : Status}
    (hr : h.rotateMemTable fault = (h', status)) : h.SameReads h' := by
  rcases rotateMemTable_cases hr with ⟨hwal, -⟩ | ⟨rfl, -⟩ | ⟨rfl, -⟩
  · exact hwal.onlyFiles.sameReads
  · have hprepared := h.onlyFiles_withWal.sameReads
    exact hprepared
  · obtain ⟨d, t, heq⟩ := h.rotated_eq
    rw [heq]
    exact ⟨rfl, rfl⟩

theorem sameReads_commitFlush {job : FlushJob} {out : Output} {fault : Option PublishFault}
    {status : Status} (hr : h.commitFlush o job out fault = (h', status)) : h.SameReads h' := by
  rcases commitFlush_cases hr with ⟨rfl, -⟩ | ⟨rfl, -⟩ | ⟨rfl, -⟩
  · exact ⟨rfl, rfl⟩
  · exact ⟨rfl, rfl⟩
  · exact ⟨rfl, rfl⟩

theorem sameReads_beginCompaction {fault : Option PublishFault} {r : Except Status CompactionJob}
    (hr : h.beginBackgroundCompaction o fault = (h', r)) : h.SameReads h' := by
  rcases beginBackgroundCompaction_cases hr with ⟨rfl, -⟩ | ⟨status, rfl, -⟩ | ⟨rfl, -⟩
  · exact ⟨rfl, rfl⟩
  · exact ⟨rfl, rfl⟩
  · exact ⟨rfl, rfl⟩

theorem sameReads_commitCompaction {job : CompactionJob} {replacement : Option Output}
    {fault : Option PublishFault} {fails : FileName → Bool} {status : Status}
    (hr : h.commitCompaction job replacement fault fails = (h', status)) : h.SameReads h' := by
  rcases commitCompaction_cases hr with ⟨rfl, -⟩ | ⟨rfl, -⟩ | ⟨rfl, -⟩
  · exact ⟨rfl, rfl⟩
  · exact ⟨rfl, rfl⟩
  · obtain ⟨d, t, p, heq⟩ := h.installCompaction_eq (compactedManifest h.manifest job replacement)
      job replacement fails
    rw [heq]
    exact ⟨rfl, rfl⟩

theorem sameReads_compactTablePrefix {inputCount : ℕ} {f : CompactFaults} {status : Status}
    (hr : h.compactTablePrefix o inputCount f = (h', status)) : h.SameReads h' :=
  compactTablePrefix_keeps (h.SameReads ·) (fun _ _ hfiles hs => hs.trans hfiles.sameReads)
    (fun _ _ _ _ _ _ _ hc hs => hs.trans (sameReads_commitCompaction hc)) hr ⟨rfl, rfl⟩

/-- A write moves the counter up, within 64 bits. -/
theorem applyWriteGroup_reads [EntrySize] {group : List WriterRequest} {f : WriteFaults}
    {status : Status} (hr : h.applyWriteGroup o group f = some (h', status)) :
    h.nextSequence ≤ h'.nextSequence ∧ (h.nextSequence < 2 ^ 64 → h'.nextSequence < 2 ^ 64) ∧
      h'.snapshots = h.snapshots := by
  refine applyWriteGroup_keeps (fun h₁ => h.nextSequence ≤ h₁.nextSequence ∧
    (h.nextSequence < 2 ^ 64 → h₁.nextSequence < 2 ^ 64) ∧ h₁.snapshots = h.snapshots)
    (fun _ _ _ hP => hP) ?_ ?_ hr ⟨le_rfl, id, rfl⟩
  · rintro h₁ m n ⟨ops, rfl, hspace, -⟩ ⟨hle, hlt, hsnapshots⟩
    exact ⟨hle.trans (Nat.le_add_right _ _), fun hn => hspace (hlt hn), hsnapshots⟩
  · rintro h₁ h₂ fault s₁ hrotate ⟨hle, hlt, hsnapshots⟩
    obtain ⟨hnext, hsame⟩ := sameReads_rotate hrotate
    exact ⟨hnext ▸ hle, hnext ▸ hlt, hsame.trans hsnapshots⟩

end Handle

section
variable [EntrySize] {o : Options} {faultFree : Bool} {s s' : System}

/-- A write issues sequences, and the snapshots come and go; every other step leaves both. -/
theorem System.Step.reads_cases (hstep : System.Step o faultFree s s') :
    s.handle.SameReads s'.handle ∨
    (∃ group f h status, (faultFree → f = {}) ∧
      s.handle.applyWriteGroup o group f = some (h, status) ∧ s' = { s with handle := h }) ∨
    (s.handle.checkOpen.ok ∧ s' = { s with
      handle := { s.handle with snapshots := (s.handle.nextSequence - 1) :: s.handle.snapshots } }) ∨
    ∃ sequence, s' = { s with
      handle := { s.handle with snapshots := s.handle.snapshots.erase sequence } } := by
  cases hstep with
  | write f hf happly => exact .inr (.inl ⟨_, f, _, _, hf, happly, rfl⟩)
  | getSnapshot hopen => exact .inr (.inr (.inl ⟨hopen, rfl⟩))
  | releaseSnapshot sequence => exact .inr (.inr (.inr ⟨sequence, rfl⟩))
  | workerExit | workerException | compactMerge => exact .inl ⟨rfl, rfl⟩
  | workerClaim => exact .inl (Handle.OnlyFlags.claim _).sameReads
  | flushBegin sweep _ _ hr => exact .inl (Handle.beginFlush_cases hr).1.sameReads
  | flushBuild fault _ _ hphase hr =>
    exact .inl (Handle.OnlyFiles.buildStep (by simp) hphase hr).sameReads
  | flushCommit fault _ _ hr => exact .inl (Handle.sameReads_commitFlush hr)
  | flushRemove fails => exact .inl (Handle.OnlyFiles.bestEffortRemove _ _ _).sameReads
  | compactBegin fault _ _ hr => exact .inl (Handle.sameReads_beginCompaction hr)
  | compactBuild fault _ _ hphase hr =>
    exact .inl (Handle.OnlyFiles.buildStep Handle.compactionChecked_error hphase hr).sameReads
  | compactCommit fault fails _ _ hr => exact .inl (Handle.sameReads_commitCompaction hr)
  | compactDrop fault fails _ _ hr => exact .inl (Handle.sameReads_commitCompaction hr)
  | workerAccount => exact .inl (Handle.OnlyFlags.account _ _ _).sameReads
  | compactCall | compactResume | closeWake | next => exact .inl ⟨rfl, rfl⟩
  | compactRun f _ _ hr => exact .inl (Handle.sameReads_compactTablePrefix hr)
  | closeCall =>
    refine .inl ?_
    split
    · exact ⟨rfl, rfl⟩
    · exact ⟨rfl, rfl⟩
  | closeRound fault _ _ hr =>
    rcases Handle.closeRound_cases hr with hflags | ⟨h₁, status, hrotate, hflags⟩
    · exact .inl hflags.sameReads
    · exact .inl ((Handle.sameReads_rotate hrotate).trans hflags.sameReads)
  | closeSync fault _ _ hr =>
    rcases Handle.closeSyncWal_cases hr with hflags | hflags
    · exact .inl hflags.sameReads
    · exact .inl ((Handle.OnlyFiles.perform s.handle _).sameReads.trans hflags.sameReads)
  | closeJoined fault _ _ _ hr =>
    cases hr
    exact .inl ⟨rfl, rfl⟩

/-- A write may move the counter up, within 64 bits; nothing else moves it. -/
theorem System.Step.nextSequence (hstep : System.Step o faultFree s s') :
    s.handle.nextSequence ≤ s'.handle.nextSequence ∧
      (s.handle.nextSequence < 2 ^ 64 → s'.handle.nextSequence < 2 ^ 64) := by
  rcases hstep.reads_cases with hsame | ⟨group, f, h, status, -, happly, rfl⟩ | ⟨-, rfl⟩ | ⟨q, rfl⟩
  · exact ⟨hsame.1.ge, fun hlt => hsame.1.trans_lt hlt⟩
  · obtain ⟨hle, hlt, -⟩ := Handle.applyWriteGroup_reads happly
    exact ⟨hle, hlt⟩
  · exact ⟨le_rfl, id⟩
  · exact ⟨le_rfl, id⟩

/-! ## The Manifests of a run -/

omit [EntrySize] in
theorem Handle.lastSequence_rotate {h h' : Handle} {fault : Option RotateFault} {status : Status}
    (hr : h.rotateMemTable fault = (h', status)) :
    h'.manifest.lastSequence = h.manifest.lastSequence := by
  rcases Handle.rotateMemTable_cases hr with ⟨hwal, -⟩ | ⟨rfl, -⟩ | ⟨rfl, -⟩
  · obtain ⟨d, t, p, rfl⟩ := hwal.onlyFiles
    rfl
  · rfl
  · rfl

/-- No region hands over a Manifest whose last sequence was not issued. -/
theorem System.Publishes.lastSequence_lt {next : ManifestSnapshot} (hp : s.Publishes o next)
    (hl : Layered o s.handle s.worker) : next.lastSequence < s.handle.nextSequence := by
  cases hp with
  | rotateBefore _ _ hnext =>
    rw [hnext.next_eq]
    exact hl.next
  | @rotateBehind group f h₁ _ bytes memtable hprepare _ _ _ _ hnext =>
    have hlast : h₁.manifest.lastSequence = s.handle.manifest.lastSequence :=
      Handle.prepareForWrite_keeps (·.manifest.lastSequence = s.handle.manifest.lastSequence)
        Handle.lastSequence_rotate hprepare rfl
    have hlogged : (h₁.logged o bytes).manifest = h₁.manifest := by
      obtain ⟨d, t, p, heq⟩ := h₁.onlyFiles_logged o bytes
      rw [heq]
    rw [hnext.next_eq]
    show (h₁.logged o bytes).manifest.lastSequence < _
    rw [hlogged, hlast]
    exact hl.next
  | rotateClose _ hnext =>
    rw [hnext.next_eq]
    exact hl.next
  | flush hworker hnext =>
    rw [hworker] at hl
    obtain ⟨⟨m, hm, hentries⟩, hbuild, -⟩ := hl.output
    obtain ⟨hne, hmax⟩ := buildTable_maxSequence hbuild
    obtain ⟨-, e, he, hsequence⟩ := exists_minSequenceOf hne
    obtain ⟨-, hlt, -⟩ := hl.sealed m hm e (hentries ▸ he)
    rw [hnext.next_eq, Handle.flushedManifest, hmax, ← hsequence]
    exact hlt
  | reserve _ hnext =>
    rw [hnext.next_eq]
    exact hl.next
  | compact _ hnext =>
    rw [hnext.next_eq]
    exact hl.next
  | drop _ hnext =>
    rw [hnext.next_eq]
    exact hl.next
  | @explicit t inputCount f h job replacement _ hreach hnext =>
    have hfiles : s.handle.OnlyFiles h := by
      cases hreach with
      | drop _ hsweep =>
        rw [hsweep]
        exact .cleanupObsoleteFiles _ _ _
      | build _ hsweep _ hbuild =>
        rw [hsweep] at hbuild
        exact (Handle.OnlyFiles.cleanupObsoleteFiles _ _ _).trans (.buildOutput hbuild)
    obtain ⟨d, t, p, rfl⟩ := hfiles
    rw [hnext.next_eq]
    cases replacement <;> exact hl.next

end

/-! ## Lifetimes -/

/-- The Manifests that were published name sequences of 64 bits. -/
def Handle.PublishedLt (h : Handle) : Prop :=
  ∀ m, DirOp.publish m ∈ h.trace → m.lastSequence < 2 ^ 64

namespace Handle

section
variable [EntrySize] {o : Options} {h h' : Handle}

/-- Recovery of the WALs publishes nothing. -/
theorem recoverWal_publishes {number floor recoveredMax : ℕ} {m : MemTable}
    (hr : h.recoverWal o number floor = .ok (h', recoveredMax, m)) :
    PublishesOnly (fun _ => False) h h' := by
  rcases (recoverWal_cases hr).2 with rfl | ⟨size, rfl⟩
  · exact .refl h'
  · exact .perform (by simp)

theorem recoverActive_publishes {floor : ℕ} (hr : h.recoverActive o floor = .ok h') :
    PublishesOnly (fun _ => False) h h' := by
  unfold recoverActive at hr
  split at hr
  · cases hr
  rename_i hwal
  split at hr
  · cases hr
  cases hr
  exact (recoverWal_publishes hwal).trans (.of_eq rfl)

theorem recoverWals_publishes (hr : h.recoverWals o = .ok h') :
    PublishesOnly (fun _ => False) h h' := by
  unfold recoverWals at hr
  split at hr
  · exact recoverActive_publishes hr
  split at hr
  · cases hr
  rename_i hwal
  split at hr
  · cases hr
  · have hsealed := recoverWal_publishes hwal
    have hactive := recoverActive_publishes hr
    exact hsealed.trans fun m hm => hactive m hm

theorem recover_publishes {sweep : SweepFaults} (hr : h.recover o sweep = .ok h') :
    PublishesOnly (fun _ => False) h h' := by
  unfold recover at hr
  split at hr
  · cases hr
  rename_i h₁ htables
  split at hr
  · cases hr
  rename_i h₂ hwals
  unfold openManifestSSTables at htables
  split at htables
  · cases htables
  cases htables
  cases hr
  have hrecovered := (PublishesOnly.of_eq rfl).trans (recoverWals_publishes hwals)
  have hswept : PublishesOnly (fun _ => False) h₂
      (h₂.cleanupObsoleteFiles sweep.listed sweep.fails) := .cleanupObsoleteFiles _ _ _
  exact (hrecovered.trans hswept).trans (.of_eq rfl)

/-- `Open` publishes the initial Manifest at most. -/
theorem open_publishes {d : Directory} {listing : Listing} {sweep : SweepFaults}
    (hopen : Handle.open o d listing sweep = .ok h) :
    ∀ m, DirOp.publish m ∈ h.trace → m = initialManifest := by
  obtain ⟨m, -, ⟨-, hrecover⟩ | ⟨-, rfl, h₁, hcreate, hrecover, hblank⟩⟩ := open_eq_ok hopen
  · intro m' hm'
    rcases recover_publishes hrecover m' hm' with hmem | hfalse
    · cases hmem
    · exact hfalse.elim
  · intro m hm
    rcases recover_publishes hrecover m hm with hmem | hfalse
    swap
    · exact hfalse.elim
    unfold createInitialManifest at hcreate
    split at hcreate
    · cases hcreate
    split at hcreate
    · cases hcreate
    rename_i hasInitialWal hinspect
    cases hasInitialWal <;> (cases hcreate; simpa [blank] using hmem)

theorem recover_space {sweep : SweepFaults} {d : Directory} {m : ManifestSnapshot}
    {t : List DirOp} (hr : (blank d m t).recover o sweep = .ok h)
    (hlast : m.lastSequence < 2 ^ 64) : h.nextSequence < 2 ^ 64 := by
  unfold recover at hr
  split at hr
  · cases hr
  rename_i h₁ htables
  split at hr
  · cases hr
  rename_i h₂ hwals
  unfold openManifestSSTables at htables
  split at htables
  · cases htables
  cases htables
  have hnext := recoverWals_lt hwals hlast
  have hfiles := OnlyFiles.cleanupObsoleteFiles h₂ sweep.listed sweep.fails
  cases hr
  exact hfiles.sameReads.1.trans_lt hnext

/-- What `Open` returns for a Manifest whose last sequence has 64 bits. -/
theorem open_space {d : Directory} {listing : Listing} {sweep : SweepFaults}
    (hopen : Handle.open o d listing sweep = .ok h)
    (hlast : ∀ m, d.manifest = some m → m.lastSequence < 2 ^ 64) :
    h.nextSequence < 2 ^ 64 ∧ h.PublishedLt := by
  refine ⟨?_, fun m hm => ?_⟩
  · obtain ⟨m, -, ⟨hm, hrecover⟩ | ⟨-, rfl, h₁, -, hrecover, hblank⟩⟩ := open_eq_ok hopen
    · exact recover_space hrecover (hlast m hm)
    · rw [hblank] at hrecover
      exact recover_space hrecover (by decide)
  · rw [open_publishes hopen m hm]
    decide

end

end Handle

/-- What the operations leave as Manifest was there before, or was published by one of them. -/
theorem manifest_foldl_apply (ops : List DirOp) (d : Directory) :
    (ops.foldl DirOp.apply d).manifest = d.manifest ∨
      ∃ m, DirOp.publish m ∈ ops ∧ (ops.foldl DirOp.apply d).manifest = some m := by
  induction ops using List.reverseRecOn with
  | nil => exact .inl rfl
  | append_singleton ops op ih =>
    rw [List.foldl_append]
    have hkeep : (∀ m, op ≠ .publish m) → (op.apply (ops.foldl DirOp.apply d)).manifest =
        (ops.foldl DirOp.apply d).manifest := by
      intro hop
      cases op with
      | publish m => exact absurd rfl (hop m)
      | rename source target =>
        simp only [DirOp.apply]
        split <;> rfl
      | _ => rfl
    by_cases hop : ∃ m, op = .publish m
    · obtain ⟨m, rfl⟩ := hop
      exact .inr ⟨m, by simp, rfl⟩
    · rw [not_exists] at hop
      rw [List.foldl_cons, List.foldl_nil, hkeep hop]
      rcases ih with heq | ⟨m, hm, heq⟩
      · exact .inl heq
      · exact .inr ⟨m, by simp [hm], heq⟩

section
variable [EntrySize] {o : Options} {faultFree : Bool}

theorem System.run_space {s s' : System} (hrun : (System.system o faultFree).Run s s')
    (hl : Layered o s.handle s.worker)
    (hs : s.handle.nextSequence < 2 ^ 64 ∧ s.handle.PublishedLt) :
    s'.handle.nextSequence < 2 ^ 64 ∧ s'.handle.PublishedLt := by
  have hkeeps := hrun.keeps (P := fun s => Layered o s.handle s.worker ∧
    s.handle.nextSequence < 2 ^ 64 ∧ s.handle.PublishedLt) ?_ ⟨hl, hs⟩
  · exact hkeeps.2
  · rintro s s' hstep ⟨hl, hnext, hpublished⟩
    refine ⟨hl.step hstep, hstep.nextSequence.2 hnext, fun m hm => ?_⟩
    rcases hstep.publishesOnly m hm with hm | hm
    · exact hpublished m hm
    · exact (hm.lastSequence_lt hl).trans hnext

/-- The Manifests that the program leaves behind name sequences of 64 bits. -/
theorem Directory.Written.lastSequence_lt {d : Directory} (hd : d.Written) :
    ∀ m, d.manifest = some m → m.lastSequence < 2 ^ 64 := by
  induction hd with
  | new hmanifest htables =>
    intro m hm
    rw [hmanifest] at hm
    cases hm
  | @left d d' o listing sweep h s ops hd hopen hrun hops hleft ih =>
    intro m hm
    obtain ⟨-, hpublished⟩ :=
      System.run_space hrun (Layered.opened hopen) (Handle.open_space hopen ih)
    rw [hleft.manifest] at hm
    rcases manifest_foldl_apply ops d with heq | ⟨m', hm', heq⟩
    · exact ih m (heq ▸ hm)
    · rw [heq] at hm
      cases hm
      exact hpublished m (hops.subset hm')
  | unopened hd hmanifest htables ih =>
    intro m hm
    exact ih m (hmanifest ▸ hm)

end

end TinyLsm
