import TinyLsm.Db.Recovery

/-!
# What a locked region can do

One inversion lemma for each region of `db_impl.cpp`. Most of them change files only; the rest either
fail, or publish a Manifest and switch the state behind it.
-/

namespace TinyLsm

namespace Handle

/-! ## Regions that change files only -/

/-- Only the directory and `pending_cleanup_` differ. -/
def OnlyFiles (h h' : Handle) : Prop :=
  ∃ d t p, h' = { h with dir := d, trace := t, pendingCleanup := p }

namespace OnlyFiles

variable {h h' h'' : Handle}

theorem refl (h : Handle) : OnlyFiles h h := ⟨h.dir, h.trace, h.pendingCleanup, rfl⟩

theorem trans (hh : OnlyFiles h h') (hh' : OnlyFiles h' h'') : OnlyFiles h h'' := by
  obtain ⟨d, t, p, rfl⟩ := hh
  obtain ⟨d', t', p', rfl⟩ := hh'
  exact ⟨d', t', p', rfl⟩

theorem perform (h : Handle) (op : DirOp) : OnlyFiles h (h.perform op) :=
  ⟨op.apply h.dir, h.trace ++ [op], h.pendingCleanup, rfl⟩

theorem bestEffortRemove (h : Handle) (name : FileName) (fails : Bool) :
    OnlyFiles h (h.bestEffortRemove name fails) := by
  unfold Handle.bestEffortRemove
  split
  · split
    · exact refl h
    · exact ⟨h.dir, h.trace, _, rfl⟩
  · exact perform h _

theorem removeAll (names : List FileName) (fails : FileName → Bool) (h : Handle) :
    OnlyFiles h (h.removeAll names fails) := by
  unfold Handle.removeAll
  induction names generalizing h with
  | nil => exact refl h
  | cons name names ih => exact (bestEffortRemove h name (fails name)).trans (ih _)

theorem cleanupObsoleteFiles (h : Handle) (listed : Option (List FileName))
    (fails : FileName → Bool) : OnlyFiles h (h.cleanupObsoleteFiles listed fails) := by
  have hpending : OnlyFiles h ({ h with pendingCleanup := [] }.removeAll h.pendingCleanup fails) :=
    OnlyFiles.trans ⟨h.dir, h.trace, [], rfl⟩ (removeAll _ _ _)
  cases listed with
  | none => exact hpending
  | some names => exact hpending.trans (removeAll _ _ _)

end OnlyFiles

/-! ## Regions that change flags only -/

/-- Only the flags of the threads and the background error differ. -/
def OnlyFlags (h h' : Handle) : Prop :=
  ∃ e c₁ c₂ r₁ r₂ f₁ f₂ w, h' =
    { h with
      backgroundError := e, closed := c₁, closing := c₂, flushRequested := r₁
      compactionRequested := r₂, flushRunning := f₁, compactionRunning := f₂, workerStopping := w }

namespace OnlyFlags

variable {o : Options} {h : Handle}

theorem refl (h : Handle) : OnlyFlags h h := ⟨_, _, _, _, _, _, _, _, rfl⟩

theorem claim (h : Handle) : OnlyFlags h h.claim.1 := by
  simp only [Handle.claim]
  split
  · exact ⟨_, _, _, _, _, _, _, _, rfl⟩
  · split <;> exact ⟨_, _, _, _, _, _, _, _, rfl⟩

theorem account (h : Handle) (flush : Bool) (status : Status) :
    OnlyFlags h (h.account o flush status) := by
  simp only [Handle.account]
  repeat' split
  all_goals exact ⟨_, _, _, _, _, _, _, _, rfl⟩

end OnlyFlags

/-- One round of `Close` changes flags, at most behind a rotation. -/
theorem closeRound_cases {o : Options} {h h' : Handle} {fault : Option RotateFault} {c : Call}
    (hr : h.closeRound o fault = (h', c)) :
    OnlyFlags h h' ∨ ∃ h₁ status, h.rotateMemTable fault = (h₁, status) ∧ OnlyFlags h₁ h' := by
  unfold closeRound at hr
  split at hr
  · cases hr
    exact .inl (.refl h)
  split at hr
  · cases hr
    exact .inl (.refl h)
  split at hr
  · cases hr
    exact .inl ⟨_, _, _, _, _, _, _, _, rfl⟩
  split at hr
  · rcases hrotate : h.rotateMemTable fault with ⟨h₁, status⟩
    rw [hrotate] at hr
    cases hr
    refine .inr ⟨h₁, status, rfl, ?_⟩
    split
    · exact .refl h₁
    · exact ⟨_, _, _, _, _, _, _, _, rfl⟩
  · cases hr
    exact .inl (.refl h)

/-- `Close` behind its loop changes flags, at most behind a sync of the active WAL. -/
theorem closeSyncWal_cases {o : Options} {h h' : Handle} {fault : Option Failure} {c : Call}
    (hr : h.closeSyncWal o fault = (h', c)) :
    OnlyFlags h h' ∨ OnlyFlags (h.perform (.sync (.wal h.manifest.activeWalNumber))) h' := by
  unfold closeSyncWal at hr
  split at hr
  · split at hr
    · cases hr
      exact .inl ⟨_, _, _, _, _, _, _, _, rfl⟩
    · cases hr
      exact .inr ⟨_, _, _, _, _, _, _, _, rfl⟩
  · cases hr
    exact .inl ⟨_, _, _, _, _, _, _, _, rfl⟩

/-! ## Building a table -/

section
variable {o : Options} {context : BuildContext} {checked : Output → Option Status} {number : ℕ}
  {entries : List InternalEntry} {fault : Option Failure} {phase phase' : BuildPhase} {h h' : Handle}

/-- The bytes that a builder writes for the entries. -/
def tableBytes (o : Options) (entries : List InternalEntry) : Bytes :=
  (buildTable o.sstableBlockBytes o.sstableRestartInterval entries).1.flatten

/-- One successful step of a build. -/
inductive BuildsTo (o : Options) (checked : Output → Option Status) (number : ℕ)
    (entries : List InternalEntry) (h : Handle) : BuildPhase → Handle → BuildPhase → Prop
  | create : BuildsTo o checked number entries h .create (h.perform (.create (.sstTmp number))) .write
  | write {info} (hbuild : (buildTable o.sstableBlockBytes o.sstableRestartInterval entries).2 =
        .ok info) :
      BuildsTo o checked number entries h .write
        ((h.perform (.append (.sstTmp number) (tableBytes o entries))).perform
          (.sync (.sstTmp number))) (.verify info)
  | verify {info file reader properties} (hfile : h.dir.files (.sstTmp number) = some file)
      (hopen : SSTableReader.open file.data number = .ok reader)
      (hvalidate : reader.validateAndGetProperties = .ok properties)
      (hchecked : checked ⟨⟨number, reader⟩, info, properties⟩ = none) :
      BuildsTo o checked number entries h (.verify info) h
        (.rename ⟨⟨number, reader⟩, info, properties⟩)
  | rename {out file} (hfile : h.dir.files (.sstTmp number) = some file) :
      BuildsTo o checked number entries h (.rename out)
        (h.perform (.rename (.sstTmp number) (.sst number))) (.syncDir out)
  | syncDir {out} :
      BuildsTo o checked number entries h (.syncDir out) (h.perform .syncDir) (.ready out)

theorem buildStep_ok (hphase : ∀ out, phase ≠ .ready out)
    (hr : h.buildStep o context checked number entries fault phase = (h', .ok phase')) :
    BuildsTo o checked number entries h phase h' phase' := by
  cases phase with
  | create =>
    cases fault <;> cases hr
    exact .create
  | write =>
    cases fault with
    | none =>
      simp only [Handle.buildStep] at hr
      split at hr
      · cases hr
      · rename_i spans info hbuild
        have hbytes : tableBytes o entries = spans.flatten := by rw [tableBytes, hbuild]
        cases hr
        rw [← hbytes]
        exact .write (congrArg Prod.snd hbuild)
    | some => cases hr
  | verify info =>
    cases fault with
    | none =>
      simp only [Handle.buildStep] at hr
      split at hr
      · cases hr
      rename_i file hfile
      split at hr
      · cases hr
      rename_i reader hopen
      split at hr
      · cases hr
      rename_i properties hvalidate
      split at hr
      · cases hr
      rename_i hchecked
      cases hr
      exact .verify hfile hopen hvalidate hchecked
    | some => cases hr
  | rename out =>
    simp only [Handle.buildStep] at hr
    split at hr
    · cases hr
    · cases hr
    · rename_i file hfile
      cases hr
      exact .rename hfile
  | syncDir out =>
    cases fault <;> cases hr
    exact .syncDir
  | ready out => exact absurd rfl (hphase out)

/-- A failed step of a build leaves at most a part of the table, and has an error to report. -/
theorem buildStep_error (hchecked : ∀ out s, checked out = some s → s.ok = false) {status : Status}
    (hr : h.buildStep o context checked number entries fault phase = (h', .error status)) :
    status.ok = false ∧ (h' = h ∨
      phase = .write ∧ h' = h.perform (.append (.sstTmp number) (tableBytes o entries))) := by
  have hfault : ∀ (s : Failure) (context : String), (s.1.withContext context).ok = false := by
    intro s context
    rw [Status.ok_withContext, s.2]
  cases phase with
  | create =>
    cases fault <;> cases hr
    exact ⟨hfault _ _, .inl rfl⟩
  | write =>
    cases fault with
    | none =>
      simp only [Handle.buildStep] at hr
      split at hr
      · rename_i spans s hbuild
        have hbytes : tableBytes o entries = spans.flatten := by rw [tableBytes, hbuild]
        cases hr
        rw [Status.ok_withContext, ← hbytes]
        exact ⟨buildTable_error (congrArg Prod.snd hbuild), .inr ⟨rfl, rfl⟩⟩
      · cases hr
    | some =>
      cases hr
      exact ⟨hfault _ _, .inl rfl⟩
  | verify info =>
    cases fault with
    | none =>
      simp only [Handle.buildStep] at hr
      split at hr
      · cases hr
        exact ⟨by simp, .inl rfl⟩
      split at hr
      · rename_i s hopen
        cases hr
        rw [Status.ok_withContext]
        exact ⟨SSTableReader.open_error hopen, .inl rfl⟩
      split at hr
      · rename_i s hvalidate
        cases hr
        rw [Status.ok_withContext]
        exact ⟨SSTableReader.validateAndGetProperties_error hvalidate, .inl rfl⟩
      split at hr
      · rename_i s hs
        cases hr
        exact ⟨hchecked _ _ hs, .inl rfl⟩
      · cases hr
    | some =>
      cases hr
      exact ⟨hfault _ _, .inl rfl⟩
  | rename output =>
    simp only [Handle.buildStep] at hr
    split at hr
    · cases hr
      exact ⟨hfault _ _, .inl rfl⟩
    · cases hr
      exact ⟨by simp, .inl rfl⟩
    · cases hr
  | syncDir output =>
    cases fault <;> cases hr
    exact ⟨hfault _ _, .inl rfl⟩
  | ready output => cases hr

theorem compactionChecked_error (out : Output) (s : Status) (h : compactionChecked out = some s) :
    s.ok = false := by
  unfold compactionChecked at h
  split at h <;> cases h
  rfl

theorem matches_of_compactionChecked {out : Output} (h : compactionChecked out = none) :
    out.tableMeta.matches out.properties := by
  unfold compactionChecked at h
  split at h
  · assumption
  · cases h

theorem BuildsTo.onlyFiles (hb : BuildsTo o checked number entries h phase h' phase') :
    OnlyFiles h h' := by
  cases hb with
  | create => exact .perform h _
  | write => exact (OnlyFiles.perform h _).trans (.perform _ _)
  | verify => exact .refl h
  | rename => exact .perform h _
  | syncDir => exact .perform h _

theorem OnlyFiles.buildStep (hchecked : ∀ out s, checked out = some s → s.ok = false)
    {r : Except Status BuildPhase} (hphase : ∀ out, phase ≠ .ready out)
    (hr : h.buildStep o context checked number entries fault phase = (h', r)) : OnlyFiles h h' := by
  cases r with
  | ok phase' => exact (buildStep_ok hphase hr).onlyFiles
  | error status =>
    rcases (buildStep_error hchecked hr).2 with rfl | ⟨-, rfl⟩
    · exact .refl _
    · exact .perform h _

end

/-- The steps of a build under the lock: what holds at the start of a phase and is kept by each step
holds of the output; a failure leaves what a failing step leaves. -/
theorem buildOutput_rule {o : Options} {number : ℕ} {entries : List InternalEntry}
    {f : CompactFaults} {h h' : Handle} {r : Except Status Output} (P : BuildPhase → Handle → Prop)
    (Q : Handle → Prop)
    (hok : ∀ phase phase' h h', BuildsTo o compactionChecked number entries h phase h' phase' →
      P phase h → P phase' h')
    (herror : ∀ phase h, P phase h → Q h)
    (hpart : ∀ h, P .write h → Q (h.perform (.append (.sstTmp number) (tableBytes o entries))))
    (hr : h.buildOutput o number entries f = (h', r)) (hstart : P .create h) :
    match r with
    | .ok out => P (.ready out) h'
    | .error status => status.ok = false ∧ Q h' := by
  have hfail : ∀ {fault : Option Failure} {phase h h' status}, P phase h →
      Handle.buildStep o compactionContext compactionChecked number entries fault h phase =
        (h', .error status) → status.ok = false ∧ Q h' := by
    intro fault phase h h' status hP hr
    obtain ⟨hs, rfl | ⟨rfl, rfl⟩⟩ := buildStep_error compactionChecked_error hr
    · exact ⟨hs, herror _ _ hP⟩
    · exact ⟨hs, hpart _ hP⟩
  simp only [buildOutput] at hr
  split at hr
  · rename_i hcreate
    cases hr
    exact hfail hstart hcreate
  rename_i h₁ p₁ hcreate
  have hto₁ := buildStep_ok (by simp) hcreate
  have hP₁ := hok _ _ _ _ hto₁ hstart
  cases hto₁
  split at hr
  · rename_i hwrite
    cases hr
    exact hfail hP₁ hwrite
  rename_i h₂ p₂ hwrite
  have hto₂ := buildStep_ok (by simp) hwrite
  have hP₂ := hok _ _ _ _ hto₂ hP₁
  cases hto₂
  split at hr
  · rename_i hverify
    cases hr
    exact hfail hP₂ hverify
  rename_i h₃ p₃ hverify
  have hto₃ := buildStep_ok (by simp) hverify
  have hP₃ := hok _ _ _ _ hto₃ hP₂
  cases hto₃
  split at hr
  · rename_i hrename
    cases hr
    exact hfail hP₃ hrename
  rename_i h₄ p₄ hrename
  have hto₄ := buildStep_ok (by simp) hrename
  have hP₄ := hok _ _ _ _ hto₄ hP₃
  cases hto₄
  split at hr
  · rename_i hsync
    cases hr
    exact hfail hP₄ hsync
  · rename_i hsync
    cases hr
    exact hok _ _ _ _ (buildStep_ok (by simp) hsync) hP₄
  · rename_i p₅ hnot hsync
    have hto₅ := buildStep_ok (by simp) hsync
    cases hto₅
    exact absurd rfl (hnot _)

theorem OnlyFiles.buildOutput {o : Options} {number : ℕ} {entries : List InternalEntry}
    {f : CompactFaults} {h h' : Handle} {r : Except Status Output}
    (hr : h.buildOutput o number entries f = (h', r)) : OnlyFiles h h' := by
  have hrule := buildOutput_rule (fun _ h₁ => OnlyFiles h h₁) (OnlyFiles h)
    (fun _ _ _ _ hb hP => hP.trans hb.onlyFiles) (fun _ _ hP => hP)
    (fun _ hP => hP.trans (.perform _ _)) hr (.refl h)
  cases r with
  | ok out => exact hrule
  | error status => exact hrule.2

/-! ## Publishing -/

/-- The state behind a durable Manifest. -/
@[simps]
def withManifest (h : Handle) (next : ManifestSnapshot) : Handle :=
  { (h.perform (.publish next)).perform .syncDir with manifest := next }

theorem encodeManifest_error {m : ManifestSnapshot} {status : Status}
    (h : encodeManifest m = .error status) : status.ok = false := by
  unfold encodeManifest at h
  split at h
  · obtain rfl := Except.error.inj h
    rfl
  split at h
  · obtain rfl := Except.error.inj h
    rfl
  split at h
  · obtain rfl := Except.error.inj h
    rfl
  · cases h

/-- A Manifest is not published, visible only, or durable. -/
theorem published_cases {h h' : Handle} {next : ManifestSnapshot} {fault : Option PublishFault}
    {terminal context : String} {durable : Handle → Handle} {status : Status}
    (hr : published (h.publish next fault) terminal context durable = (h', status)) :
    (h' = h ∧ status.ok = false ∧ (fault = none → ∃ e, encodeManifest next = .error e)) ∨
    (h' = { h.perform (.publish next) with terminalError := some status } ∧ status.ok = false ∧
      fault ≠ none ∧ ∃ bytes, encodeManifest next = .ok bytes) ∨
    (h' = durable (h.withManifest next) ∧ status = .okay ∧ fault = none ∧
      ∃ bytes, encodeManifest next = .ok bytes) := by
  unfold publish at hr
  cases hencode : encodeManifest next with
  | error e =>
    rw [hencode] at hr
    cases hr
    exact .inl ⟨rfl, by simpa using encodeManifest_error hencode, fun _ => ⟨e, rfl⟩⟩
  | ok bytes =>
    rw [hencode] at hr
    cases fault with
    | none =>
      cases hr
      exact .inr (.inr ⟨rfl, rfl, rfl, bytes, rfl⟩)
    | some fault =>
      cases fault with
      | notPublished s =>
        cases hr
        exact .inl ⟨rfl, by simpa using s.2, by simp⟩
      | syncDir s =>
        cases hr
        exact .inr (.inl ⟨rfl, by simpa using s.2, by simp, bytes, rfl⟩)

/-! ## Rotation and commit of a write group -/

/-- The state of `RotateMemTable` with the replacement WAL. -/
def withWal (h : Handle) : Handle :=
  (h.perform (.create (.wal (h.manifest.nextFileNumber + 1)))).perform
    (.sync (.wal (h.manifest.nextFileNumber + 1)))

theorem onlyFiles_withWal (h : Handle) : OnlyFiles h h.withWal :=
  (OnlyFiles.perform h _).trans (OnlyFiles.perform _ _)

/-- How far a failed rotation got with the replacement WAL. -/
inductive WalPrepared (h : Handle) : Handle → Prop
  | start : WalPrepared h h
  | created : WalPrepared h (h.perform (.create (.wal (h.manifest.nextFileNumber + 1))))
  | synced : WalPrepared h h.withWal

theorem WalPrepared.onlyFiles {h h' : Handle} (hw : WalPrepared h h') : OnlyFiles h h' := by
  cases hw with
  | start => exact .refl h
  | created => exact .perform h _
  | synced => exact h.onlyFiles_withWal

/-- The state that `RotateMemTable` switches to. -/
def rotated (h : Handle) : Handle :=
  (h.withWal.withManifest (rotatedManifest h.manifest)).switchMemTable

theorem rotated_eq (h : Handle) : ∃ d t, h.rotated =
    { h with
      dir := d, trace := t, manifest := rotatedManifest h.manifest, memtable := .empty
      immutable := some h.memtable, flushRequested := true } := by
  refine ⟨h.rotated.dir, h.rotated.trace, ?_⟩
  apply Handle.ext <;> simp [rotated, withWal]

/-- A rotation fails or has nothing to do, leaves a terminal error, or switches the MemTable. -/
theorem rotateMemTable_cases {h h' : Handle} {fault : Option RotateFault} {status : Status}
    (hr : h.rotateMemTable fault = (h', status)) :
    (WalPrepared h h' ∧ (status.ok → h' = h ∧ h.immutable = none ∧ h.memtable.isEmpty)) ∨
    (h' = { h.withWal.perform (.publish (rotatedManifest h.manifest)) with
        terminalError := some status } ∧ status.ok = false ∧ fault ≠ none ∧
      ∃ bytes, encodeManifest (rotatedManifest h.manifest) = .ok bytes) ∨
    (h' = h.rotated ∧ status = .okay ∧ fault = none ∧ h.immutable = none ∧
      h.memtable.isEmpty = false ∧ ∃ bytes, encodeManifest (rotatedManifest h.manifest) = .ok bytes) := by
  unfold rotateMemTable at hr
  split at hr
  · cases hr
    exact .inl ⟨.start, by simp⟩
  rename_i himmutable
  rw [Bool.not_eq_true, Option.isSome_eq_false_iff, Option.isNone_iff_eq_none] at himmutable
  split at hr
  · rename_i hempty
    cases hr
    exact .inl ⟨.start, fun _ => ⟨rfl, himmutable, hempty⟩⟩
  rename_i hempty
  split at hr
  · cases hr
    exact .inl ⟨.start, by simp⟩
  split at hr
  · cases hr
    exact .inl ⟨.start, by simp⟩
  dsimp only at hr
  split at hr
  · rename_i s
    cases hr
    exact .inl ⟨.start, by simp [s.2]⟩
  · rename_i s
    cases hr
    exact .inl ⟨.created, by simp [s.2]⟩
  · rcases published_cases hr with ⟨rfl, hfail, -⟩ | ⟨rfl, hfail, -, hencode⟩ | ⟨-, -, hnone, -⟩
    · exact .inl ⟨.synced, by simp [hfail]⟩
    · exact .inr (.inl ⟨rfl, hfail, by simp, hencode⟩)
    · cases hnone
  · rcases published_cases hr with ⟨rfl, hfail, -⟩ | ⟨-, -, hnone, -⟩ | ⟨rfl, rfl, -, hencode⟩
    · exact .inl ⟨.synced, by simp [hfail]⟩
    · exact absurd rfl hnone
    · exact .inr (.inr ⟨rfl, rfl, rfl, himmutable, by simpa using hempty, hencode⟩)

/-- What a commit stores in the MemTable: versions on the sequences from the next one on, or nothing
when `ApplyBatch` fails. -/
def Stores [EntrySize] (h : Handle) (m : MemTable) (n : ℕ) : Prop :=
  ∃ ops : List Operation, n = h.nextSequence + ops.length ∧
    (h.nextSequence < 2 ^ 64 → n < 2 ^ 64) ∧
    (m = h.memtable ∨ h.memtable.applyBatch (assignSequences h.nextSequence ops) = .ok m)

section
variable [EntrySize] {o : Options} (P : Handle → Prop)
  (hlog : ∀ (h : Handle) op, (op = .sync (.wal h.manifest.activeWalNumber) ∨
    ∃ bytes, op = .append (.wal h.manifest.activeWalNumber) bytes) → P h → P (h.perform op))
  (hstore : ∀ (h : Handle) m n, h.Stores m n → P h → P { h with memtable := m, nextSequence := n })
  (hrotate : ∀ (h h' : Handle) fault status, h.rotateMemTable fault = (h', status) → P h → P h')
include hlog hstore hrotate

omit hlog in
theorem storeEntries_keeps {h h' : Handle} {group : List WriterRequest}
    {fault : Option RotateFault} {status : Status}
    (hr : h.storeEntries o (groupEntries h.nextSequence group) fault = (h', status))
    (hspace : h.nextSequence < 2 ^ 64 →
      h.nextSequence + (groupEntries h.nextSequence group).length < 2 ^ 64) (hP : P h) :
    P h' := by
  have hstored : ∀ m, (m = h.memtable ∨
      h.memtable.applyBatch (groupEntries h.nextSequence group) = .ok m) →
      P { h with
        memtable := m
        nextSequence := h.nextSequence + (groupEntries h.nextSequence group).length } :=
    fun m hm => hstore h m _ ⟨_, by rw [groupEntries, length_assignSequences], hspace, hm⟩ hP
  simp only [storeEntries] at hr
  split at hr
  · cases hr
    exact hstored h.memtable (.inl rfl)
  rename_i m hm
  split at hr
  · exact hrotate _ _ _ _ hr (hstored m (.inr hm))
  · cases hr
    exact hstored m (.inr hm)

omit hstore hrotate [EntrySize] in
theorem appendBatch_keeps {h h' : Handle} {entries : List InternalEntry}
    {fault : Option (Failure × ℕ)} {status : Status}
    (hr : h.appendBatch o entries fault = (h', status)) (hP : P h) : P h' := by
  unfold appendBatch at hr
  split at hr
  · cases hr
    exact hP
  dsimp only at hr
  split at hr
  · cases hr
    exact hlog h _ (.inr ⟨_, rfl⟩) hP
  · cases hr
    exact hlog h _ (.inr ⟨_, rfl⟩) hP

theorem commitGroup_keeps {h h' : Handle} {group : List WriterRequest} {f : WriteFaults}
    {status : Status} (hr : h.commitGroup o group f = (h', status)) (hP : P h) : P h' := by
  unfold commitGroup at hr
  split at hr
  · cases hr
    exact hP
  rename_i count hcount
  split at hr
  · cases hr
    exact hP
  rename_i hspace
  rw [countGroup_eq_ok hcount, Nat.zero_add] at hspace
  dsimp only at hr
  rcases happend : appendBatch o h (groupEntries h.nextSequence group) f.append with ⟨h₁, s₁⟩
  have h₁P : P h₁ := appendBatch_keeps P hlog happend hP
  have hnext : h₁.nextSequence = h.nextSequence :=
    appendBatch_keeps (·.nextSequence = h.nextSequence) (fun _ _ _ hn => hn) happend rfl
  have hfits : h₁.nextSequence < 2 ^ 64 →
      h₁.nextSequence + (groupEntries h₁.nextSequence group).length < 2 ^ 64 := by
    rw [groupEntries, length_assignSequences, hnext]
    omega
  rw [happend] at hr
  dsimp only at hr
  rw [← hnext] at hr
  split at hr
  · cases hr
    exact h₁P
  split at hr
  · split at hr
    · cases hr
      exact h₁P
    · exact storeEntries_keeps P hstore hrotate hr hfits (hlog h₁ _ (.inl rfl) h₁P)
  · exact storeEntries_keeps P hstore hrotate hr hfits h₁P

/-- What the operations on the active WAL, storing entries and a rotation keep, the commit of a write
group keeps. -/
theorem applyWriteGroup_keeps {h h' : Handle} {group : List WriterRequest} {f : WriteFaults}
    {status : Status} (hr : h.applyWriteGroup o group f = some (h', status)) (hP : P h) : P h' := by
  have hprepare : ∀ h₁ s₁, h.prepareForWrite o f.rotateBefore = some (h₁, s₁) → P h₁ := by
    intro h₁ s₁ hp
    unfold prepareForWrite at hp
    split at hp
    · cases hp
    split at hp
    · cases hp
      exact hP
    split at hp
    · exact hrotate _ _ _ _ (Option.some.inj hp) hP
    · cases hp
      exact hP
  unfold applyWriteGroup at hr
  split at hr
  · cases hr
    exact hP
  split at hr
  · cases hr
  rename_i h₁ s₁ hp
  split at hr
  · cases hr
    exact hprepare _ _ hp
  · exact commitGroup_keeps P hlog hstore hrotate (Option.some.inj hr) (hprepare _ _ hp)

end

/-! ## Flush -/

/-- The first region of a flush changes files only, and fails or takes a job. -/
theorem beginFlush_cases {h h' : Handle} {sweep : SweepFaults} {r : Except Status FlushJob}
    (hr : h.beginFlush sweep = (h', r)) :
    OnlyFiles h h' ∧
      ((∃ status, r = .error status ∧ (status.ok → h.immutable = none)) ∨
        ∃ m, h.immutable = some m ∧ h.manifest.immutableWalNumber ≠ 0 ∧
          2 ≤ h.manifest.activeWalNumber ∧ h.manifest.liveTables.length = h.tables.length ∧
          m.scan [] [] ≠ [] ∧ h' = h.cleanupObsoleteFiles sweep.listed sweep.fails ∧
          r = .ok ⟨h.manifest.activeWalNumber - 1, h.manifest.immutableWalNumber, m.scan [] []⟩) := by
  unfold beginFlush at hr
  split at hr
  · rename_i himmutable
    cases hr
    exact ⟨.refl h, .inl ⟨_, rfl, fun _ => himmutable⟩⟩
  rename_i m himmutable
  split at hr
  · cases hr
    exact ⟨.refl h, .inl ⟨_, rfl, by simp [Status.corruption, Status.ok]⟩⟩
  rename_i hwal
  split at hr
  · cases hr
    exact ⟨.refl h, .inl ⟨_, rfl, by simp [Status.corruption, Status.ok]⟩⟩
  rename_i hlength
  split at hr
  · cases hr
    exact ⟨.refl h, .inl ⟨_, rfl, by simp [Status.corruption, Status.ok]⟩⟩
  rename_i hactive
  cases hr
  refine ⟨.cleanupObsoleteFiles h _ _, ?_⟩
  split
  · exact .inl ⟨_, rfl, by simp [Status.corruption, Status.ok]⟩
  · rename_i hentries
    exact .inr ⟨m, himmutable, hwal, not_lt.mp hactive, not_not.mp hlength, hentries, rfl, rfl⟩

theorem beginFlush_dir {h h' : Handle} {sweep : SweepFaults} {r : Except Status FlushJob}
    (hr : h.beginFlush sweep = (h', r)) :
    h' = h ∨ h' = h.cleanupObsoleteFiles sweep.listed sweep.fails := by
  unfold beginFlush at hr
  repeat' split at hr
  all_goals cases hr
  all_goals first
    | exact .inl rfl
    | exact .inr rfl

/-- The last region of a flush fails, leaves a terminal error, or installs the table. -/
theorem commitFlush_cases {o : Options} {h h' : Handle} {job : FlushJob} {out : Output}
    {fault : Option PublishFault} {status : Status}
    (hr : h.commitFlush o job out fault = (h', status)) :
    (h' = h ∧ status.ok = false) ∨
    (h' = { h.perform (.publish (flushedManifest h.manifest out)) with
        terminalError := some status } ∧ status.ok = false ∧ fault ≠ none ∧
      ∃ bytes, encodeManifest (flushedManifest h.manifest out) = .ok bytes) ∨
    (h' = (h.withManifest (flushedManifest h.manifest out)).installFlush o out ∧ status = .okay ∧
      fault = none ∧ h.immutable.isSome ∧ h.manifest.immutableWalNumber = job.immutableWal ∧
      h.manifest.activeWalNumber = job.tableNumber + 1 ∧ out.tableMeta.matches out.properties ∧
      ∃ bytes, encodeManifest (flushedManifest h.manifest out) = .ok bytes) := by
  unfold commitFlush at hr
  split at hr
  · cases hr
    exact .inl ⟨rfl, rfl⟩
  rename_i hsame
  split at hr
  · cases hr
    exact .inl ⟨rfl, rfl⟩
  rename_i hmatches
  simp only [not_or, ne_eq, not_not] at hsame
  rcases published_cases hr with
    ⟨rfl, hfail, -⟩ | ⟨rfl, hfail, hfault, hencode⟩ | ⟨rfl, rfl, hfault, hencode⟩
  · exact .inl ⟨rfl, hfail⟩
  · exact .inr (.inl ⟨rfl, hfail, hfault, hencode⟩)
  · refine .inr (.inr ⟨rfl, rfl, hfault, ?_, hsame.2.1, hsame.2.2, by simpa using hmatches, hencode⟩)
    simpa [Option.isSome_iff_ne_none] using hsame.1

/-! ## Compaction -/

/-- The Manifest that reserves the number of a background compaction. -/
def reservedManifest (m : ManifestSnapshot) : ManifestSnapshot :=
  { m with nextFileNumber := m.nextFileNumber + 1 }

/-- The first region of a background compaction fails, leaves a terminal error, or reserves the
number of its output. -/
theorem beginBackgroundCompaction_cases {o : Options} {h h' : Handle}
    {fault : Option PublishFault} {r : Except Status CompactionJob}
    (hr : h.beginBackgroundCompaction o fault = (h', r)) :
    (h' = h ∧ ∃ status, r = .error status) ∨
    (∃ status, h' = { h.perform (.publish (reservedManifest h.manifest)) with
        terminalError := some status } ∧ r = .error status ∧ status.ok = false ∧ fault ≠ none ∧
      ∃ bytes, encodeManifest (reservedManifest h.manifest) = .ok bytes) ∨
    (h' = h.withManifest (reservedManifest h.manifest) ∧
      r = .ok (h.selectTables o.compactionTableTrigger) ∧ fault = none ∧
      h.compactionStatus o o.compactionTableTrigger true = none ∧
      ∃ bytes, encodeManifest (reservedManifest h.manifest) = .ok bytes) := by
  unfold beginBackgroundCompaction at hr
  split at hr
  · cases hr
    exact .inl ⟨rfl, _, rfl⟩
  rename_i hstatus
  split at hr
  · cases hr
    exact .inl ⟨rfl, _, rfl⟩
  dsimp only at hr
  rcases hp : published (h.publish
    { h.manifest with nextFileNumber := h.manifest.nextFileNumber + 1 } fault)
    "reserve compaction file number: close and reopen the database" "reserve compaction file number"
    id with ⟨h₁, s₁⟩
  rw [hp] at hr
  rcases published_cases hp with
    ⟨rfl, hfail, -⟩ | ⟨rfl, hfail, hfault, hencode⟩ | ⟨rfl, rfl, hfault, hencode⟩
  · rw [if_neg (by simp [hfail])] at hr
    cases hr
    exact .inl ⟨rfl, _, rfl⟩
  · rw [if_neg (by simp [hfail])] at hr
    cases hr
    exact .inr (.inl ⟨_, rfl, rfl, hfail, hfault, hencode⟩)
  · cases hr
    exact .inr (.inr ⟨rfl, rfl, hfault, hstatus, hencode⟩)

/-- Behind its Manifest a compaction switches the tables, and then changes files only. -/
theorem installCompaction_eq (h : Handle) (next : ManifestSnapshot) (job : CompactionJob)
    (replacement : Option Output) (fails : FileName → Bool) :
    ∃ d t p, (h.withManifest next).installCompaction job replacement fails =
      { h with
        manifest := next
        tables := (replacement.map Output.table).toList ++ h.tables.drop job.metas.length
        dir := d, trace := t, pendingCleanup := p } :=
  OnlyFiles.removeAll (job.metas.map fun t : TableMeta => .sst t.fileNumber) fails
    { h.withManifest next with
      tables := (replacement.map Output.table).toList ++ h.tables.drop job.metas.length }

/-- The last region of a compaction fails, leaves a terminal error, or installs the output. -/
theorem commitCompaction_cases {h h' : Handle} {job : CompactionJob} {replacement : Option Output}
    {fault : Option PublishFault} {fails : FileName → Bool} {status : Status}
    (hr : h.commitCompaction job replacement fault fails = (h', status)) :
    (h' = h ∧ status.ok = false) ∨
    (h' = { h.perform (.publish (compactedManifest h.manifest job replacement)) with
        terminalError := some status } ∧ status.ok = false ∧ fault ≠ none ∧
      ∃ bytes, encodeManifest (compactedManifest h.manifest job replacement) = .ok bytes) ∨
    (h' = (h.withManifest (compactedManifest h.manifest job replacement)).installCompaction job
        replacement fails ∧ status = .okay ∧ fault = none ∧
      h.manifest.liveTables.length = h.tables.length ∧ job.metas.length ≤ h.tables.length ∧
      (h.manifest.liveTables.take job.metas.length).map TableMeta.fileNumber =
        job.metas.map TableMeta.fileNumber ∧
      ∃ bytes, encodeManifest (compactedManifest h.manifest job replacement) = .ok bytes) := by
  unfold commitCompaction at hr
  split at hr
  · cases hr
    exact .inl ⟨rfl, rfl⟩
  rename_i hlength
  rw [not_or, not_not, not_lt] at hlength
  split at hr
  · cases hr
    exact .inl ⟨rfl, rfl⟩
  rename_i hnumbers
  rcases published_cases hr with
    ⟨rfl, hfail, -⟩ | ⟨rfl, hfail, hfault, hencode⟩ | ⟨rfl, rfl, hfault, hencode⟩
  · exact .inl ⟨rfl, hfail⟩
  · exact .inr (.inl ⟨rfl, hfail, hfault, hencode⟩)
  · exact .inr (.inr ⟨rfl, rfl, hfault, hlength.1, hlength.2, not_not.mp hnumbers, hencode⟩)

/-- The entries that a compaction keeps. -/
def retained (h : Handle) (job : CompactionJob) (merged : List InternalEntry) : List InternalEntry :=
  retainEntries job.coversAll (oldestSnapshot h.snapshots) none false merged

/-- An explicit compaction: the sweep comes first; a failure is one of the checks, of the inputs or
of the build, and otherwise the last region decides. -/
theorem compactTablePrefix_cases {o : Options} {h h' : Handle} {inputCount : ℕ} {f : CompactFaults}
    {status : Status} (hr : h.compactTablePrefix o inputCount f = (h', status)) :
    (h' = h ∧ h.compactionStatus o inputCount false = some status) ∨
    h.compactionStatus o inputCount false = none ∧
      ∃ h₁, h₁ = h.cleanupObsoleteFiles f.sweep.listed f.sweep.fails ∧
        (h' = h₁ ∨
          (∃ merged, mergedEntries (h₁.selectTables inputCount).tables = .ok merged ∧
            h₁.retained (h₁.selectTables inputCount) merged = [] ∧
            h₁.commitCompaction (h₁.selectTables inputCount) none f.publish f.fails =
              (h', status)) ∨
          ∃ merged h₂ r, mergedEntries (h₁.selectTables inputCount).tables = .ok merged ∧
            h₁.retained (h₁.selectTables inputCount) merged ≠ [] ∧
            h₁.buildOutput o h₁.manifest.nextFileNumber
              (h₁.retained (h₁.selectTables inputCount) merged) f = (h₂, r) ∧
            ((r = .error status ∧ h' = h₂) ∨ ∃ out, r = .ok out ∧
              h₂.commitCompaction (h₁.selectTables inputCount) (some out) f.publish f.fails =
                (h', status))) := by
  unfold compactTablePrefix at hr
  split at hr
  · rename_i s hstatus
    cases hr
    exact .inl ⟨rfl, hstatus⟩
  rename_i hstatus
  refine .inr ⟨hstatus, _, rfl, ?_⟩
  dsimp only at hr
  split at hr
  · cases hr
    exact .inl rfl
  split at hr
  · cases hr
    exact .inl rfl
  · cases hr
    exact .inl rfl
  rename_i merged _ hmerged
  split at hr
  · rename_i hnil
    exact .inr (.inl ⟨merged, hmerged, hnil, hr⟩)
  · rename_i hne
    split at hr
    · rename_i h₂ s hbuild
      cases hr
      exact .inr (.inr ⟨merged, _, _, hmerged, hne, hbuild, .inl ⟨rfl, rfl⟩⟩)
    · rename_i h₂ out hbuild
      exact .inr (.inr ⟨merged, _, _, hmerged, hne, hbuild, .inr ⟨out, rfl, hr⟩⟩)

/-- What file changes and the last region of a compaction keep, an explicit compaction keeps. -/
theorem compactTablePrefix_keeps {o : Options} (P : Handle → Prop)
    (hfiles : ∀ h h', OnlyFiles h h' → P h → P h')
    (hcommit : ∀ (h h' : Handle) job replacement fault fails status,
      h.commitCompaction job replacement fault fails = (h', status) → P h → P h')
    {h h' : Handle} {inputCount : ℕ} {f : CompactFaults} {status : Status}
    (hr : h.compactTablePrefix o inputCount f = (h', status)) (hP : P h) : P h' := by
  rcases compactTablePrefix_cases hr with
    ⟨rfl, -⟩ | ⟨-, h₁, rfl, rfl | ⟨_, -, -, hc⟩ | ⟨_, h₂, r, -, -, hbuild, hend⟩⟩
  · exact hP
  · exact hfiles _ _ (.cleanupObsoleteFiles _ _ _) hP
  · exact hcommit _ _ _ _ _ _ _ hc (hfiles _ _ (.cleanupObsoleteFiles _ _ _) hP)
  · have hP₂ := hfiles _ _ (OnlyFiles.buildOutput hbuild) (hfiles _ _ (.cleanupObsoleteFiles _ _ _) hP)
    rcases hend with ⟨-, rfl⟩ | ⟨out, -, hc⟩
    · exact hP₂
    · exact hcommit _ _ _ _ _ _ _ hc hP₂

/-! ## Open -/

/-- The table of a Manifest entry, as `OpenManifestSSTables` accepts it. -/
structure OpensAs (d : Directory) (m : TableMeta) (t : Table) : Prop where
  number_eq : t.number = m.fileNumber
  opened : ∃ f, d.files (.sst m.fileNumber) = some f ∧
    SSTableReader.open f.data m.fileNumber = .ok t.reader
  size_eq : t.reader.fileSize = m.fileSize
  validated : ∃ p, t.reader.validateAndGetProperties = .ok p ∧ m.matches p

theorem openTables_eq_ok {d : Directory} {metas : List TableMeta} {tables : List Table}
    (h : openTables d metas = .ok tables) : List.Forall₂ (OpensAs d) metas tables := by
  induction metas generalizing tables with
  | nil =>
    cases h
    exact .nil
  | cons m metas ih =>
    unfold openTables at h
    split at h
    · cases h
    rename_i f hfile
    split at h
    · cases h
    rename_i reader hopen
    split at h
    · cases h
    rename_i hsize
    split at h
    · cases h
    rename_i p hvalidate
    split at h
    · cases h
    rename_i hmatches
    split at h
    · cases h
    rename_i rest hrest
    cases h
    exact .cons ⟨rfl, ⟨f, hfile, hopen⟩, not_not.mp hsize, p, hvalidate, by simpa using hmatches⟩
      (ih hrest)

theorem OpensAs.map_number {d : Directory} {metas : List TableMeta} {tables : List Table}
    (h : List.Forall₂ (OpensAs d) metas tables) :
    tables.map Table.number = metas.map TableMeta.fileNumber := by
  induction h with
  | nil => rfl
  | cons hm _ ih => rw [List.map_cons, List.map_cons, ih, hm.number_eq]

section
variable [EntrySize] {o : Options} {h h' : Handle}

/-- Recovery of a WAL that is there cuts off its tail, at most. -/
theorem recoverWal_cases {number floor recoveredMax : ℕ} {target : MemTable}
    (hr : h.recoverWal o number floor = .ok (h', recoveredMax, target)) :
    (h.dir.files (.wal number)).isSome ∧
      (h' = h ∨ ∃ size, h' = h.perform (.truncate (.wal number) size)) := by
  unfold recoverWal at hr
  split at hr
  · cases hr
  rename_i file hfile
  split at hr
  · cases hr
  cases hr
  refine ⟨by rw [hfile]; rfl, ?_⟩
  split
  · exact .inr ⟨_, rfl⟩
  · exact .inl rfl

theorem recoverWal_eq_ok {number floor recoveredMax : ℕ} {target : MemTable}
    (hr : h.recoverWal o number floor = .ok (h', recoveredMax, target)) : OnlyFiles h h' := by
  rcases (recoverWal_cases hr).2 with rfl | ⟨size, rfl⟩
  · exact .refl h'
  · exact .perform h _

theorem recoverActive_eq_ok {floor : ℕ} (hr : h.recoverActive o floor = .ok h') :
    ∃ h₁ m n, OnlyFiles h h₁ ∧ h' = { h₁ with memtable := m, nextSequence := n } := by
  unfold recoverActive at hr
  split at hr
  · cases hr
  rename_i h₁ recoveredMax m hwal
  split at hr
  · cases hr
  cases hr
  exact ⟨h₁, m, _, recoverWal_eq_ok hwal, rfl⟩

/-- `RecoverWals` sets the MemTables and the next sequence; there is an immutable one exactly when
the Manifest names its WAL. -/
theorem recoverWals_eq_ok (himmutable : h.immutable = none) (hr : h.recoverWals o = .ok h') :
    ∃ h₁ m i n, OnlyFiles h h₁ ∧ h' = { h₁ with memtable := m, immutable := i, nextSequence := n } ∧
      (h.manifest.immutableWalNumber ≠ 0 ↔ i.isSome) := by
  unfold recoverWals at hr
  split at hr
  · rename_i hwal
    obtain ⟨h₁, m, n, hfiles, rfl⟩ := recoverActive_eq_ok hr
    refine ⟨h₁, m, none, n, hfiles, ?_, by simp [hwal]⟩
    obtain ⟨d, t, p, rfl⟩ := hfiles
    simp [himmutable]
  rename_i hwal
  split at hr
  · cases hr
  rename_i h₁ recoveredMax immutable hrecover
  split at hr
  · cases hr
  obtain ⟨d, t, p, rfl⟩ := recoverWal_eq_ok hrecover
  obtain ⟨h₂, m, n, ⟨d', t', p', rfl⟩, rfl⟩ := recoverActive_eq_ok hr
  exact ⟨_, m, some immutable, n, ⟨d', t', p', rfl⟩, rfl, by simp [hwal]⟩

/-- The state in which `Open` returns: nothing is running, and the tables are those of the Manifest. -/
structure Opened (d : Directory) (h : Handle) : Prop where
  valid : h.manifest.Valid
  tables : openTables d h.manifest.liveTables = .ok h.tables
  immutable_iff : h.manifest.immutableWalNumber ≠ 0 ↔ h.immutable.isSome
  terminalError : h.terminalError = none
  backgroundError : h.backgroundError = none
  snapshots : h.snapshots = []
  closed : h.closed = false
  closing : h.closing = false
  flushRequested : h.flushRequested = h.immutable.isSome
  flushRunning : h.flushRunning = false
  compactionRunning : h.compactionRunning = false
  workerStopping : h.workerStopping = false

theorem recover_opened {sweep : SweepFaults} {d : Directory} {m : ManifestSnapshot}
    {t : List DirOp} (hvalid : m.Valid) (hr : (blank d m t).recover o sweep = .ok h) :
    Opened d h ∧ h.manifest = m := by
  unfold recover at hr
  split at hr
  · cases hr
  rename_i h₁ htables
  split at hr
  · cases hr
  rename_i h₂ hwals
  unfold openManifestSSTables at htables
  split at htables
  · cases htables
  rename_i tables hopen
  cases htables
  obtain ⟨h₃, memtable, immutable, n, ⟨d', t', p, rfl⟩, rfl, hiff⟩ := recoverWals_eq_ok rfl hwals
  obtain ⟨d'', t'', p', hsweep⟩ := OnlyFiles.cleanupObsoleteFiles
    { blank d m t with
      tables := tables, dir := d', trace := t', pendingCleanup := p, memtable := memtable
      immutable := immutable, nextSequence := n } sweep.listed sweep.fails
  rw [hsweep] at hr
  cases hr
  exact ⟨⟨hvalid, hopen, hiff, rfl, rfl, rfl, rfl, rfl, rfl, rfl, rfl, rfl⟩, rfl⟩

omit [EntrySize] in
theorem initialManifest_valid : initialManifest.Valid :=
  ManifestSnapshot.validate_eq_none_iff.mp (by decide)

/-- `Open` recovers from the Manifest that is there, or from the initial one. -/
theorem open_eq_ok {d : Directory} {listing : Listing} {sweep : SweepFaults}
    (hr : Handle.open o d listing sweep = .ok h) :
    ∃ m, m.Valid ∧ ((d.manifest = some m ∧ (blank d m []).recover o sweep = .ok h) ∨
      d.manifest = none ∧ m = initialManifest ∧ ∃ h₁, createInitialManifest o d listing = .ok h₁ ∧
        h₁.recover o sweep = .ok h ∧ h₁ = blank h₁.dir initialManifest h₁.trace) := by
  unfold Handle.open at hr
  split at hr
  · rename_i m hm
    split at hr
    · cases hr
    rename_i h₁ hload
    unfold loadManifest at hload
    split at hload
    · cases hload
    rename_i hvalid
    cases hload
    exact ⟨m, ManifestSnapshot.validate_eq_none_iff.mp hvalid, .inl ⟨hm, hr⟩⟩
  · rename_i hm
    split at hr
    · cases hr
    rename_i h₁ hcreate
    refine ⟨_, initialManifest_valid, .inr ⟨hm, rfl, h₁, hcreate, hr, ?_⟩⟩
    unfold createInitialManifest at hcreate
    split at hcreate
    · cases hcreate
    split at hcreate
    · cases hcreate
    rename_i hasInitialWal hinspect
    cases hasInitialWal <;> (cases hcreate; rfl)

theorem open_opened {d : Directory} {listing : Listing} {sweep : SweepFaults}
    (hr : Handle.open o d listing sweep = .ok h) : ∃ d', Opened d' h := by
  obtain ⟨m, hvalid, ⟨-, hrecover⟩ | ⟨-, rfl, h₁, -, hrecover, hblank⟩⟩ := open_eq_ok hr
  · exact ⟨d, (recover_opened hvalid hrecover).1⟩
  · rw [hblank] at hrecover
    exact ⟨_, (recover_opened hvalid hrecover).1⟩

end

end Handle

end TinyLsm
