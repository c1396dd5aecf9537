import TinyLsm.Db.GroupLimits
import TinyLsm.Db.Writes

/-!
# Memory of the write path

The writer queue of `SubmitWrite` and `DrainWriterQueue` over a handle and its threads. A group is
stored only behind `PrepareForWrite`, so in a MemTable below its limit, and the bytes that the queue
counts for a group are the bytes that the MemTable counts for its entries.
-/

namespace TinyLsm

/-! ## Two accounts of the same bytes -/

section
variable [EntrySize] {o : Options}

/-- `ValidateWriteBatch` counts what `EntryBytes` counts. -/
theorem validateOperations_bytes {ops : List Operation} {queueBytes total : ℕ}
    (h : validateOperations o queueBytes ops = .ok total) (sequence : ℕ) :
    total = queueBytes + ((assignSequences sequence ops).map entryBytes).sum := by
  induction ops generalizing queueBytes sequence with
  | nil =>
    obtain rfl := Except.ok.inj h
    rfl
  | cons op ops ih =>
    simp only [validateOperations] at h
    split at h
    · cases h
    split at h
    · cases h
    rw [ih h (sequence + 1), assignSequences, List.map_cons, List.sum_cons, Nat.add_assoc]
    rfl

theorem WriterRequest.Valid.queueBytes_eq {r : WriterRequest} (h : r.Valid o) (sequence : ℕ) :
    r.queueBytes = ((assignSequences sequence r.batch).map entryBytes).sum := by
  have hvalid := h.validated
  unfold validateWriteBatch at hvalid
  rw [if_neg h.ne_nil] at hvalid
  split at hvalid
  · cases hvalid
  split at hvalid
  · cases hvalid
  rename_i hops
  split at hvalid
  · cases hvalid
  obtain rfl := Except.ok.inj hvalid
  rw [validateOperations_bytes hops sequence, Nat.zero_add]

/-- The queue and the MemTable agree on the bytes of a group. -/
theorem bytesOf_eq_entryBytes {group : List WriterRequest} (hvalid : ∀ r ∈ group, r.Valid o)
    (sequence : ℕ) :
    WriterQueue.bytesOf group = ((groupEntries sequence group).map entryBytes).sum := by
  induction group generalizing sequence with
  | nil => rfl
  | cons r group ih =>
    have hr := hvalid r List.mem_cons_self
    rw [WriterQueue.bytesOf_cons, hr.queueBytes_eq sequence,
      ih (fun r hr => hvalid r (List.mem_cons_of_mem _ hr)) (sequence + r.batch.length), groupEntries,
      groupEntries, List.flatMap_cons, assignSequences_append, List.map_append, List.sum_append]

/-- A MemTable without entries accounts for nothing. -/
def MemTable.EmptyIsZero (m : MemTable) : Prop := m.isEmpty → m.bytes = 0

theorem MemTable.EmptyIsZero.applyBatch {m m' : MemTable} {es : List InternalEntry}
    (h : m.EmptyIsZero) (happly : m.applyBatch es = .ok m') : m'.EmptyIsZero := by
  intro hempty
  have hentries : m'.entries = [] := of_decide_eq_true hempty
  have hstored := MemTable.applyBatch_eq_ok happly
  rcases es with _ | ⟨e, es⟩
  · obtain rfl : m = m' := Except.ok.inj happly
    exact h hempty
  · -- the key of the first entry is in the table
    have hfind := hstored.find_eq e.userKey
    rw [hentries, if_neg (by simp)] at hfind
    cases hfind

end

/-! ## Steps that store nothing -/

namespace Handle

/-- The MemTables stay, the active one is rotated, or the immutable one was flushed. -/
inductive Maintains (h h' : Handle) : Prop
  | same (hactive : h'.memtable = h.memtable) (himmutable : h'.immutable = h.immutable)
  | rotated (hnone : h.immutable = none) (hactive : h'.memtable = .empty)
      (himmutable : h'.immutable = some h.memtable)
  | flushed (hactive : h'.memtable = h.memtable) (himmutable : h'.immutable = none)

variable {o : Options} {h h' h'' : Handle}

theorem Maintains.onlyFiles (hfiles : OnlyFiles h h') : Maintains h h' := by
  obtain ⟨d, t, p, rfl⟩ := hfiles
  exact .same rfl rfl

theorem Maintains.onlyFlags (hflags : OnlyFlags h h') : Maintains h h' := by
  obtain ⟨e, c₁, c₂, r₁, r₂, f₁, f₂, w, rfl⟩ := hflags
  exact .same rfl rfl

/-- A step that keeps the MemTables may follow. -/
theorem Maintains.trans_same (hm : Maintains h h') (hactive : h''.memtable = h'.memtable)
    (himmutable : h''.immutable = h'.immutable) : Maintains h h'' := by
  rcases hm with ⟨ha, hi⟩ | ⟨hn, ha, hi⟩ | ⟨ha, hi⟩
  · exact .same (hactive.trans ha) (himmutable.trans hi)
  · exact .rotated hn (hactive.trans ha) (himmutable.trans hi)
  · exact .flushed (hactive.trans ha) (himmutable.trans hi)

/-- Only the MemTables matter. -/
theorem Maintains.congr (hm : Maintains h h') (hactive : h.memtable = h''.memtable)
    (himmutable : h.immutable = h''.immutable) : Maintains h'' h' := by
  rcases hm with ⟨ha, hi⟩ | ⟨hn, ha, hi⟩ | ⟨ha, hi⟩
  · exact .same (ha.trans hactive) (hi.trans himmutable)
  · exact .rotated (himmutable.symm.trans hn) ha (hactive ▸ hi)
  · exact .flushed (ha.trans hactive) hi

theorem rotateMemTable_maintains {fault : Option RotateFault} {status : Status}
    (hr : h.rotateMemTable fault = (h', status)) : Maintains h h' := by
  rcases rotateMemTable_cases hr with ⟨hwal, -⟩ | ⟨rfl, -⟩ | ⟨rfl, -, -, hnone, -⟩
  · exact .onlyFiles hwal.onlyFiles
  · exact .same rfl rfl
  · obtain ⟨d, t, heq⟩ := h.rotated_eq
    rw [heq]
    exact .rotated hnone rfl rfl

theorem commitCompaction_same {job : CompactionJob} {replacement : Option Output}
    {fault : Option PublishFault} {fails : FileName → Bool} {status : Status}
    (hr : h.commitCompaction job replacement fault fails = (h', status)) :
    h'.memtable = h.memtable ∧ h'.immutable = h.immutable := by
  rcases commitCompaction_cases hr with ⟨rfl, -⟩ | ⟨rfl, -⟩ | ⟨rfl, -⟩
  · exact ⟨rfl, rfl⟩
  · exact ⟨rfl, rfl⟩
  · obtain ⟨d, t, p, heq⟩ := h.installCompaction_eq (compactedManifest h.manifest job replacement)
      job replacement fails
    rw [heq]
    exact ⟨rfl, rfl⟩

theorem commitFlush_maintains {job : FlushJob} {out : Output} {fault : Option PublishFault}
    {status : Status} (hr : h.commitFlush o job out fault = (h', status)) : Maintains h h' := by
  rcases commitFlush_cases hr with ⟨rfl, -⟩ | ⟨rfl, -⟩ | ⟨rfl, -⟩
  · exact .same rfl rfl
  · exact .same rfl rfl
  · exact .flushed rfl rfl

theorem beginBackgroundCompaction_maintains {fault : Option PublishFault}
    {r : Except Status CompactionJob} (hr : h.beginBackgroundCompaction o fault = (h', r)) :
    Maintains h h' := by
  rcases beginBackgroundCompaction_cases hr with ⟨rfl, -⟩ | ⟨_, rfl, -⟩ | ⟨rfl, -⟩
  · exact .same rfl rfl
  · exact .same rfl rfl
  · exact .same rfl rfl

theorem compactTablePrefix_maintains {inputCount : ℕ} {f : CompactFaults} {status : Status}
    (hr : h.compactTablePrefix o inputCount f = (h', status)) : Maintains h h' := by
  have hsame : h'.memtable = h.memtable ∧ h'.immutable = h.immutable := by
    refine compactTablePrefix_keeps
      (fun x => x.memtable = h.memtable ∧ x.immutable = h.immutable) ?_ ?_ hr ⟨rfl, rfl⟩
    · rintro x _ ⟨d, t, p, rfl⟩ hx
      exact hx
    · intro x x' job replacement fault fails status hc hx
      obtain ⟨hactive, himmutable⟩ := commitCompaction_same hc
      exact ⟨hactive.trans hx.1, himmutable.trans hx.2⟩
  exact .same hsame.1 hsame.2

theorem closeRound_maintains {fault : Option RotateFault} {c : Call}
    (hr : h.closeRound o fault = (h', c)) : Maintains h h' := by
  rcases closeRound_cases hr with hflags | ⟨h₁, status, hrotate, hflags⟩
  · exact .onlyFlags hflags
  · obtain ⟨e, c₁, c₂, r₁, r₂, f₁, f₂, w, rfl⟩ := hflags
    exact (rotateMemTable_maintains hrotate).trans_same rfl rfl

theorem closeSyncWal_maintains {fault : Option Failure} {c : Call}
    (hr : h.closeSyncWal o fault = (h', c)) : Maintains h h' := by
  rcases closeSyncWal_cases hr with hflags | hflags
  · exact .onlyFlags hflags
  · obtain ⟨e, c₁, c₂, r₁, r₂, f₁, f₂, w, rfl⟩ := hflags
    exact .same rfl rfl

end Handle

/-- Every step of the threads commits a group, or stores nothing. -/
theorem System.Step.commits_or_maintains [EntrySize] {o : Options} {faultFree : Bool} {s s' : System}
    (hstep : System.Step o faultFree s s') :
    (∃ group f status, s.handle.applyWriteGroup o group f = some (s'.handle, status) ∧
      s' = { s with handle := s'.handle }) ∨ Handle.Maintains s.handle s'.handle := by
  cases hstep with
  | write f _ happly => exact .inl ⟨_, f, _, happly, rfl⟩
  | getSnapshot | releaseSnapshot | workerExit | compactMerge | workerException | compactCall
  | compactResume | closeWake | next => exact .inr (.same rfl rfl)
  | workerClaim => exact .inr (.onlyFlags (.claim _))
  | flushBegin sweep _ _ hr => exact .inr (.onlyFiles (Handle.beginFlush_cases hr).1)
  | flushBuild fault _ _ hphase hr =>
    exact .inr (.onlyFiles (Handle.OnlyFiles.buildStep (by simp) hphase hr))
  | flushCommit fault _ _ hr => exact .inr (Handle.commitFlush_maintains hr)
  | flushRemove fails => exact .inr (.onlyFiles (.bestEffortRemove _ _ _))
  | compactBegin fault _ _ hr => exact .inr (Handle.beginBackgroundCompaction_maintains hr)
  | compactBuild fault _ _ hphase hr =>
    exact .inr (.onlyFiles (Handle.OnlyFiles.buildStep Handle.compactionChecked_error hphase hr))
  | compactCommit fault fails _ _ hr | compactDrop fault fails _ _ hr =>
    exact .inr (.same (Handle.commitCompaction_same hr).1 (Handle.commitCompaction_same hr).2)
  | workerAccount => exact .inr (.onlyFlags (.account _ _ _))
  | compactRun f _ _ hr => exact .inr (Handle.compactTablePrefix_maintains hr)
  | closeCall =>
    refine .inr ?_
    split
    · exact .same rfl rfl
    · exact .same rfl rfl
  | closeRound fault _ _ hr => exact .inr (Handle.closeRound_maintains hr)
  | closeSync fault _ _ hr => exact .inr (Handle.closeSyncWal_maintains hr)
  | closeJoined fault _ _ _ hr =>
    cases hr
    exact .inr (.same rfl rfl)

/-! ## The commit of a group -/

namespace Handle

section
variable [EntrySize] {o : Options} {h h' : Handle}

omit [EntrySize] in
theorem prepareForWrite_maintains {fault : Option RotateFault} {status : Status}
    (hr : h.prepareForWrite o fault = some (h', status)) : Maintains h h' := by
  rcases prepareForWrite_cases hr with ⟨rfl, -⟩ | ⟨-, -, -, hrotate⟩ | ⟨rfl, -⟩
  · exact .same rfl rfl
  · exact rotateMemTable_maintains hrotate
  · exact .same rfl rfl

omit [EntrySize] in
/-- Behind `PrepareForWrite` the active MemTable is below its limit. -/
theorem prepareForWrite_below (ho : o.Accepted) (hzero : h.memtable.EmptyIsZero)
    {fault : Option RotateFault} {status : Status}
    (hr : h.prepareForWrite o fault = some (h', status)) (hok : status.ok) :
    h'.memtable.bytes < o.memtableBytes := by
  have hpos := ho.memtable_pos
  rcases prepareForWrite_cases hr with ⟨-, rfl, hclosed⟩ | ⟨-, -, hfull, hrotate⟩ | ⟨rfl, -, -, hroom⟩
  · rw [hok] at hclosed
    cases hclosed
  · rcases rotateMemTable_cases hrotate with ⟨-, hsame⟩ | ⟨-, hfail, -⟩ | ⟨rfl, -⟩
    · obtain ⟨rfl, -, hempty⟩ := hsame hok
      rw [hzero hempty] at hfull ⊢
      omega
    · rw [hok] at hfail
      cases hfail
    · obtain ⟨d, t, heq⟩ := h.rotated_eq
      rw [heq]
      exact Nat.pos_of_ne_zero hpos
  · exact hroom

theorem storeEntries_cases {entries : List InternalEntry} {fault : Option RotateFault}
    {status : Status} (hr : h.storeEntries o entries fault = (h', status)) :
    Maintains h h' ∨ ∃ m, h.memtable.applyBatch entries = .ok m ∧
      Maintains { h with memtable := m } h' := by
  simp only [storeEntries] at hr
  split at hr
  · cases hr
    exact .inl (.same rfl rfl)
  rename_i m hm
  refine .inr ⟨m, hm, ?_⟩
  split at hr
  · exact (rotateMemTable_maintains hr).congr rfl rfl
  · cases hr
    exact .same rfl rfl

omit [EntrySize] in
theorem appendBatch_onlyFiles {entries : List InternalEntry} {fault : Option (Failure × ℕ)}
    {status : Status} (hr : h.appendBatch o entries fault = (h', status)) : OnlyFiles h h' :=
  appendBatch_keeps (OnlyFiles h) (fun _ op _ hfiles => hfiles.trans (.perform _ op)) hr (.refl h)

/-- A commit stores the entries of its group in the active MemTable, or nothing. -/
theorem commitGroup_cases {group : List WriterRequest} {f : WriteFaults} {status : Status}
    (hr : h.commitGroup o group f = (h', status)) :
    Maintains h h' ∨ ∃ m, h.memtable.applyBatch (groupEntries h.nextSequence group) = .ok m ∧
      Maintains { h with memtable := m } h' := by
  unfold commitGroup at hr
  split at hr
  · cases hr
    exact .inl (.same rfl rfl)
  split at hr
  · cases hr
    exact .inl (.same rfl rfl)
  dsimp only at hr
  rcases happend : appendBatch o h (groupEntries h.nextSequence group) f.append with ⟨h₁, s₁⟩
  obtain ⟨d, t, p, rfl⟩ := appendBatch_onlyFiles happend
  rw [happend] at hr
  dsimp only at hr
  -- the MemTables are those before the WAL was written
  have hstore : ∀ {h₂ : Handle} {fault : Option RotateFault},
      h₂.storeEntries o (groupEntries h.nextSequence group) fault = (h', status) →
      h₂.memtable = h.memtable → h₂.immutable = h.immutable →
      Maintains h h' ∨ ∃ m, h.memtable.applyBatch (groupEntries h.nextSequence group) = .ok m ∧
        Maintains { h with memtable := m } h' := by
    intro h₂ fault hr hactive himmutable
    rcases storeEntries_cases hr with hsame | ⟨m, hm, hmaintains⟩
    · exact .inl (hsame.congr hactive himmutable)
    · exact .inr ⟨m, hactive ▸ hm, hmaintains.congr rfl himmutable⟩
  split at hr
  · cases hr
    exact .inl (.same rfl rfl)
  split at hr
  · split at hr
    · cases hr
      exact .inl (.same rfl rfl)
    · exact hstore hr rfl rfl
  · exact hstore hr rfl rfl

end

end Handle

/-! ## What `Open` recovers -/

/-- What the callback keeps, replay keeps. -/
theorem replayLoop_keeps {σ : Type} {apply : σ → List InternalEntry → Result σ} (P : σ → Prop)
    (happly : ∀ t es t', apply t es = .ok t' → P t → P t') {limits : DecodeLimits} {fuel : ℕ}
    {rest : Bytes} {previous : ℕ} {result result' : WalReplayResult} {t t' : σ}
    (h : replayLoop apply limits fuel rest previous result t = .ok (result', t')) (ht : P t) :
    P t' := by
  induction fuel generalizing rest previous result t with
  | zero =>
    cases h
    exact ht
  | succ fuel ih =>
    simp only [replayLoop] at h
    split at h
    · cases h
      exact ht
    split at h
    · cases h
      exact ht
    split at h
    · cases h
    split at h
    · cases h
    split at h
    · cases h
      exact ht
    split at h
    · cases h
    split at h
    · cases h
    rename_i t₁ ht₁
    exact ih h (happly _ _ _ ht₁ ht)

namespace Handle

section
variable [EntrySize] {o : Options} {h h' : Handle}

theorem recoverWal_emptyIsZero {number floor recoveredMax : ℕ} {m : MemTable}
    (hr : h.recoverWal o number floor = .ok (h', recoveredMax, m)) : m.EmptyIsZero := by
  unfold recoverWal at hr
  split at hr
  · cases hr
  split at hr
  · cases hr
  rename_i result target hreplay
  cases hr
  exact replayLoop_keeps MemTable.EmptyIsZero (fun _ _ _ happly hm => hm.applyBatch happly) hreplay
    fun _ => rfl

theorem recoverActive_emptyIsZero {floor : ℕ} (hr : h.recoverActive o floor = .ok h') :
    h'.memtable.EmptyIsZero := by
  unfold recoverActive at hr
  split at hr
  · cases hr
  rename_i hwal
  split at hr
  · cases hr
  cases hr
  exact recoverWal_emptyIsZero hwal

theorem recover_emptyIsZero {sweep : SweepFaults} (hr : h.recover o sweep = .ok h') :
    h'.memtable.EmptyIsZero := by
  unfold recover at hr
  split at hr
  · cases hr
  split at hr
  · cases hr
  rename_i h₂ hwals
  have hzero : h₂.memtable.EmptyIsZero := by
    unfold recoverWals at hwals
    split at hwals
    · exact recoverActive_emptyIsZero hwals
    split at hwals
    · cases hwals
    split at hwals
    · cases hwals
    · exact recoverActive_emptyIsZero hwals
  obtain ⟨d, t, p, hsweep⟩ := OnlyFiles.cleanupObsoleteFiles h₂ sweep.listed sweep.fails
  rw [hsweep] at hr
  cases hr
  exact hzero

theorem open_emptyIsZero {d : Directory} {listing : Listing} {sweep : SweepFaults}
    (hr : Handle.open o d listing sweep = .ok h) : h.memtable.EmptyIsZero := by
  obtain ⟨m, -, ⟨-, hrecover⟩ | ⟨-, -, h₁, -, hrecover, -⟩⟩ := open_eq_ok hr
  · exact recover_emptyIsZero hrecover
  · exact recover_emptyIsZero hrecover

end

end Handle

/-! ## The writer queue over the handle -/

section
variable [EntrySize] (o : Options)

/-- What an exception in `ApplyWriteGroup` leaves of the MemTables: they are those at the call,
behind `PrepareForWrite`, or behind `ApplyBatch`, which stores all entries or none. -/
inductive Handle.Interrupted (h : Handle) (group : List WriterRequest) (h' : Handle) : Prop
  | atCall (hactive : h'.memtable = h.memtable) (himmutable : h'.immutable = h.immutable)
  | prepared {fault : Option RotateFault} {h₁ : Handle} {status : Status}
      (hprepared : h.prepareForWrite o fault = some (h₁, status))
      (hactive : h'.memtable = h₁.memtable) (himmutable : h'.immutable = h₁.immutable)
  | stored {fault : Option RotateFault} {h₁ : Handle} {status : Status}
      (hprepared : h.prepareForWrite o fault = some (h₁, status)) (hok : status.ok)
      (hstored : h₁.memtable.applyBatch (groupEntries h₁.nextSequence group) = .ok h'.memtable)
      (himmutable : h'.immutable = h₁.immutable)

namespace System

/-- `ApplyWriteGroup` on the handle. -/
def applies (s : System) (group : List WriterRequest) (s' : System) : Outcome → Prop
  | .returned status => ∃ f h, s.handle.applyWriteGroup o group f = some (h, status) ∧
      s' = { s with handle := h }
  | .threw => ∃ h, s.handle.Interrupted o group h ∧ s' = { s with handle := h }

/-- What the other threads do. By `commits_or_maintains` this leaves out only steps that commit a
group; those go through the queue. -/
def background (s s' : System) : Prop :=
  Step o false s s' ∧ Handle.Maintains s.handle s'.handle

/-- A handle whose recovered MemTables are below the limit. -/
def openedBelow (s : System) : Prop :=
  ∃ d listing sweep h, Handle.open o d listing sweep = .ok h ∧
    h.memtable.bytes < o.memtableBytes ∧ (∀ m, h.immutable = some m → m.bytes < o.memtableBytes) ∧
    s = started h

/-- The write path of a handle. -/
def writePath : TransitionSystem (WriterQueue.State System) :=
  WriterQueue.system o (applies o) (background o) (openedBelow o)

end System

/-- What a MemTable may hold above its limit. -/
def Options.slack : ℕ := max o.maxGroupCommitBytes o.maxPendingWriteBytes

/-- The MemTables of a handle are within their bounds. -/
structure Handle.WithinMemory (h : Handle) : Prop where
  active : h.memtable.bytes < o.memtableBytes + o.slack
  immutable : ∀ m, h.immutable = some m → m.bytes < o.memtableBytes + o.slack
  zero : h.memtable.EmptyIsZero

/-- A group that `DrainWriterQueue` may select. -/
def Selected (group : List WriterRequest) : Prop :=
  (∀ r ∈ group, r.Valid o) ∧ WriterQueue.bytesOf group ≤ o.slack

end

section
variable [EntrySize] {o : Options} {h h' : Handle} {group : List WriterRequest}

omit [EntrySize] in
theorem Handle.WithinMemory.maintains (hw : h.WithinMemory o) (hm : h.Maintains h') :
    h'.WithinMemory o := by
  rcases hm with ⟨ha, hi⟩ | ⟨-, ha, hi⟩ | ⟨ha, hi⟩
  · exact ⟨ha ▸ hw.active, hi ▸ hw.immutable, ha ▸ hw.zero⟩
  · refine ⟨?_, fun m hm => ?_, ?_⟩
    · rw [ha]
      exact lt_of_le_of_lt (Nat.zero_le _) hw.active
    · rw [hi] at hm
      obtain rfl := Option.some.inj hm
      exact hw.active
    · rw [ha]
      exact fun _ => rfl
  · refine ⟨ha ▸ hw.active, fun m hm => ?_, ha ▸ hw.zero⟩
    rw [hi] at hm
    cases hm

/-- A selected group is stored in a MemTable below its limit. -/
theorem Handle.WithinMemory.store (hw : h.WithinMemory o) (hbelow : h.memtable.bytes < o.memtableBytes)
    (hgroup : Selected o group) {m : MemTable} {sequence : ℕ}
    (hm : h.memtable.applyBatch (groupEntries sequence group) = .ok m) :
    { h with memtable := m }.WithinMemory o := by
  have hbytes := (MemTable.applyBatch_eq_ok hm).bytes_eq
  rw [← bytesOf_eq_entryBytes hgroup.1] at hbytes
  have hslack := hgroup.2
  refine ⟨?_, hw.immutable, hw.zero.applyBatch hm⟩
  show m.bytes < _
  omega

/-- `ApplyWriteGroup` stays within the bounds, however it ends. -/
theorem Handle.WithinMemory.applies (ho : o.Accepted) {s s' : System} {outcome : Outcome}
    (hw : s.handle.WithinMemory o) (hgroup : Selected o group)
    (h : s.applies o group s' outcome) : s'.handle.WithinMemory o := by
  rcases outcome with status | _
  · obtain ⟨f, h, hr, rfl⟩ := h
    unfold Handle.applyWriteGroup at hr
    split at hr
    · cases hr
      exact hw
    split at hr
    · cases hr
    rename_i h₁ s₁ hp
    have hw₁ := hw.maintains (Handle.prepareForWrite_maintains hp)
    split at hr
    · cases hr
      exact hw₁
    rename_i hok
    have hbelow := Handle.prepareForWrite_below ho hw.zero hp (by simpa using hok)
    rcases Handle.commitGroup_cases (Option.some.inj hr) with hsame | ⟨m, hm, hmaintains⟩
    · exact hw₁.maintains hsame
    · exact (hw₁.store hbelow hgroup hm).maintains hmaintains
  · obtain ⟨h, hr, rfl⟩ := h
    rcases hr with ⟨ha, hi⟩ | ⟨hp, ha, hi⟩ | ⟨hp, hok, hm, hi⟩
    · exact hw.maintains (.same ha hi)
    · exact (hw.maintains (Handle.prepareForWrite_maintains hp)).maintains (.same ha hi)
    · have hw₁ := hw.maintains (Handle.prepareForWrite_maintains hp)
      have hbelow := Handle.prepareForWrite_below ho hw.zero hp hok
      exact (hw₁.store hbelow hgroup hm).maintains (.same rfl hi)

end

/-! ## One immutable MemTable -/

section
variable [EntrySize] {o : Options} {h h' : Handle} {m : MemTable}

omit [EntrySize] in
/-- `RotateMemTable` leaves an immutable MemTable where it is. -/
theorem Handle.rotateMemTable_immutable {fault : Option RotateFault} {status : Status}
    (hr : h.rotateMemTable fault = (h', status)) (hm : h.immutable = some m) :
    h'.immutable = some m := by
  rw [rotateMemTable, if_pos (by rw [hm]; rfl)] at hr
  cases hr
  exact hm

omit [EntrySize] in
theorem Handle.prepareForWrite_immutable {fault : Option RotateFault} {status : Status}
    (hr : h.prepareForWrite o fault = some (h', status)) (hm : h.immutable = some m) :
    h'.immutable = some m := by
  rcases Handle.prepareForWrite_cases hr with ⟨rfl, -⟩ | ⟨-, -, -, hrotate⟩ | ⟨rfl, -⟩
  · exact hm
  · exact rotateMemTable_immutable hrotate hm
  · exact hm

theorem Handle.applyWriteGroup_immutable {group : List WriterRequest} {f : WriteFaults}
    {status : Status} (hr : h.applyWriteGroup o group f = some (h', status))
    (hm : h.immutable = some m) : h'.immutable = some m :=
  applyWriteGroup_keeps (fun h => h.immutable = some m) (fun _ _ _ h => h) (fun _ _ _ _ h => h)
    (fun _ _ _ _ hrotate h => rotateMemTable_immutable hrotate h) hr hm

/-- A commit leaves an immutable MemTable where it is. -/
theorem System.applies_immutable {s s' : System} {group : List WriterRequest} {outcome : Outcome}
    (h : s.applies o group s' outcome) (hm : s.handle.immutable = some m) :
    s'.handle.immutable = some m := by
  rcases outcome with status | _
  · obtain ⟨f, h, hr, rfl⟩ := h
    exact Handle.applyWriteGroup_immutable hr hm
  · obtain ⟨h, hr, rfl⟩ := h
    rcases hr with ⟨-, hi⟩ | ⟨hp, -, hi⟩ | ⟨hp, -, -, hi⟩
    · exact hi.trans hm
    · exact hi.trans (Handle.prepareForWrite_immutable hp hm)
    · exact hi.trans (Handle.prepareForWrite_immutable hp hm)

end

/-! ## Every run -/

namespace WriterQueue

section
variable [EntrySize] {o : Options} {s s' : State System}

/-- The MemTables are within their bounds, and the group in the hands of a leader was selected. -/
structure MemoryBounded (o : Options) (s : State System) : Prop where
  handle : s.store.handle.WithinMemory o
  groups : ∀ t r group, s.callers t = .applying r group → Selected o group

/-- A thread moves on without applying a group. -/
theorem MemoryBounded.update (h : MemoryBounded o s) {t : ℕ} {c : Caller}
    (hstore : s'.store = s.store) (heq : s'.callers = Function.update s.callers t c)
    (hc : ∀ r group, c ≠ .applying r group) : MemoryBounded o s' where
  handle := hstore ▸ h.handle
  groups u r group hu := by
    rw [heq] at hu
    by_cases hut : u = t
    · rw [hut, Function.update_self] at hu
      exact (hc _ _ hu).elim
    · rw [Function.update_of_ne hut] at hu
      exact h.groups u r group hu

/-- What `DrainWriterQueue` takes off the queue. -/
theorem selected_selectGroup (hinv : Inv o s) (hvalid : Validated o s) :
    Selected o (selectGroup o [] 0 0 s.queueBytes s.wrapped s.queue).group := by
  have hsplit := selectGroup_append o [] 0 0 s.queueBytes s.wrapped s.queue
  rw [List.nil_append] at hsplit
  refine ⟨fun r hr => hvalid.queued r ?_, ?_⟩
  · rw [← hsplit]
    exact List.mem_append_left _ hr
  · have hbytes := congrArg bytesOf hsplit
    rw [bytesOf_append] at hbytes
    have hle : bytesOf s.queue ≤ o.maxPendingWriteBytes := hinv.bytes_eq ▸ hinv.bytes_le
    have hslack : o.maxPendingWriteBytes ≤ o.slack := le_max_right _ _
    omega

theorem MemoryBounded.step (ho : o.Accepted) (hinv : Inv o s) (hvalid : Validated o s)
    (hstep : (System.writePath o).step s s') (h : MemoryBounded o s) : MemoryBounded o s' := by
  cases hstep with
  | select _ _ =>
    refine ⟨h.handle, fun u r' group hu => ?_⟩
    simp only [State.select, Function.update_apply] at hu
    split at hu
    · obtain ⟨-, rfl⟩ := Caller.applying.inj hu
      exact selected_selectGroup hinv hvalid
    · exact h.groups u r' group hu
  | @applied t r group store outcome ht happly =>
    have hstored := h.handle.applies ho (h.groups t r group ht) happly
    have hrest : MemoryBounded o { s with store } := ⟨hstored, h.groups⟩
    rcases outcome with status | _
    · exact hrest.update rfl rfl (by simp)
    · exact hrest.update rfl rfl (by simp)
  | env henv => exact ⟨h.handle.maintains henv.2, h.groups⟩
  | wait | close => exact ⟨h.handle, h.groups⟩
  | enqueue =>
    refine h.update rfl rfl fun _ _ => ?_
    split <;> simp
  | stop =>
    refine h.update rfl rfl fun _ _ => ?_
    split <;> simp
  | resume =>
    unfold State.resume
    split <;> exact h.update rfl rfl (by simp)
  | invalid | empty | oversized | submit | reject | follow | stepDown | finish | abort
  | stopReturn | next => exact h.update rfl rfl (by simp)

theorem MemoryBounded.of_reachable (ho : o.Accepted) (hs : (System.writePath o).Reachable s) :
    MemoryBounded o s := by
  refine hs.induction (MemoryBounded o) ?_ fun s s' hreach hstep h =>
    h.step ho (Inv.of_reachable ho hreach) (Validated.of_reachable hreach) hstep
  rintro _ ⟨store, ⟨d, listing, sweep, h, hopen, hactive, himmutable, rfl⟩, rfl⟩
  refine ⟨⟨?_, fun m hm => ?_, Handle.open_emptyIsZero hopen⟩, ?_⟩
  · exact hactive.trans_le (Nat.le_add_right _ _)
  · exact (himmutable m hm).trans_le (Nat.le_add_right _ _)
  · rintro t r group ht
    cases ht

/-- The memory of the write path is bounded. In every run of a handle whose recovered MemTables are
below the limit, a group is stored only in an active MemTable below the limit; each of the two
MemTables stays below the limit and the larger of the group bytes and the queue bytes; and an
immutable MemTable stays the only one until it is flushed. -/
theorem write_path_memory_is_bounded (ho : o.Accepted) (hs : (System.writePath o).Reachable s) :
    (∀ t r group, s.callers t = .applying r group → ∀ fault h status,
      s.store.handle.prepareForWrite o fault = some (h, status) → status.ok →
        h.memtable.bytes < o.memtableBytes) ∧
    s.store.handle.memtable.bytes <
      o.memtableBytes + max o.maxGroupCommitBytes o.maxPendingWriteBytes ∧
    (∀ m, s.store.handle.immutable = some m →
      m.bytes < o.memtableBytes + max o.maxGroupCommitBytes o.maxPendingWriteBytes) ∧
    ∀ s' m, (System.writePath o).step s s' → s.store.handle.immutable = some m →
      s'.store.handle.immutable = some m ∨ s'.store.handle.immutable = none := by
  have h := MemoryBounded.of_reachable ho hs
  refine ⟨fun t r group _ fault h₁ status hr hok =>
    Handle.prepareForWrite_below ho h.handle.zero hr hok, h.handle.active, h.handle.immutable, ?_⟩
  intro s' m hstep hm
  cases hstep with
  | @applied t r group store outcome _ happly =>
    have hsame := System.applies_immutable happly hm
    rcases outcome with status | _
    · exact .inl hsame
    · exact .inl hsame
  | env henv =>
    rcases henv.2 with ⟨-, hi⟩ | ⟨hnone, -⟩ | ⟨-, hi⟩
    · exact .inl (hi.trans hm)
    · rw [hm] at hnone
      cases hnone
    · exact .inr hi
  | resume =>
    unfold State.resume
    split <;> exact .inl hm
  | invalid | empty | oversized | submit | wait | reject | enqueue | follow | stepDown | select
  | finish | abort | stop | stopReturn | close | next => exact .inl hm

end

/-- Every put fills the MemTable, and the second group rotates it. -/
theorem write_path_memory_is_bounded_rotated :
    let _ := entrySize80
    let o : Options := { memtableBytes := 1 }
    ∃ (s : State System) (m : MemTable), (System.writePath o).Reachable s ∧
      s.callers 0 = .finishing firstRequest [secondRequest] .okay ∧
      s.store.handle.immutable = some m ∧ o.memtableBytes ≤ s.store.handle.memtable.bytes ∧
      s.store.handle.memtable.bytes < 1 + 8 * 1024 * 1024 ∧ m.bytes < 1 + 8 * 1024 * 1024 := by
  intro _ o
  have htests : ((Handle.open o .empty ⟨false, []⟩ ⟨none, fun _ => false⟩).toOption.bind fun h =>
      (h.applyWriteGroup o [firstRequest] {}).bind fun r =>
        (r.1.applyWriteGroup o [secondRequest] {}).map fun r' =>
          ((h.memtable.bytes, h.immutable.isNone), (r.2, r'.2),
            decide (o.memtableBytes ≤ r'.1.memtable.bytes), r'.1.immutable.isSome)) =
      some ((0, true), (.okay, .okay), true, true) := by
    decide +kernel
  obtain ⟨h, hopen, htests⟩ := Option.bind_eq_some_iff.mp htests
  obtain ⟨⟨h₁, status₁⟩, happly₁, htests⟩ := Option.bind_eq_some_iff.mp htests
  obtain ⟨⟨h₂, status₂⟩, happly₂, htests⟩ := Option.map_eq_some_iff.mp htests
  simp only [Prod.mk.injEq, Option.isNone_iff_eq_none] at htests
  obtain ⟨⟨hbytes, himmutable⟩, ⟨rfl, rfl⟩, hfull, hsealed⟩ := htests
  obtain ⟨m, hm⟩ := Option.isSome_iff_exists.mp hsealed
  have hinit : (System.writePath o).Reachable ({ store := .started h } : State System) := by
    refine .of_init ⟨_, ⟨_, _, _, h, Handle.open_eq_ok_of_toOption hopen, ?_, ?_, rfl⟩, rfl⟩
    · rw [hbytes]
      decide
    · rw [himmutable]
      simp
  have hroom : 82 ≤ subSize o.maxPendingWriteBytes 0 := by decide
  have hroom' : 82 ≤ subSize o.maxPendingWriteBytes (subSize (addSize 0 82) 82) := by decide
  have hlength : 0 < o.maxPendingWriteRequests := by decide
  -- thread 0 commits its own put
  have hqueued := hinit.run (run_enqueue 0 rfl (by decide) (show validateWriteBatch o onePut = .ok 82
    by decide) (by decide) rfl (mustWait_eq_false hlength hroom))
  have hselected := hqueued.step (.select (t := 0) rfl (List.cons_ne_nil _ _))
  have happlies : System.applies o (.started h) [firstRequest] { System.started h with handle := h₁ }
    (.returned .okay) := ⟨{}, h₁, happly₁, rfl⟩
  have happlied := hselected.step (.applied (t := 0) rfl happlies)
  have hfinished := happlied.step (.finish (t := 0) rfl)
  -- thread 1 queues another one, which the same leader takes
  have hqueued' := hfinished.run (run_enqueue 1 rfl (by decide)
    (show validateWriteBatch o secondPut = .ok 82 by decide) (by decide) rfl
    (mustWait_eq_false hlength hroom'))
  have hselected' := hqueued'.step (.select (t := 0) rfl (List.cons_ne_nil _ _))
  have happlies' : System.applies o { System.started h with handle := h₁ } [secondRequest]
    { System.started h with handle := h₂ } (.returned .okay) := ⟨{}, h₂, happly₂, rfl⟩
  have happlied' := hselected'.step (.applied (t := 0) rfl happlies')
  have haccepted : o.Accepted := by constructor <;> decide
  obtain ⟨-, hactive, hbounded, -⟩ := write_path_memory_is_bounded haccepted happlied'
  exact ⟨_, m, happlied', rfl, hm, of_decide_eq_true hfull, hactive, hbounded m hm⟩

end WriterQueue

end TinyLsm
