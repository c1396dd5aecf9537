import TinyLsm.Db.CompactionRun
import TinyLsm.Db.PublishedFiles

/-!
# The commit of the writer queue is the commit of the handle

Group commit is stated over the part of the database that `ApplyWriteGroup` reads and writes. Here
that part is found in the handle and its directory, and every `ApplyWriteGroup` of the handle, with
its faults, is one of that part.
-/

namespace TinyLsm

namespace Handle

/-- The handle holds what the commit state says, the active WAL in the directory. -/
structure Models (h : Handle) (c : CommitState) : Prop where
  memtable : c.memtable = h.memtable
  immutable : c.immutable = h.immutable
  tables : c.tables = h.tables.map Table.entries
  nextSequence : c.nextSequence = h.nextSequence
  wal : ∃ f, h.dir.files (.wal h.manifest.activeWalNumber) = some f ∧ f.data = c.wal
  /-- The number of the next WAL is free. -/
  number_lt : h.manifest.activeWalNumber < h.manifest.nextFileNumber

namespace Models

variable {o : Options} {h h' : Handle} {c : CommitState}

/-- A file operation that leaves the active WAL alone. -/
theorem perform (hm : h.Models c) {op : DirOp}
    (hop : (op.apply h.dir).files (.wal h.manifest.activeWalNumber) =
      h.dir.files (.wal h.manifest.activeWalNumber)) : (h.perform op).Models c :=
  ⟨hm.memtable, hm.immutable, hm.tables, hm.nextSequence, by simpa [hop] using hm.wal, hm.number_lt⟩

/-- A sync changes no bytes. -/
theorem sync (hm : h.Models c) (name : FileName) : (h.perform (.sync name)).Models c := by
  obtain ⟨f, hf, hdata⟩ := hm.wal
  refine ⟨hm.memtable, hm.immutable, hm.tables, hm.nextSequence, ?_, hm.number_lt⟩
  by_cases hname : FileName.wal h.manifest.activeWalNumber = name
  · exact ⟨{ f with synced := f.data.length }, by simp [DirOp.apply, ← hname, hf], hdata⟩
  · exact ⟨f, by simp [DirOp.apply, Function.update_of_ne hname, hf], hdata⟩

theorem append (hm : h.Models c) (bytes : Bytes) :
    (h.perform (.append (.wal h.manifest.activeWalNumber) bytes)).Models
      { c with wal := c.wal ++ bytes } := by
  obtain ⟨f, hf, hdata⟩ := hm.wal
  refine ⟨hm.memtable, hm.immutable, hm.tables, hm.nextSequence, ?_, hm.number_lt⟩
  exact ⟨{ f with data := f.data ++ bytes }, by simp [DirOp.apply, hf], by rw [← hdata]⟩

/-- The replacement WAL has a number of its own. -/
theorem create (hm : h.Models c) :
    (h.perform (.create (.wal (h.manifest.nextFileNumber + 1)))).Models c := by
  refine hm.perform (Function.update_of_ne ?_ _ _)
  have hlt := hm.number_lt
  simp only [ne_eq, FileName.wal.injEq]
  omega

theorem walPrepared (hm : h.Models c) (hw : WalPrepared h h') : h'.Models c := by
  cases hw with
  | start => exact hm
  | created => exact hm.create
  | synced => exact hm.create.sync _

theorem terminal (hm : h.Models c) (status : Status) :
    { h with terminalError := some status }.Models c :=
  ⟨hm.memtable, hm.immutable, hm.tables, hm.nextSequence, hm.wal, hm.number_lt⟩

/-- A rotation seals the active WAL and starts an empty one. -/
theorem rotated (hm : h.Models c) : h.rotated.Models { c with
    memtable := .empty
    immutable := some c.memtable
    wal := []
    sealedWals := c.sealedWals ++ [c.wal] } := by
  refine ⟨?_, ?_, ?_, ?_, ⟨⟨[], 0⟩, ?_, rfl⟩, ?_⟩
  · simp [Handle.rotated]
  · simp [Handle.rotated, withWal, hm.memtable]
  · simp [Handle.rotated, withWal, hm.tables]
  · simp [Handle.rotated, withWal, hm.nextSequence]
  · simp [Handle.rotated, withWal, rotatedManifest, DirOp.apply]
  · simp [Handle.rotated, rotatedManifest]

/-- Each outcome of a rotation is one of the commit state. -/
theorem rotate {fault : Option RotateFault} {status : Status} (hm : h.Models c)
    (hr : h.rotateMemTable fault = (h', status)) :
    ∃ fault' c', c.rotateMemTable fault' = (c', status) ∧ h'.Models c' ∧
      c'.openStatus = c.openStatus ∧ (status.ok → h'.checkOpen = h.checkOpen) := by
  by_cases himmutable : h.immutable.isSome
  · have hstate : c.rotateMemTable none =
        (c, .corruption "cannot rotate while immutable MemTable exists") := by
      simp [CommitState.rotateMemTable, hm.immutable, himmutable]
    rw [rotateMemTable, if_pos himmutable] at hr
    cases hr
    exact ⟨none, c, hstate, hm, rfl, fun _ => rfl⟩
  by_cases hempty : h.memtable.isEmpty
  · have hstate : c.rotateMemTable none = (c, .okay) := by
      simp [CommitState.rotateMemTable, hm.immutable, himmutable, hm.memtable, hempty]
    rw [rotateMemTable, if_neg himmutable, if_pos hempty] at hr
    cases hr
    exact ⟨none, c, hstate, hm, rfl, fun _ => rfl⟩
  -- behind these checks a failure leaves the commit state as it is
  have hfails : ∀ s : Failure, c.rotateMemTable (some s) = (c, s.1) := by
    simp [CommitState.rotateMemTable, hm.immutable, himmutable, hm.memtable, hempty]
  rcases rotateMemTable_cases hr with ⟨hwal, hok⟩ | ⟨rfl, hfail, -⟩ | ⟨rfl, rfl, -⟩
  · have hfail : status.ok = false := by
      by_contra hne
      exact hempty (hok (by simpa using hne)).2.2
    exact ⟨some ⟨status, hfail⟩, c, hfails _, hm.walPrepared hwal, rfl, by simp [hfail]⟩
  · refine ⟨some ⟨status, hfail⟩, c, hfails _, ?_, rfl, by simp [hfail]⟩
    exact ((hm.walPrepared .synced).perform (by rfl)).terminal status
  · refine ⟨none, _, ?_, hm.rotated, rfl, fun _ => ?_⟩
    · simp [CommitState.rotateMemTable, hm.immutable, himmutable, hm.memtable, hempty]
    obtain ⟨d, t, heq⟩ := h.rotated_eq
    rw [heq]
    rfl

variable [EntrySize] {entries : List InternalEntry} {group : List WriterRequest} {status : Status}

omit [EntrySize] in
theorem prepareForWrite {fault : Option RotateFault} (hm : h.Models c)
    (hopen : c.openStatus = h.checkOpen) (hr : h.prepareForWrite o fault = some (h', status)) :
    ∃ fault' c', TinyLsm.prepareForWrite o c fault' = some (c', status) ∧ h'.Models c' := by
  have hblocked : ¬(h.immutable.isSome ∧ o.memtableBytes ≤ h.memtable.bytes) := by
    intro hblocked
    rw [Handle.prepareForWrite, if_pos hblocked] at hr
    cases hr
  rcases prepareForWrite_cases hr with
    ⟨rfl, rfl, hfail⟩ | ⟨hok, himmutable, hfull, hrotate⟩ | ⟨rfl, rfl, hok, hroom⟩
  · refine ⟨none, c, ?_, hm⟩
    simp [TinyLsm.prepareForWrite, hm.immutable, hm.memtable, hopen, hblocked, hfail]
  · obtain ⟨fault', c', hstate, hm', -, -⟩ := hm.rotate hrotate
    refine ⟨fault', c', ?_, hm'⟩
    simp [TinyLsm.prepareForWrite, hm.immutable, hm.memtable, hopen, hok, himmutable, hfull, hstate]
  · refine ⟨none, c, ?_, hm⟩
    simp [TinyLsm.prepareForWrite, hm.immutable, hm.memtable, hopen, hok, not_le.mpr hroom]

omit [EntrySize] in
theorem appendBatch {fault : Option (Failure × ℕ)} (hm : h.Models c)
    (hr : h.appendBatch o entries fault = (h', status)) :
    ∃ c', TinyLsm.appendBatch o c entries fault = (c', status) ∧ h'.Models c' := by
  unfold Handle.appendBatch at hr
  unfold TinyLsm.appendBatch
  cases hencode : encodeWalBatch entries o.limits with
  | error s =>
    rw [hencode] at hr
    cases hr
    exact ⟨c, rfl, hm⟩
  | ok bytes =>
    rw [hencode] at hr
    obtain _ | ⟨s, written⟩ := fault
    · cases hr
      exact ⟨_, rfl, hm.append bytes⟩
    · cases hr
      exact ⟨_, rfl, hm.append _⟩

theorem storeEntries {fault : Option RotateFault} (hm : h.Models c)
    (hr : h.storeEntries o entries fault = (h', status)) :
    ∃ fault' c', (∀ f : CommitFaults, f.rotateAfter = fault' →
      TinyLsm.storeEntries o f c entries = (c', status)) ∧ h'.Models c' := by
  have hstored : ∀ m, { h with
      memtable := m, nextSequence := h.nextSequence + entries.length }.Models
        { c with memtable := m, nextSequence := c.nextSequence + entries.length } := fun m =>
    ⟨rfl, hm.immutable, hm.tables, by rw [hm.nextSequence], hm.wal, hm.number_lt⟩
  dsimp only [Handle.storeEntries] at hr
  simp only [TinyLsm.storeEntries, hm.memtable]
  cases happly : h.memtable.applyBatch entries with
  | error s =>
    rw [happly] at hr
    cases hr
    exact ⟨none, _, fun _ _ => rfl, hstored h.memtable⟩
  | ok m =>
    rw [happly] at hr
    dsimp only at hr ⊢
    rw [hm.immutable]
    split at hr
    · rename_i hfull
      obtain ⟨fault', c', hstate, hm', -, -⟩ := (hstored m).rotate hr
      refine ⟨fault', c', fun f hf => ?_, hm'⟩
      rw [if_pos hfull, hf, ← hstate, hm.immutable]
    · rename_i hroom
      cases hr
      refine ⟨none, _, fun f _ => ?_, hstored m⟩
      rw [if_neg hroom, hm.immutable]

theorem commitGroup {f : WriteFaults} (hm : h.Models c)
    (hr : h.commitGroup o group f = (h', status)) :
    ∃ fault' c', (∀ g : CommitFaults, g.append = f.append → g.sync = f.sync →
      g.rotateAfter = fault' → TinyLsm.commitGroup o g c group = (c', status)) ∧ h'.Models c' := by
  unfold Handle.commitGroup at hr
  simp only [TinyLsm.commitGroup]
  cases hcount : countGroup 0 0 group with
  | error s =>
    rw [hcount] at hr
    cases hr
    exact ⟨none, c, fun _ _ _ _ => rfl, hm⟩
  | ok count =>
    rw [hcount] at hr
    dsimp only at hr ⊢
    rw [hm.nextSequence]
    split at hr
    · rename_i hspace
      cases hr
      exact ⟨none, c, fun _ _ _ _ => by rw [if_pos hspace], hm⟩
    rename_i hspace
    simp only [if_neg hspace]
    rcases happend : h.appendBatch o (groupEntries h.nextSequence group) f.append with ⟨h₁, s₁⟩
    obtain ⟨c₁, hstate, hm₁⟩ := hm.appendBatch happend
    rw [happend] at hr
    dsimp only at hr
    split at hr
    · rename_i hfail
      cases hr
      refine ⟨none, c₁, fun g hg _ _ => ?_, hm₁⟩
      rw [hg, ← groupEntries, hstate]
      simp [hfail]
    rename_i hok
    split at hr
    -- with `sync_on_write` the sync may fail; its bytes are those that were appended
    · rename_i hsync
      cases hfault : f.sync with
      | some s =>
        rw [hfault] at hr
        cases hr
        refine ⟨none, c₁, fun g hg hg' _ => ?_, hm₁⟩
        rw [hg, hg', ← groupEntries, hstate]
        simp [hok, hsync, Option.filter]
      | none =>
        rw [hfault] at hr
        obtain ⟨fault', c', hstored, hm'⟩ := (hm₁.sync _).storeEntries hr
        refine ⟨fault', c', fun g hg hg' hrotate => ?_, hm'⟩
        rw [hg, hg', ← groupEntries, hstate]
        simp [hok, hstored g hrotate]
    · rename_i hsync
      obtain ⟨fault', c', hstored, hm'⟩ := hm₁.storeEntries hr
      refine ⟨fault', c', fun g hg hg' hrotate => ?_, hm'⟩
      rw [hg, hg', ← groupEntries, hstate]
      simp [hok, hsync, hstored g hrotate]

end Models

/-- Every `ApplyWriteGroup` of the handle is one of the commit state: with the same status, and the
commit state that it leaves is found in the handle that it leaves. -/
theorem applyWriteGroup_simulates [EntrySize] {o : Options} {h h' : Handle} {c : CommitState}
    {group : List WriterRequest} {f : WriteFaults} {status : Status} (hm : h.Models c)
    (hopen : c.openStatus = h.checkOpen) (hr : h.applyWriteGroup o group f = some (h', status)) :
    ∃ c', Applies o c group c' (.returned status) ∧ h'.Models c' := by
  unfold Handle.applyWriteGroup at hr
  split at hr
  · rename_i hgroup
    cases hr
    exact ⟨c, .returns {} (by simp [TinyLsm.applyWriteGroup, hgroup]), hm⟩
  rename_i hgroup
  split at hr
  · cases hr
  rename_i h₁ s₁ hprepare
  obtain ⟨before, c₁, hstate, hm₁⟩ := hm.prepareForWrite hopen hprepare
  split at hr
  · rename_i hfail
    cases hr
    refine ⟨c₁, .returns { rotateBefore := before } ?_, hm₁⟩
    simp [TinyLsm.applyWriteGroup, hgroup, hstate, hfail]
  · rename_i hok
    obtain ⟨after, c', hcommit, hm'⟩ := hm₁.commitGroup (Option.some.inj hr)
    let g : CommitFaults := ⟨before, f.append, f.sync, after⟩
    refine ⟨c', .returns g ?_, hm'⟩
    simp [TinyLsm.applyWriteGroup, hgroup, g, hstate, hok, hcommit g rfl rfl rfl]

/-- `PrepareForWrite` waits while both MemTables are full. -/
theorem prepareForWrite_eq_none_iff {o : Options} {h : Handle} {fault : Option RotateFault} :
    h.prepareForWrite o fault = none ↔ h.immutable.isSome ∧ o.memtableBytes ≤ h.memtable.bytes := by
  unfold Handle.prepareForWrite
  split
  · rename_i hblocked
    simp [hblocked]
  · rename_i hblocked
    refine iff_of_false ?_ hblocked
    split
    · simp
    · split <;> simp

/-- Where `ApplyWriteGroup` waits on the handle, it waits on the commit state. -/
theorem applyWriteGroup_waits [EntrySize] {o : Options} {h : Handle} {c : CommitState}
    {group : List WriterRequest} {f : WriteFaults} (hm : h.Models c)
    (hwait : h.applyWriteGroup o group f = none) (g : CommitFaults) :
    TinyLsm.applyWriteGroup o g c group = none := by
  unfold Handle.applyWriteGroup at hwait
  split at hwait
  · cases hwait
  rename_i hgroup
  split at hwait
  · rename_i hprepare
    have hblocked := prepareForWrite_eq_none_iff.mp hprepare
    simp [TinyLsm.applyWriteGroup, hgroup, TinyLsm.prepareForWrite, hm.immutable, hm.memtable,
      hblocked]
  · split at hwait <;> cases hwait

end Handle

/-- The commit state in a handle whose published files are there. -/
theorem Present.exists_models {o : Options} {d₀ : Directory} {readers : Set Table} {h : Handle}
    {w : Worker} (hp : Present h w) (ha : Allocated o d₀ h w readers) :
    ∃ c, h.Models c ∧ c.openStatus = h.checkOpen := by
  obtain ⟨f, hf⟩ := Option.isSome_iff_exists.mp (hp.wals h.manifest.activeWalNumber (.inl rfl))
  exact ⟨⟨h.memtable, h.immutable, h.tables.map Table.entries, h.nextSequence, h.checkOpen, f.data,
    [], []⟩, ⟨rfl, rfl, rfl, rfl, ⟨f, hf, rfl⟩, ha.valid.active_lt⟩, rfl⟩

/-- In every run without failing file operations whose explicit compactions sweep beside no output
of the worker, each `ApplyWriteGroup`, also one that fails then, is one of the commit state. -/
theorem write_is_commit [EntrySize] {o : Options} {d : Directory} (hd : d.Written)
    {listing : Listing} {sweep : SweepFaults} (hfails : sweep.fails = fun _ => false) {h : Handle}
    (hopen : Handle.open o d listing sweep = .ok h) {s : System}
    (hrun : (System.quiet o).Run (System.started h) s) {group : List WriterRequest}
    {f : WriteFaults} {h' : Handle} {status : Status}
    (hr : s.handle.applyWriteGroup o group f = some (h', status)) :
    ∃ c c', s.handle.Models c ∧ Applies o c group c' (.returned status) ∧ h'.Models c' := by
  have hp := Present.of_run hd hfails hopen hrun
  have hsteps : (System.system o true).Run (System.started h) s := by
    refine hrun.keeps (fun s₁ s₂ hstep hs => ?_) .refl
    exact hs.tail hstep.1
  obtain ⟨readers, hk⟩ := Kept.of_run hd hopen hsteps
  obtain ⟨c, hm, hstatus⟩ := hp.exists_models hk.allocated
  obtain ⟨c', happlies, hm'⟩ := Handle.applyWriteGroup_simulates hm hstatus hr
  exact ⟨c, c', hm, happlies, hm'⟩

end TinyLsm
