import TinyLsm.Db.CompactionRun
import TinyLsm.Db.PendingFlush
import TinyLsm.Db.WriteMemory
import TinyLsm.Sstable.AcceptedBlocks

/-!
# What the next table takes

The versions of the MemTables and of the tables can be stored in a table, and the Manifest that
names an immutable WAL has a file number left for its table, in every directory the program leaves
behind.
-/

namespace TinyLsm

/-! ## Versions -/

/-- A block that is read has passed the checks of its decoder. -/
theorem SSTableReader.clean_of_readBlock {r : SSTableReader} {m : BlockMeta}
    {es : List InternalEntry} (h : r.readBlock m = .ok es) : ∀ e ∈ es, e.Clean := by
  obtain ⟨_, -, hdecode⟩ := readBlock_decoded h
  exact (decodeDataBlock_accepted hdecode).clean

theorem SSTableReader.Valid.clean {r : SSTableReader} {bss : List (List InternalEntry)}
    (h : r.Valid bss) : ∀ e ∈ bss.flatten, e.Clean := by
  intro e he
  obtain ⟨bs, hbs, he⟩ := List.mem_flatten.mp he
  obtain ⟨m, -, hread, -⟩ := TableFile.forall₂_exists h.blocks.flip hbs
  exact clean_of_readBlock hread e he

theorem BatchFits.clean {limits : DecodeLimits} {es : List InternalEntry} {previous : ℕ}
    (h : BatchFits limits previous es) : ∀ e ∈ es, e.Clean := by
  induction es generalizing previous with
  | nil => simp
  | cons a es ih =>
    obtain ⟨-, -, -, -, -, -, htombstone, hrest⟩ := h
    intro e he
    rcases List.mem_cons.mp he with rfl | he
    · exact htombstone
    · exact ih hrest e he

/-- The versions of a record that replay accepts. -/
theorem clean_of_decodeFrame {limits : DecodeLimits} {version previous : ℕ} {record : Bytes}
    {es : List InternalEntry} (h : decodeFrame limits version previous record = .ok es) :
    ∀ e ∈ es, e.Clean := by
  obtain ⟨r, henc, rfl, -⟩ := decodeFrame_eq_ok h
  cases r with
  | single e =>
    intro e' he
    obtain rfl := List.mem_singleton.mp he
    exact henc.tombstone
  | batch es => exact henc.fits.clean

/-- The versions of a MemTable can be stored. -/
structure MemTable.Clean (m : MemTable) : Prop where
  inv : m.Inv
  clean : ∀ e ∈ m.contents, e.Clean

section
variable [EntrySize]

theorem MemTable.Clean.applyBatch {m m' : MemTable} {es : List InternalEntry} (h : m.Clean)
    (hes : ∀ e ∈ es, e.Clean) (happly : m.applyBatch es = .ok m') : m'.Clean := by
  obtain ⟨hinv, hmem, -⟩ := h.inv.applyBatch happly
  refine ⟨hinv, fun e he => ?_⟩
  rcases (hmem e).mp he with he | he
  · exact h.clean e he
  · exact hes e he

theorem replayLoop_clean {limits : DecodeLimits} {fuel : ℕ} {rest : Bytes} {previous : ℕ}
    {result result' : WalReplayResult} {m m' : MemTable}
    (h : replayLoop MemTable.applyBatch limits fuel rest previous result m = .ok (result', m'))
    (hm : m.Clean) : m'.Clean := by
  induction fuel generalizing rest previous result m with
  | zero =>
    cases h
    exact hm
  | succ fuel ih =>
    simp only [replayLoop] at h
    split at h
    · cases h
      exact hm
    split at h
    · cases h
      exact hm
    split at h
    · cases h
    split at h
    · cases h
    split at h
    · cases h
      exact hm
    split at h
    · cases h
    rename_i es hframe
    split at h
    · cases h
    rename_i m₁ happly
    exact ih h (hm.applyBatch (clean_of_decodeFrame hframe) happly)

end

/-- The versions of the MemTables of a handle can be stored. -/
def Handle.MemTablesClean (h : Handle) : Prop := ∀ m ∈ h.memtables, m.Clean

namespace Handle.MemTablesClean

variable {o : Options} {h h' : Handle}

theorem maintains (hm : Maintains h h') (hc : h.MemTablesClean) : h'.MemTablesClean := by
  have hempty : MemTable.empty.Clean :=
    ⟨MemTable.inv_empty, by simp [MemTable.empty, MemTable.contents]⟩
  intro m hmem
  unfold Handle.memtables at hmem
  rcases hm with ⟨ha, hi⟩ | ⟨-, ha, hi⟩ | ⟨ha, hi⟩
  · rw [ha, hi] at hmem
    exact hc m hmem
  · rw [ha, hi] at hmem
    rcases List.mem_cons.mp hmem with rfl | hmem
    · exact hempty
    · obtain rfl := List.mem_singleton.mp hmem
      exact hc _ List.mem_cons_self
  · rw [ha, hi] at hmem
    obtain rfl := List.mem_singleton.mp hmem
    exact hc _ List.mem_cons_self

section
variable [EntrySize]

theorem applyWriteGroup {group : List WriterRequest} {f : WriteFaults} {status : Status}
    (hr : h.applyWriteGroup o group f = some (h', status)) (hc : h.MemTablesClean) :
    h'.MemTablesClean := by
  have hprepared : ∀ {h₁ s₁}, h.prepareForWrite o f.rotateBefore = some (h₁, s₁) →
      h₁.MemTablesClean := fun hprepare => hc.maintains (prepareForWrite_maintains hprepare)
  cases applyWriteGroup_writesTo hr with
  | empty => exact hc
  | refused hprepare => exact hprepared hprepare
  | torn hprepare => exact (hprepared hprepare).maintains (.onlyFiles (.perform _ _))
  | unsynced hprepare => exact (hprepared hprepare).maintains (.onlyFiles (.perform _ _))
  | @stored h₁ _ bytes _ _ hprepare _ hencode _ hstore =>
    have hlogged : (h₁.logged o bytes).MemTablesClean :=
      (hprepared hprepare).maintains (.onlyFiles (onlyFiles_logged o _ _))
    rcases storeEntries_cases hstore with hsame | ⟨m, hm, hmaintains⟩
    · exact hlogged.maintains hsame
    · refine maintains hmaintains fun m' hmem => ?_
      rcases List.mem_cons.mp hmem with rfl | hmem
      · exact (hlogged _ List.mem_cons_self).applyBatch (encodeWalBatch_eq_ok hencode).fits.clean hm
      · exact hlogged m' (List.mem_cons_of_mem _ hmem)

theorem step {faultFree : Bool} {s s' : System} (hstep : System.Step o faultFree s s')
    (hc : s.handle.MemTablesClean) : s'.handle.MemTablesClean := by
  rcases hstep.commits_or_maintains with ⟨group, f, status, happly, -⟩ | hm
  · exact hc.applyWriteGroup happly
  · exact hc.maintains hm

theorem recoverWal {number floor recoveredMax : ℕ} {m : MemTable}
    (hr : h.recoverWal o number floor = .ok (h', recoveredMax, m)) : m.Clean := by
  unfold Handle.recoverWal at hr
  split at hr
  · cases hr
  split at hr
  · cases hr
  rename_i result target hreplay
  cases hr
  exact replayLoop_clean hreplay ⟨MemTable.inv_empty, by simp [MemTable.empty, MemTable.contents]⟩

theorem recoverActive {floor : ℕ} (hr : h.recoverActive o floor = .ok h') :
    h'.memtable.Clean ∧ h'.immutable = h.immutable := by
  unfold Handle.recoverActive at hr
  split at hr
  · cases hr
  rename_i h₁ recoveredMax m hwal
  split at hr
  · cases hr
  cases hr
  obtain ⟨d, t, p, rfl⟩ := recoverWal_eq_ok hwal
  exact ⟨recoverWal hwal, rfl⟩

theorem recoverWals (himmutable : h.immutable = none) (hr : h.recoverWals o = .ok h') :
    h'.MemTablesClean := by
  have hof : ∀ {i : Option MemTable}, h'.memtable.Clean ∧ h'.immutable = i →
      (∀ m, i = some m → m.Clean) → h'.MemTablesClean := by
    rintro i ⟨hactive, rfl⟩ hi m hm
    rcases List.mem_cons.mp hm with rfl | hm
    · exact hactive
    · exact hi m (by simpa using hm)
  unfold Handle.recoverWals at hr
  split at hr
  · exact hof (recoverActive hr) (by simp [himmutable])
  split at hr
  · cases hr
  rename_i h₁ recoveredMax m hwal
  split at hr
  · cases hr
  refine hof (recoverActive hr) fun m' hm' => ?_
  obtain rfl := Option.some.inj hm'
  exact recoverWal hwal

theorem recovered {sweep : SweepFaults} {d : Directory} {m : ManifestSnapshot} {t : List DirOp}
    (hr : (blank d m t).recover o sweep = .ok h) : h.MemTablesClean := by
  unfold Handle.recover at hr
  split at hr
  · cases hr
  rename_i h₁ htables
  split at hr
  · cases hr
  rename_i h₂ hwals
  unfold openManifestSSTables at htables
  split at htables
  · cases htables
  cases htables
  cases hr
  have hc : h₂.MemTablesClean := recoverWals rfl hwals
  exact (hc.maintains (.onlyFiles (.cleanupObsoleteFiles h₂ _ _))).maintains (.same rfl rfl)

theorem opened {d : Directory} {listing : Listing} {sweep : SweepFaults}
    (hopen : Handle.open o d listing sweep = .ok h) : h.MemTablesClean := by
  obtain ⟨m, -, ⟨-, hrecover⟩ | ⟨-, rfl, h₁, -, hrecover, hblank⟩⟩ := open_eq_ok hopen
  · exact recovered hrecover
  · rw [hblank] at hrecover
    exact recovered hrecover

end

end Handle.MemTablesClean

/-! ## The number of the next flush -/

/-- The number before the active WAL is one for the table of the immutable WAL. -/
def ManifestSnapshot.ReservesFlush (m : ManifestSnapshot) : Prop :=
  m.immutableWalNumber ≠ 0 → 2 ≤ m.activeWalNumber

namespace ManifestSnapshot.ReservesFlush

variable {o : Options} {m next : ManifestSnapshot} {h h' : Handle}

theorem congr (hr : m.ReservesFlush) (himmutable : next.immutableWalNumber = m.immutableWalNumber)
    (hactive : next.activeWalNumber = m.activeWalNumber) : next.ReservesFlush := by
  unfold ReservesFlush
  rw [himmutable, hactive]
  exact hr

theorem compacted (hr : m.ReservesFlush) (job : CompactionJob) (replacement : Option Output) :
    (Handle.compactedManifest m job replacement).ReservesFlush :=
  hr.congr (FlushPending.compactedManifest_immutableWal m job replacement)
    (FlushPending.compactedManifest_activeWal m job replacement)

theorem rotated (hvalid : m.Valid) : (Handle.rotatedManifest m).ReservesFlush := by
  have hpos := Nat.pos_of_ne_zero hvalid.active_pos
  have hlt := hvalid.active_lt
  intro _
  show 2 ≤ m.nextFileNumber + 1
  omega

section
variable [EntrySize] {s s' : System} {faultFree : Bool}

/-- The Manifests that regions hand to `Publish`. -/
theorem publishes (hl : Layered o s.handle s.worker) (hr : s.handle.manifest.ReservesFlush)
    (hnext : s.Publishes o next) : next.ReservesFlush := by
  cases hnext with
  | rotateBefore _ _ hnext =>
    rw [hnext.next_eq]
    exact rotated hl.valid
  | @rotateBehind group f h₁ _ bytes memtable hprepare _ _ _ _ hnext =>
    have hlogged : (h₁.logged o bytes).manifest = h₁.manifest := by
      obtain ⟨d, t, p, heq⟩ := h₁.onlyFiles_logged o bytes
      rw [heq]
    rw [hnext.next_eq]
    show (Handle.rotatedManifest (h₁.logged o bytes).manifest).ReservesFlush
    rw [hlogged]
    exact rotated (hl.prepareForWrite hprepare).valid
  | rotateClose _ hnext =>
    rw [hnext.next_eq]
    exact rotated hl.valid
  | flush _ hnext =>
    rw [hnext.next_eq]
    exact fun hne => absurd rfl hne
  | reserve _ hnext =>
    rw [hnext.next_eq]
    exact hr
  | compact _ hnext | drop _ hnext =>
    rw [hnext.next_eq]
    exact hr.compacted _ _
  | @explicit t inputCount f h job replacement _ hreach hnext =>
    have hfiles : s.handle.OnlyFiles h := by
      cases hreach with
      | drop _ hsweep =>
        rw [hsweep]
        exact .cleanupObsoleteFiles _ _ _
      | build _ hsweep _ hbuild =>
        rw [hsweep] at hbuild
        exact (Handle.OnlyFiles.cleanupObsoleteFiles _ _ _).trans (.buildOutput hbuild)
    obtain ⟨d, t, p, rfl⟩ := hfiles
    rw [hnext.next_eq]
    exact compacted hr _ _

omit [EntrySize] in
theorem rotate {fault : Option RotateFault} {status : Status}
    (hrotate : h.rotateMemTable fault = (h', status)) (hvalid : h.manifest.Valid)
    (hr : h.manifest.ReservesFlush) : h'.manifest.ReservesFlush := by
  rcases Handle.rotateMemTable_cases hrotate with ⟨hwal, -⟩ | ⟨rfl, -⟩ | ⟨rfl, -⟩
  · obtain ⟨d, t, p, rfl⟩ := hwal.onlyFiles
    exact hr
  · exact hr
  · obtain ⟨d, t, heq⟩ := h.rotated_eq
    rw [heq]
    exact rotated hvalid

omit [EntrySize] in
theorem commitCompaction {job : CompactionJob} {replacement : Option Output}
    {fault : Option PublishFault} {fails : FileName → Bool} {status : Status}
    (hc : h.commitCompaction job replacement fault fails = (h', status))
    (hr : h.manifest.ReservesFlush) : h'.manifest.ReservesFlush := by
  rcases Handle.commitCompaction_cases hc with ⟨rfl, -⟩ | ⟨rfl, -⟩ | ⟨rfl, -⟩
  · exact hr
  · exact hr
  · obtain ⟨d, t, p, heq⟩ := h.installCompaction_eq
      (Handle.compactedManifest h.manifest job replacement) job replacement fails
    rw [heq]
    exact hr.compacted job replacement

theorem applyWriteGroup {w : Worker} {group : List WriterRequest} {f : WriteFaults}
    {status : Status} (happly : h.applyWriteGroup o group f = some (h', status))
    (hl : Layered o h w) (hr : h.manifest.ReservesFlush) : h'.manifest.ReservesFlush := by
  have hkeeps := Handle.applyWriteGroup_keeps
    (fun h => Layered o h w ∧ h.manifest.ReservesFlush)
    (fun h op _ hP => ⟨hP.1.onlyFiles (.perform h op), hP.2⟩)
    (fun h m n hstores hP => ⟨hP.1.store hstores, hP.2⟩)
    (fun h h' fault status hrotate hP => ⟨hP.1.rotate hrotate, hP.2.rotate hrotate hP.1.valid⟩)
    happly ⟨hl, hr⟩
  exact hkeeps.2

/-- The current Manifest. -/
theorem step (hstep : System.Step o faultFree s s') (hl : Layered o s.handle s.worker)
    (hr : s.handle.manifest.ReservesFlush) : s'.handle.manifest.ReservesFlush := by
  have hfiles : ∀ {h' : Handle}, s.handle.OnlyFiles h' → h'.manifest.ReservesFlush := by
    rintro h' ⟨d, t, p, rfl⟩
    exact hr
  have hflags : ∀ {h h' : Handle}, h.OnlyFlags h' → h.manifest.ReservesFlush →
      h'.manifest.ReservesFlush := by
    rintro h h' ⟨e, c₁, c₂, r₁, r₂, f₁, f₂, k, rfl⟩ hr
    exact hr
  cases hstep with
  | write f _ happly => exact applyWriteGroup happly hl hr
  | getSnapshot | releaseSnapshot | workerExit | compactMerge | workerException | compactCall
  | compactResume | closeWake | next => exact hr
  | workerClaim => exact hflags (.claim _) hr
  | flushBegin sweep _ _ hbegin => exact hfiles (Handle.beginFlush_cases hbegin).1
  | flushBuild fault _ _ hphase hbuild => exact hfiles (.buildStep (by simp) hphase hbuild)
  | flushCommit fault _ _ hcommit =>
    rcases Handle.commitFlush_cases hcommit with ⟨rfl, -⟩ | ⟨rfl, -⟩ | ⟨rfl, -⟩
    · exact hr
    · exact hr
    · exact fun hne => absurd rfl hne
  | flushRemove fails => exact hfiles (.bestEffortRemove _ _ _)
  | compactBegin fault _ _ hbegin =>
    rcases Handle.beginBackgroundCompaction_cases hbegin with ⟨rfl, -⟩ | ⟨_, rfl, -⟩ | ⟨rfl, -⟩
    · exact hr
    · exact hr
    · exact hr
  | compactBuild fault _ _ hphase hbuild =>
    exact hfiles (.buildStep Handle.compactionChecked_error hphase hbuild)
  | compactCommit fault fails _ _ hcommit | compactDrop fault fails _ _ hcommit =>
    exact hr.commitCompaction hcommit
  | workerAccount => exact hflags (.account _ _ _) hr
  | compactRun f _ _ hrun =>
    exact Handle.compactTablePrefix_keeps (·.manifest.ReservesFlush)
      (by rintro h _ ⟨d, t, p, rfl⟩ hr; exact hr)
      (fun _ _ _ _ _ _ _ hcommit hr => hr.commitCompaction hcommit) hrun hr
  | closeCall =>
    split
    · exact hr
    · exact hr
  | closeRound fault _ _ hround =>
    rcases Handle.closeRound_cases hround with h | ⟨h₁, status, hrotate, h⟩
    · exact hflags h hr
    · exact hflags h (hr.rotate hrotate hl.valid)
  | closeSync fault _ _ hsync =>
    rcases Handle.closeSyncWal_cases hsync with h | h
    · exact hflags h hr
    · exact hflags h (hfiles (.perform _ _))
  | closeJoined fault _ _ _ hdone =>
    cases hdone
    exact hr

/-- A run starts with the Manifest that `Open` found or made, and publishes such ones. -/
theorem run (hrun : (System.system o faultFree).Run s s') (hl : Layered o s.handle s.worker)
    (hr : s.handle.manifest.ReservesFlush)
    (htrace : ∀ m, DirOp.publish m ∈ s.handle.trace → m.ReservesFlush) :
    s'.handle.manifest.ReservesFlush ∧
      ∀ m, DirOp.publish m ∈ s'.handle.trace → m.ReservesFlush := by
  have hkeeps := hrun.keeps (P := fun s => Layered o s.handle s.worker ∧
    s.handle.manifest.ReservesFlush ∧ ∀ m, DirOp.publish m ∈ s.handle.trace → m.ReservesFlush) ?_
    ⟨hl, hr, htrace⟩
  · exact hkeeps.2
  · rintro s s' hstep ⟨hl, hr, htrace⟩
    refine ⟨hl.step hstep, hr.step hstep hl, fun m hm => ?_⟩
    rcases hstep.publishesOnly m hm with hm | hm
    · exact htrace m hm
    · exact publishes hl hr hm

end

end ManifestSnapshot.ReservesFlush

section
variable [EntrySize] {o : Options}

theorem ManifestSnapshot.ReservesFlush.opened {d : Directory} {listing : Listing}
    {sweep : SweepFaults} {h : Handle} (hopen : Handle.open o d listing sweep = .ok h)
    (hd : ∀ m, d.manifest = some m → m.ReservesFlush) :
    h.manifest.ReservesFlush ∧ ∀ m, DirOp.publish m ∈ h.trace → m.ReservesFlush := by
  have hinitial : initialManifest.ReservesFlush := fun hne => absurd rfl hne
  refine ⟨?_, fun m hm => Handle.open_publishes hopen m hm ▸ hinitial⟩
  obtain ⟨m, hvalid, ⟨hm, hrecover⟩ | ⟨-, rfl, h₁, -, hrecover, hblank⟩⟩ := Handle.open_eq_ok hopen
  · rw [(Handle.recover_opened hvalid hrecover).2]
    exact hd m hm
  · rw [hblank] at hrecover
    rw [(Handle.recover_opened hvalid hrecover).2]
    exact hinitial

/-- The Manifests that the program leaves behind. -/
theorem Directory.Written.reservesFlush {d : Directory} (hd : d.Written) :
    ∀ m, d.manifest = some m → m.ReservesFlush := by
  induction hd with
  | new hmanifest htables =>
    intro m hm
    rw [hmanifest] at hm
    cases hm
  | @left d d' o listing sweep h s ops hd hopen hrun hops hleft ih =>
    intro m hm
    obtain ⟨hcurrent, htrace⟩ := ManifestSnapshot.ReservesFlush.opened hopen ih
    obtain ⟨-, hpublished⟩ := hcurrent.run hrun (Layered.opened hopen) htrace
    rw [hleft.manifest] at hm
    rcases manifest_foldl_apply ops d with heq | ⟨m', hm', heq⟩
    · exact ih m (heq ▸ hm)
    · rw [heq] at hm
      cases hm
      exact hpublished m (hops.subset hm')
  | unopened hd hmanifest htables ih =>
    intro m hm
    exact ih m (hmanifest ▸ hm)

end

end TinyLsm
