import TinyLsm.Db.PublishedManifests
import TinyLsm.Db.Storable
import TinyLsm.Manifest.Codec

/-!
# Maintenance without errors

While no file operation fails and the files, tables and numbers stay within the limits of their
formats, every region of a flush and of a compaction succeeds, as long as no explicit compaction
sweeps beside the temporary file of a flush or between the two regions of a background compaction.
-/

namespace TinyLsm

/-! ## Limits -/

/-- The sizes of a table stay below the limits of its format. -/
structure TableRoom (blockBytes ri : ℕ) (es : List InternalEntry) : Prop where
  key_lt : ∀ e ∈ es, e.userKey.length < 2 ^ 32
  value_lt : ∀ e ∈ es, e.value.length < 2 ^ 32
  block_lt : ∀ bs ∈ cutBlocks blockBytes [] es, (blockEncoding ri bs).length < 2 ^ 32
  index_lt : (indexBytes (blockMetas 0 (cutBlocks blockBytes [] es)
    ((cutBlocks blockBytes [] es).map (blockEncoding ri)))).length < 2 ^ 32

/-- Versions that can be stored in a table. -/
structure EntriesStorable (es : List InternalEntry) : Prop where
  ordered : Ordered es
  clean : ∀ e ∈ es, e.Clean
  sequence_pos : ∀ e ∈ es, 0 < e.sequence
  sequence_lt : ∀ e ∈ es, e.sequence < 2 ^ 64

theorem EntriesStorable.tableFits {o : Options} {es : List InternalEntry} (h : EntriesStorable es)
    (ho : o.Accepted) (hne : es ≠ [])
    (hroom : TableRoom o.sstableBlockBytes o.sstableRestartInterval es) :
    TableFits o.sstableBlockBytes o.sstableRestartInterval es where
  ne_nil := hne
  ordered := h.ordered
  storable e he := ⟨h.sequence_pos e he, h.sequence_lt e he, h.clean e he, hroom.key_lt e he,
    hroom.value_lt e he⟩
  blockBytes_pos := Nat.pos_of_ne_zero ho.block_pos
  interval_pos := Nat.pos_of_ne_zero ho.restart_pos
  block_lt := hroom.block_lt
  index_lt := hroom.index_lt

/-- The Manifest is not larger than its file may be. -/
def ManifestSnapshot.FitsFile (m : ManifestSnapshot) : Prop :=
  (manifestFrame m.proto).length ≤ kMaxManifestFileBytes

theorem ManifestSnapshot.FitsFile.encodes {m : ManifestSnapshot} (h : m.FitsFile)
    (hvalid : m.Valid) : ∃ bytes, encodeManifest m = .ok bytes :=
  ⟨_, encodeManifest_eq_ok_iff.mpr ⟨validate_eq_none_iff.mpr hvalid, rfl, h⟩⟩

/-- Without a failing file operation such a Manifest is durable. -/
theorem ManifestSnapshot.FitsFile.published {next : ManifestSnapshot} (hfits : next.FitsFile)
    (hvalid : next.Valid) (h : Handle) (terminal context : String) (durable : Handle → Handle) :
    Handle.published (h.publish next none) terminal context durable =
      (durable (h.withManifest next), .okay) := by
  obtain ⟨bytes, hencode⟩ := hfits.encodes hvalid
  unfold Handle.publish
  rw [hencode]
  rfl

/-! ## Building a table -/

/-- What the output of a build needs to be finished. -/
def BuildPhase.Steady (o : Options) (number : ℕ) (entries : List InternalEntry) (d : Directory) :
    BuildPhase → Prop
  | create => True
  | write => (d.files (.sstTmp number)).isSome
  | verify _ | rename _ => (d.files (.sstTmp number)).isSome ∧
      TableFits o.sstableBlockBytes o.sstableRestartInterval entries
  | syncDir _ | ready _ => TableFits o.sstableBlockBytes o.sstableRestartInterval entries

/-- The metadata of a built table are those that its verification finds. -/
theorem Output.Built.matches_properties {o : Options} {number : ℕ} {entries : List InternalEntry}
    {out : Output} (hb : out.Built o number entries)
    (hfits : TableFits o.sstableBlockBytes o.sstableRestartInterval entries) :
    out.tableMeta.matches out.properties := by
  obtain ⟨spans, info, r, hbuild, hopen, -, hvalidate, -⟩ := table_round_trip hfits number
  have hinfo : info = out.info := by
    have hbuilt := hb.built
    rw [hbuild] at hbuilt
    exact Except.ok.inj hbuilt
  have hbytes : Handle.tableBytes o entries = spans.flatten := by
    rw [Handle.tableBytes, hbuild]
  have hreader : r = out.table.reader := by
    have hopened := hb.opened
    rw [hbytes, hopen] at hopened
    exact Except.ok.inj hopened
  have hproperties := hb.validated
  rw [← hreader, hvalidate] at hproperties
  rw [← Except.ok.inj hproperties, hinfo]
  simp [TableMeta.matches, Output.tableMeta]

namespace BuildPhase

variable {o : Options} {checked : Output → Option Status} {number : ℕ}
  {entries : List InternalEntry} {h h' : Handle} {d d' : Directory} {phase phase' : BuildPhase}

theorem Steady.congr (hs : phase.Steady o number entries d)
    (hfile : d'.files (.sstTmp number) = d.files (.sstTmp number)) :
    phase.Steady o number entries d' := by
  cases phase with
  | create => trivial
  | write => exact (congrArg Option.isSome hfile).trans hs
  | verify info | rename out => exact ⟨(congrArg Option.isSome hfile).trans hs.1, hs.2⟩
  | syncDir out | ready out => exact hs

theorem Steady.step (hb : Handle.BuildsTo o checked number entries h phase h' phase')
    (hs : phase.Steady o number entries h.dir)
    (hfits : phase = .write → TableFits o.sstableBlockBytes o.sstableRestartInterval entries) :
    phase'.Steady o number entries h'.dir := by
  cases hb with
  | create => simp [Steady, DirOp.apply]
  | write =>
    refine ⟨?_, hfits rfl⟩
    have hsome : (h.dir.files (.sstTmp number)).isSome := hs
    simp [DirOp.apply, hsome]
  | verify => exact hs
  | rename => exact hs.2
  | syncDir => exact hs

/-- Without a failing file operation the next step of a build succeeds. -/
theorem Steady.succeeds (context : BuildContext) (hs : phase.Steady o number entries h.dir)
    (hh : phase.Holds o number entries h.dir) (hphase : ∀ out, phase ≠ .ready out)
    (hfits : phase = .write → TableFits o.sstableBlockBytes o.sstableRestartInterval entries)
    (hchecked : ∀ out, out.tableMeta.matches out.properties → checked out = none) :
    ∃ h' phase', h.buildStep o context checked number entries none phase = (h', .ok phase') := by
  cases phase with
  | create => exact ⟨_, _, rfl⟩
  | write =>
    obtain ⟨spans, info, hbuild⟩ := buildTable_ok (hfits rfl)
    simp only [Handle.buildStep, hbuild]
    exact ⟨_, _, rfl⟩
  | verify info =>
    obtain ⟨hsome, hroom⟩ := hs
    obtain ⟨hbuilt, hholds⟩ := hh
    have hfile := hholds.resolve_left fun hnone => by simp [hnone] at hsome
    obtain ⟨spans, info', r, hbuild, hopen, -, hvalidate, -⟩ := table_round_trip hroom number
    have hbytes : Handle.tableBytes o entries = spans.flatten := by
      rw [Handle.tableBytes, hbuild]
    rw [← hbytes] at hopen
    set out : Output := ⟨⟨number, r⟩, info, ⟨info'.fileSize, info'.entryCount, info'.smallestKey,
      info'.largestKey, info'.minSequence, info'.maxSequence⟩⟩ with hout
    have hb : out.Built o number entries := ⟨rfl, hbuilt, hopen, hvalidate⟩
    have hpass := hchecked out (hb.matches_properties hroom)
    simp only [Handle.buildStep, hfile, hopen, hvalidate, ← hout, hpass]
    exact ⟨_, _, rfl⟩
  | rename out =>
    obtain ⟨file, hfile⟩ := Option.isSome_iff_exists.mp hs.1
    simp only [Handle.buildStep, hfile]
    exact ⟨_, _, rfl⟩
  | syncDir out => exact ⟨_, _, rfl⟩
  | ready out => exact absurd rfl (hphase out)

end BuildPhase

/-- Without failing file operations the output of an explicit compaction is built. -/
theorem Handle.buildOutput_succeeds {o : Options} (number : ℕ) {entries : List InternalEntry}
    (hfits : TableFits o.sstableBlockBytes o.sstableRestartInterval entries) (f : CompactFaults)
    (hf : f.create = none ∧ f.write = none ∧ f.verify = none ∧ f.rename = none ∧ f.syncDir = none)
    (h : Handle) : ∃ h' out, h.buildOutput o number entries f = (h', .ok out) := by
  obtain ⟨hcreate, hwrite, hverify, hrename, hsync⟩ := hf
  have hchecked : ∀ out : Output, out.tableMeta.matches out.properties →
      compactionChecked out = none := fun out hmatches => if_pos hmatches
  have hstep : ∀ (h₁ : Handle) (phase : BuildPhase), phase.Steady o number entries h₁.dir →
      phase.Holds o number entries h₁.dir → (∀ out, phase ≠ .ready out) → ∃ h₂ phase₂,
        h₁.buildStep o compactionContext compactionChecked number entries none phase =
          (h₂, .ok phase₂) ∧ BuildsTo o compactionChecked number entries h₁ phase h₂ phase₂ ∧
        phase₂.Steady o number entries h₂.dir ∧ phase₂.Holds o number entries h₂.dir := by
    intro h₁ phase hs hh hphase
    obtain ⟨h₂, phase₂, heq⟩ := hs.succeeds compactionContext hh hphase
      (fun _ => hfits) hchecked
    have hto := buildStep_ok hphase heq
    exact ⟨h₂, phase₂, heq, hto, hs.step hto fun _ => hfits, hh.step hto⟩
  obtain ⟨h₁, _, heq₁, hto₁, hs₁, hh₁⟩ := hstep h .create trivial trivial (by simp)
  cases hto₁
  obtain ⟨h₂, _, heq₂, hto₂, hs₂, hh₂⟩ := hstep _ _ hs₁ hh₁ (by simp)
  cases hto₂
  obtain ⟨h₃, _, heq₃, hto₃, hs₃, hh₃⟩ := hstep _ _ hs₂ hh₂ (by simp)
  cases hto₃
  obtain ⟨h₄, _, heq₄, hto₄, hs₄, hh₄⟩ := hstep _ _ hs₃ hh₃ (by simp)
  cases hto₄
  obtain ⟨h₅, _, heq₅, hto₅, -, -⟩ := hstep _ _ hs₄ hh₄ (by simp)
  cases hto₅
  simp only [Handle.buildOutput, hcreate, hwrite, hverify, hrename, hsync, heq₁, heq₂, heq₃, heq₄,
    heq₅]
  exact ⟨_, _, rfl⟩

/-! ## What is stored -/

/-- The versions of a table can be stored in another one. -/
theorem TableMeta.Describes.storable {m : TableMeta} {t : Table} (h : m.Describes t) :
    ∀ e ∈ t.entries, e.Clean ∧ 0 < e.sequence := by
  obtain ⟨bss, hvalid, hentries, -⟩ := Layered.entries_of_describes h
  intro e he
  rw [hentries] at he
  refine ⟨hvalid.clean e he, ?_⟩
  obtain ⟨bs, hbs, he⟩ := List.mem_flatten.mp he
  obtain ⟨m, -, hread, -⟩ := TableFile.forall₂_exists hvalid.blocks.flip hbs
  exact (SSTableReader.readBlock_eq_ok hread).2.2.2.2 e he

theorem CompactionJob.Selected.storable {job : CompactionJob} {readers : Set Table} {next : ℕ}
    (hs : job.Selected readers next) (hnext : next ≤ 2 ^ 64) {entries : List InternalEntry}
    (hord : Ordered entries) (hsub : ∀ e ∈ entries, e ∈ job.inputs) :
    EntriesStorable entries := by
  have hinput : ∀ e ∈ job.inputs, e.Clean ∧ 0 < e.sequence := by
    intro e he
    obtain ⟨t, ht, he⟩ := List.mem_flatMap.mp he
    obtain ⟨m, -, hm⟩ := TableFile.forall₂_exists hs.described.flip ht
    exact TableMeta.Describes.storable hm e he
  exact ⟨hord, fun e he => (hinput e (hsub e he)).1, fun e he => (hinput e (hsub e he)).2,
    fun e he => (hs.below e (hsub e he)).trans_le hnext⟩

/-- The versions of the immutable MemTable. -/
theorem Layered.sealed_storable {o : Options} {h : Handle} {w : Worker} (hl : Layered o h w)
    (hclean : h.MemTablesClean) (hnext : h.nextSequence < 2 ^ 64) {m : MemTable}
    (hm : h.immutable = some m) : EntriesStorable m.contents := by
  have hmem : m ∈ h.memtables := List.mem_cons_of_mem _ (by simp [hm])
  refine ⟨(hl.immutable m hm).ordered, (hclean m hmem).clean, fun e he => ?_, fun e he => ?_⟩
  · exact (Nat.zero_le _).trans_lt (hl.sealed m hm e he).1
  · exact (hl.sealed m hm e he).2.1.trans hnext

theorem MemTable.Inv.contents_ne_nil {m : MemTable} (h : m.Inv) (hne : m.isEmpty = false) :
    m.contents ≠ [] := by
  rcases hentries : m.entries with _ | ⟨p, rest⟩
  · simp [MemTable.isEmpty, hentries] at hne
  · have hp := (h.versions p (by simp [hentries])).nonempty
    simp [MemTable.contents, hentries, hp]

/-- The versions that a compaction keeps, in order. -/
def CompactionJob.KeptBy (job : CompactionJob) (snapshots : List ℕ) (entries : List InternalEntry) :
    Prop :=
  Ordered entries ∧ ∀ e, e ∈ entries ↔ Retained job.coversAll snapshots.min? job.inputs e

/-- The output of a compaction stays within the limits. -/
structure Handle.CompactionFits (o : Options) (h : Handle) (job : CompactionJob) : Prop where
  number_ne : job.number ≠ 2 ^ 64 - 1
  dropped : job.KeptBy h.snapshots [] → (compactedManifest h.manifest job none).FitsFile
  room : ∀ entries, entries ≠ [] → job.KeptBy h.snapshots entries →
    TableRoom o.sstableBlockBytes o.sstableRestartInterval entries
  built : ∀ entries out, job.KeptBy h.snapshots entries → out.Built o job.number entries →
    (compactedManifest h.manifest job (some out)).FitsFile

/-! ## The invariant -/

/-- What the worker needs to finish its job. -/
def Worker.Steady (o : Options) (h : Handle) : Worker → Prop
  | claimed true => h.immutable.isSome
  | claimed false => h.closed = false ∧ h.closing = false
  | flushing job phase => phase.Steady o job.tableNumber job.entries h.dir ∧ h.immutable.isSome ∧
      h.manifest.immutableWalNumber = job.immutableWal ∧
      h.manifest.activeWalNumber = job.tableNumber + 1
  | merging job | dropping job => job.metas <+: h.manifest.liveTables
  | compacting job entries phase => phase.Steady o job.number entries h.dir ∧ entries ≠ [] ∧
      job.metas <+: h.manifest.liveTables
  | finished _ status => status.ok
  | _ => True

/-- The temporary file is there. -/
def BuildPhase.hasTemporary : BuildPhase → Bool
  | write | verify _ | rename _ => true
  | _ => false

/-- The worker holds what an explicit compaction would take from it: the temporary file of a flush,
or the inputs of a compaction. -/
def Worker.exposed : Worker → Bool
  | flushing _ phase => phase.hasTemporary
  | merging _ | compacting _ _ _ | dropping _ => true
  | _ => false

/-- No error is set, and the worker can finish its job. -/
structure Undisturbed (o : Options) (h : Handle) (w : Worker) : Prop where
  terminalError : h.terminalError = none
  backgroundError : h.backgroundError = none
  sealed : ∀ m, h.immutable = some m → m.isEmpty = false
  worker : w.Steady o h

namespace Undisturbed

variable {o : Options} {d₀ : Directory} {h h' : Handle} {w w' : Worker} {readers : Set Table}

theorem steady_congr (hw : w.Steady o h) (himmutable : h'.immutable = h.immutable)
    (hmanifest : h'.manifest = h.manifest) (hclosed : h'.closed = h.closed)
    (hclosing : h'.closing = h.closing)
    (htmp : ∀ n, h'.dir.files (.sstTmp n) = h.dir.files (.sstTmp n)) : w.Steady o h' := by
  cases w with
  | claimed flush =>
    cases flush with
    | true =>
      show h'.immutable.isSome
      rw [himmutable]
      exact hw
    | false =>
      show h'.closed = false ∧ h'.closing = false
      rw [hclosed, hclosing]
      exact hw
  | flushing job phase =>
    obtain ⟨hphase, hsome, hwal, hactive⟩ := hw
    refine ⟨hphase.congr (htmp _), ?_, ?_, ?_⟩
    · rw [himmutable]
      exact hsome
    · rw [hmanifest]
      exact hwal
    · rw [hmanifest]
      exact hactive
  | merging job | dropping job =>
    show job.metas <+: h'.manifest.liveTables
    rw [hmanifest]
    exact hw
  | compacting job entries phase =>
    refine ⟨hw.1.congr (htmp _), hw.2.1, ?_⟩
    rw [hmanifest]
    exact hw.2.2
  | finished flush status => exact hw
  | _ => trivial

/-- A worker that is not exposed does not depend on the tables or on the files. -/
theorem steady_of_not_exposed (hw : w.Steady o h) (hexposed : w.exposed = false)
    (himmutable : h'.immutable = h.immutable)
    (hwal : h'.manifest.immutableWalNumber = h.manifest.immutableWalNumber)
    (hactive : h'.manifest.activeWalNumber = h.manifest.activeWalNumber)
    (hclosed : h'.closed = h.closed) (hclosing : h'.closing = h.closing) : w.Steady o h' := by
  cases w with
  | claimed flush =>
    cases flush with
    | true =>
      show h'.immutable.isSome
      rw [himmutable]
      exact hw
    | false =>
      show h'.closed = false ∧ h'.closing = false
      rw [hclosed, hclosing]
      exact hw
  | flushing job phase =>
    obtain ⟨hphase, hsome, hjobWal, hjobActive⟩ := hw
    refine ⟨?_, himmutable ▸ hsome, hwal.trans hjobWal, hactive.trans hjobActive⟩
    cases phase with
    | create => trivial
    | write | verify info | rename out => cases hexposed
    | syncDir out | ready out => exact hphase
  | merging job | compacting job entries phase | dropping job => cases hexposed
  | finished flush status => exact hw
  | _ => trivial

/-- The MemTables, the Manifest and the temporary files matter. -/
theorem congr (hu : Undisturbed o h w) (hterminal : h'.terminalError = h.terminalError)
    (hbackground : h'.backgroundError = h.backgroundError)
    (himmutable : h'.immutable = h.immutable) (hmanifest : h'.manifest = h.manifest)
    (hclosed : h'.closed = h.closed) (hclosing : h'.closing = h.closing)
    (htmp : ∀ n, h'.dir.files (.sstTmp n) = h.dir.files (.sstTmp n)) : Undisturbed o h' w :=
  ⟨hterminal.trans hu.terminalError, hbackground.trans hu.backgroundError,
    fun m hm => hu.sealed m (himmutable ▸ hm),
    steady_congr hu.worker himmutable hmanifest hclosed hclosing htmp⟩

theorem move (hu : Undisturbed o h w) (hw : w'.Steady o h) : Undisturbed o h w' :=
  ⟨hu.terminalError, hu.backgroundError, hu.sealed, hw⟩

theorem checkOpen (hu : Undisturbed o h w) (hclosed : h.closed = false)
    (hclosing : h.closing = false) : h.checkOpen = .okay := by
  simp [Handle.checkOpen, hclosed, hclosing, hu.terminalError, hu.backgroundError]

/-- An operation on another file. -/
theorem perform (hu : Undisturbed o h w) {op : DirOp} (hop : ∀ n, ¬ op.writes (.sstTmp n))
    (hremove : ∀ n, op ≠ .remove (.sstTmp n)) (hrename : ∀ name target, op ≠ .rename name target) :
    Undisturbed o (h.perform op) w := by
  refine hu.congr rfl rfl rfl rfl rfl rfl fun n => ?_
  rcases Directory.Keeps.apply op h.dir _ (hop n) with heq | hnone
  · exact heq
  · cases op with
    | remove name =>
      refine Function.update_of_ne ?_ _ _
      rintro rfl
      exact hremove n rfl
    | rename source target => exact absurd rfl (hrename source target)
    | create name | append name | sync name | truncate name =>
      exact Function.update_of_ne (hop n) _ _
    | publish | syncDir => rfl

/-! ## Writes -/

theorem wal (hu : Undisturbed o h w) {op : DirOp} {number : ℕ}
    (hop : op = .create (.wal number) ∨ op = .sync (.wal number) ∨
      ∃ bytes, op = .append (.wal number) bytes) : Undisturbed o (h.perform op) w := by
  rcases hop with rfl | rfl | ⟨bytes, rfl⟩
  all_goals exact hu.perform (by simp [DirOp.writes]) (by simp) (by simp)

theorem logged (hu : Undisturbed o h w) (bytes : Bytes) : Undisturbed o (h.logged o bytes) w := by
  unfold Handle.logged
  split
  · exact (hu.wal (.inr (.inr ⟨bytes, rfl⟩))).wal (.inr (.inl rfl))
  · exact hu.wal (.inr (.inr ⟨bytes, rfl⟩))

theorem rotate {status : Status} (hr : h.rotateMemTable none = (h', status))
    (hu : Undisturbed o h w) : Undisturbed o h' w := by
  have hwithWal : Undisturbed o h.withWal w := (hu.wal (.inl rfl)).wal (.inr (.inl rfl))
  rcases Handle.rotateMemTable_cases hr with
    ⟨hwal, -⟩ | ⟨-, -, hfault, -⟩ | ⟨rfl, -, -, hnone, hfull, -⟩
  · cases hwal with
    | start => exact hu
    | created => exact hu.wal (.inl rfl)
    | synced => exact hwithWal
  · exact absurd rfl hfault
  · have htmp : ∀ n, h.rotated.dir.files (.sstTmp n) = h.dir.files (.sstTmp n) := by
      simp [Handle.rotated, Handle.withWal, DirOp.apply]
    obtain ⟨d, t, heq⟩ := h.rotated_eq
    rw [heq] at htmp ⊢
    refine ⟨hu.terminalError, hu.backgroundError, fun m hm => ?_, ?_⟩
    · obtain rfl := Option.some.inj hm
      exact hfull
    · have hw := hu.worker
      have hno : h.immutable.isSome = false := by simp [hnone]
      cases w with
      | claimed flush =>
        cases flush with
        | true => rfl
        | false => exact hw
      | flushing job phase =>
        have hsome : h.immutable.isSome := hw.2.1
        rw [hno] at hsome
        cases hsome
      | merging job | dropping job => exact hw
      | compacting job entries phase => exact ⟨hw.1.congr (htmp _), hw.2⟩
      | finished flush status => exact hw
      | _ => trivial

theorem applyWriteGroup [EntrySize] {group : List WriterRequest} {status : Status}
    (hr : h.applyWriteGroup o group {} = some (h', status)) (hu : Undisturbed o h w) :
    Undisturbed o h' w :=
  Handle.applyWriteGroup_rule (Undisturbed o · w) (fun _ bytes hu => hu.logged bytes)
    (fun _ _ _ hu => hu.congr rfl rfl rfl rfl rfl rfl fun _ => rfl)
    (fun _ _ _ hrotate hu => hu.rotate hrotate) hr hu

/-! ## Flush -/

theorem onlyFiles (hu : Undisturbed o h w) (hfiles : h.OnlyFiles h') (hw : w'.Steady o h') :
    Undisturbed o h' w' := by
  obtain ⟨d, t, p, rfl⟩ := hfiles
  exact ⟨hu.terminalError, hu.backgroundError, hu.sealed, hw⟩

theorem claim (hclosed : h.closed = false) (hu : Undisturbed o h w) :
    Undisturbed o h.claim.1 h.claim.2 := by
  simp only [Handle.claim]
  split
  · rename_i hflush
    simp only [Bool.and_eq_true] at hflush
    exact ⟨hu.terminalError, hu.backgroundError, hu.sealed, hflush.2⟩
  split
  · rename_i hcompact
    simp only [Bool.and_eq_true, Bool.not_eq_true'] at hcompact
    exact ⟨hu.terminalError, hu.backgroundError, hu.sealed, hclosed, hcompact.2⟩
  · exact ⟨hu.terminalError, hu.backgroundError, hu.sealed, trivial⟩

theorem account {flush : Bool} {status : Status} (hu : Undisturbed o h (.finished flush status)) :
    Undisturbed o (h.account o flush status) .waiting := by
  have hok : status.ok = true := hu.worker
  simp only [Handle.account, hok, Bool.true_eq_false, if_false]
  split
  · exact ⟨hu.terminalError, hu.backgroundError, hu.sealed, trivial⟩
  · exact ⟨hu.terminalError, hu.backgroundError, hu.sealed, trivial⟩

theorem beginFlush {sweep : SweepFaults} {r : Except Status FlushJob}
    (hr : h.beginFlush sweep = (h', r)) (hu : Undisturbed o h (.claimed true)) (hl : Layered o h w)
    (hp : FlushPending h w) (hreserves : h.manifest.ReservesFlush) :
    Undisturbed o h' (System.continued true (.flushing · .create) r) := by
  obtain ⟨m, hm⟩ := Option.isSome_iff_exists.mp (hu.worker : h.immutable.isSome)
  have hwal : h.manifest.immutableWalNumber ≠ 0 :=
    (hp.immutable_iff hu.terminalError).mpr (by rw [hm]; rfl)
  have hactive := hreserves hwal
  have hlength := hl.tables.length_eq
  have hne := (hl.immutable m hm).contents_ne_nil (hu.sealed m hm)
  obtain ⟨hfiles, hcases⟩ := Handle.beginFlush_cases hr
  unfold Handle.beginFlush at hr
  rw [hm] at hr
  dsimp only at hr
  rw [if_neg hwal, if_neg (not_not.mpr hlength), if_neg (by omega), MemTable.scan_all, if_neg hne]
    at hr
  cases hr
  obtain ⟨d, t, p, heq⟩ := hfiles
  rw [heq]
  refine ⟨hu.terminalError, hu.backgroundError, hu.sealed, trivial, ?_, rfl, ?_⟩
  · rw [hm]
    rfl
  · show h.manifest.activeWalNumber = h.manifest.activeWalNumber - 1 + 1
    omega

/-- A step of a build without failures. -/
theorem buildStep {context : BuildContext} {checked : Output → Option Status} {number : ℕ}
    {entries : List InternalEntry} {phase : BuildPhase} {r : Except Status BuildPhase}
    (hr : h.buildStep o context checked number entries none phase = (h', r))
    (hphase : ∀ out, phase ≠ .ready out) (hs : phase.Steady o number entries h.dir)
    (hh : phase.Holds o number entries h.dir)
    (hfits : phase = .write → TableFits o.sstableBlockBytes o.sstableRestartInterval entries)
    (hchecked : ∀ out, out.tableMeta.matches out.properties → checked out = none) :
    ∃ phase', r = .ok phase' ∧ phase'.Steady o number entries h'.dir ∧ h.OnlyFiles h' := by
  obtain ⟨h₁, phase', hstep⟩ := hs.succeeds context hh hphase hfits hchecked
  rw [hstep] at hr
  cases hr
  have hb := Handle.buildStep_ok hphase hstep
  exact ⟨phase', rfl, hs.step hb hfits, hb.onlyFiles⟩

theorem commitFlush {job : FlushJob} {out : Output} {status : Status}
    (hr : h.commitFlush o job out none = (h', status))
    (hu : Undisturbed o h (.flushing job (.ready out)))
    (hb : out.Built o job.tableNumber job.entries)
    (hvalid : ∀ next, h.FlushPublishes job out next → next.Valid)
    (hfits : (Handle.flushedManifest h.manifest out).FitsFile) :
    status = .okay ∧ Undisturbed o h' (.removingWal job.immutableWal) := by
  obtain ⟨hroom, hsome, hwal, hactive⟩ := hu.worker
  have hnone : h.immutable.isNone = false := by simpa using hsome
  have hmatches := hb.matches_properties hroom
  have hnext := hvalid _ ⟨hnone, hwal, hactive, hmatches, rfl⟩
  unfold Handle.commitFlush at hr
  rw [if_neg (by simp [hnone, hwal, hactive]), if_neg (by simp [hmatches]),
    hfits.published hnext] at hr
  cases hr
  exact ⟨rfl, hu.terminalError, hu.backgroundError, fun m hm => (by cases hm), trivial⟩

/-! ## Compaction -/

/-- The checks of a compaction of an open handle without errors. -/
theorem compactionStatus_cases (hl : Layered o h w) (hopen : h.checkOpen.ok) (inputCount : ℕ)
    (background : Bool) (hcount : background → inputCount = o.compactionTableTrigger) :
    h.compactionStatus o inputCount background = none ∨
      h.compactionStatus o inputCount background = some .okay := by
  unfold Handle.compactionStatus
  rw [if_neg (by simp [hopen])]
  split
  · exact .inr rfl
  · rw [if_neg (not_not.mpr hl.tables.length_eq), if_neg fun hb => hb.2 (hcount hb.1)]
    exact .inl rfl

theorem beginCompaction {r : Except Status CompactionJob}
    (hr : h.beginBackgroundCompaction o none = (h', r)) (hu : Undisturbed o h (.claimed false))
    (hl : Layered o h w) (hvalid : ∀ next, h.ReservationPublishes o next → next.Valid)
    (hroom : h.compactionStatus o o.compactionTableTrigger true = none →
      h.manifest.nextFileNumber ≠ 2 ^ 64 - 1 ∧ (Handle.reservedManifest h.manifest).FitsFile) :
    Undisturbed o h' (System.continued false .merging r) := by
  obtain ⟨hclosed, hclosing⟩ : h.closed = false ∧ h.closing = false := hu.worker
  have hopen : h.checkOpen.ok := by rw [hu.checkOpen hclosed hclosing]; rfl
  unfold Handle.beginBackgroundCompaction at hr
  rcases compactionStatus_cases hl hopen o.compactionTableTrigger true (fun _ => rfl) with
    hstatus | hstatus
  · obtain ⟨hnumber, hfits⟩ := hroom hstatus
    have hpublished := fun terminal context =>
      hfits.published (hvalid _ ⟨hstatus, hnumber, rfl⟩) h terminal context id
    unfold Handle.reservedManifest at hpublished
    rw [hstatus] at hr
    dsimp only at hr
    rw [if_neg hnumber, hpublished] at hr
    cases hr
    exact ⟨hu.terminalError, hu.backgroundError, hu.sealed, List.take_prefix _ _⟩
  · rw [hstatus] at hr
    cases hr
    exact hu.move rfl

/-- The last region of a compaction whose inputs are still the oldest tables. -/
theorem commitCompaction {job : CompactionJob} {replacement : Option Output} {status : Status}
    (hr : h.commitCompaction job replacement none (fun _ => false) = (h', status))
    (hu : Undisturbed o h w) (hl : Layered o h w') (hexposed : w.exposed = false)
    (hfront : job.metas <+: h.manifest.liveTables)
    (hvalid : ∀ next, h.CompactionPublishes job replacement next → next.Valid)
    (hfits : (Handle.compactedManifest h.manifest job replacement).FitsFile) :
    status = .okay ∧ Undisturbed o h' w := by
  have hlength := hl.tables.length_eq
  have hle : job.metas.length ≤ h.tables.length := hlength ▸ hfront.length_le
  have hnumbers : (h.manifest.liveTables.take job.metas.length).map TableMeta.fileNumber =
      job.metas.map TableMeta.fileNumber := by
    rw [← List.prefix_iff_eq_take.mp hfront]
  have hnext := hvalid _ ⟨hlength, hle, hnumbers, rfl⟩
  unfold Handle.commitCompaction at hr
  rw [if_neg (by omega), if_neg (not_not.mpr hnumbers), hfits.published hnext] at hr
  cases hr
  refine ⟨rfl, ?_⟩
  obtain ⟨d, t, p, heq⟩ := h.installCompaction_eq
    (Handle.compactedManifest h.manifest job replacement) job replacement fun _ => false
  rw [heq]
  exact ⟨hu.terminalError, hu.backgroundError, hu.sealed,
    steady_of_not_exposed hu.worker hexposed rfl
    (FlushPending.compactedManifest_immutableWal h.manifest job replacement)
    (FlushPending.compactedManifest_activeWal h.manifest job replacement) rfl rfl⟩

/-- An explicit compaction, which holds the lock throughout. -/
theorem compactTablePrefix {s : System} {inputCount : ℕ} {f : Handle.CompactFaults}
    {status : Status} (hr : s.handle.compactTablePrefix o inputCount f = (h', status))
    (hread : f.read = none) (hpublish : f.publish = none) (hfails : f.fails = fun _ => false)
    (hf : f.create = none ∧ f.write = none ∧ f.verify = none ∧ f.rename = none ∧ f.syncDir = none)
    (ho : o.Accepted) (hk : Kept o d₀ readers s) (hu : Undisturbed o s.handle s.worker)
    (hopen : s.handle.checkOpen.ok)
    (hapart : s.handle.compactionStatus o inputCount false = none →
      s.worker.exposed = false ∧ s.handle.CompactionFits o (s.handle.selectTables inputCount)) :
    status.ok ∧ Undisturbed o h' s.worker := by
  -- without tables, or with fewer than were counted, there is nothing to do
  rcases compactionStatus_cases hk.layered hopen inputCount false (by simp) with hstatus | hstatus
  swap
  · unfold Handle.compactTablePrefix at hr
    rw [hstatus] at hr
    cases hr
    exact ⟨rfl, hu⟩
  obtain ⟨hexposed, hfits⟩ := hapart hstatus
  have hs := Compacts.selected hk.allocated hk.layered inputCount
  obtain ⟨merged, hmerged, hord, hsub, hmem⟩ := hs.retained hk.compacts.space hk.compacts.snapshots
  have hkept : (s.handle.selectTables inputCount).KeptBy s.handle.snapshots
    (s.handle.retained (s.handle.selectTables inputCount) merged) := ⟨hord, hmem⟩
  obtain ⟨d, t, p, hswept⟩ :=
    Handle.OnlyFiles.cleanupObsoleteFiles s.handle f.sweep.listed f.sweep.fails
  unfold Handle.compactTablePrefix at hr
  rw [hstatus] at hr
  dsimp only at hr
  rw [hswept] at hr
  set h₁ : Handle := { s.handle with dir := d, trace := t, pendingCleanup := p } with hh₁
  set job := s.handle.selectTables inputCount with hjob
  have hselected : h₁.selectTables inputCount = job := rfl
  have hu₁ : Undisturbed o h₁ s.worker := hu.onlyFiles ⟨d, t, p, rfl⟩
    (steady_of_not_exposed hu.worker hexposed rfl rfl rfl rfl rfl)
  have hl₁ : Layered o h₁ s.worker := hk.layered.onlyFiles ⟨d, t, p, rfl⟩
  have hfront : job.metas <+: h₁.manifest.liveTables := List.take_prefix _ _
  rw [if_neg (show ¬ h₁.manifest.nextFileNumber = 2 ^ 64 - 1 from hfits.number_ne), hselected,
    hread, hmerged, hpublish, hfails] at hr
  dsimp only at hr
  split at hr
  · rename_i hnil
    have hnil : h₁.retained job merged = [] := hnil
    obtain ⟨rfl, hu'⟩ := hu₁.commitCompaction hr hl₁ hexposed hfront
      (fun next hnext => hk.explicit_valid (.drop hstatus hswept.symm hmerged hnil) hnext)
      (hfits.dropped (hnil ▸ hkept))
    exact ⟨rfl, hu'⟩
  · rename_i hne
    have hfitsTable := (hs.storable hk.compacts.space.le hord hsub).tableFits ho hne
      (hfits.room _ hne hkept)
    obtain ⟨h₂, out, hbuild⟩ := Handle.buildOutput_succeeds job.number hfitsTable f hf h₁
    have hb := Handle.built_of_buildOutput hbuild
    have hfitsNext := hfits.built _ out hkept hb
    have hreach := Handle.CompactsTo.build hstatus hswept.symm hmerged hbuild
    obtain ⟨d₂, t₂, p₂, rfl⟩ := Handle.OnlyFiles.buildOutput hbuild
    have hu₂ := hu₁.onlyFiles ⟨d₂, t₂, p₂, rfl⟩
      (steady_of_not_exposed hu₁.worker hexposed rfl rfl rfl rfl rfl)
    rw [show retainEntries job.coversAll (oldestSnapshot h₁.snapshots) none false merged =
      s.handle.retained job merged from rfl, hbuild] at hr
    dsimp only at hr
    obtain ⟨rfl, hu'⟩ := hu₂.commitCompaction hr (hl₁.onlyFiles ⟨d₂, t₂, p₂, rfl⟩) hexposed hfront
      (fun next hnext => hk.explicit_valid hreach hnext) hfitsNext
    exact ⟨rfl, hu'⟩

end Undisturbed

end TinyLsm
