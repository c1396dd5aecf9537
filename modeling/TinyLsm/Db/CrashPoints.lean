import TinyLsm.Db.Refinement
import TinyLsm.Db.Restores
import TinyLsm.Db.WriteMemory

/-!
# The directory inside a region

Between the file operations of a region the directory restores the handle as the region found it, or
as it leaves it: only the publication of a Manifest, and in a commit the record in the WAL, moves it
from the one to the other.
-/

namespace TinyLsm

/-- The files of the new state are those of the old one up to a point, and of the new one behind it. -/
structure Handle.Carries [EntrySize] (o : Options) (durable : Prop) (h : Handle)
    (left : Option (List InternalEntry)) (h' : Handle) (left' : Option (List InternalEntry)) : Prop where
  restores : h'.dir.Restores o durable h' left'
  passes : h.Passes (fun d => d.Restores o durable h left ∨ d.Restores o durable h' left') h'

namespace Handle

section
variable [EntrySize] {o : Options} {durable : Prop} {h h' h'' : Handle} {w w' : Worker}
  {left left' : Option (List InternalEntry)}

omit [EntrySize] in
theorem OnlyFiles.layers (hfiles : OnlyFiles h h') : h'.manifest = h.manifest ∧
    h'.tables = h.tables ∧ h'.memtable = h.memtable ∧ h'.immutable = h.immutable ∧
    h'.nextSequence = h.nextSequence := by
  obtain ⟨d, t, p, rfl⟩ := hfiles
  exact ⟨rfl, rfl, rfl, rfl, rfl⟩

omit [EntrySize] in
theorem OnlyFlags.layers (hflags : OnlyFlags h h') : h'.manifest = h.manifest ∧
    h'.tables = h.tables ∧ h'.memtable = h.memtable ∧ h'.immutable = h.immutable ∧
    h'.nextSequence = h.nextSequence := by
  obtain ⟨e, c₁, c₂, r₁, r₂, f₁, f₂, stop, rfl⟩ := hflags
  exact ⟨rfl, rfl, rfl, rfl, rfl⟩

/-- The layers stay. -/
theorem restores_congr {d : Directory} (hr : d.Restores o durable h left)
    (hlayers : h'.manifest = h.manifest ∧ h'.tables = h.tables ∧ h'.memtable = h.memtable ∧
      h'.immutable = h.immutable ∧ h'.nextSequence = h.nextSequence) :
    d.Restores o durable h' left :=
  hr.congr hlayers.1 hlayers.2.1 hlayers.2.2.1 hlayers.2.2.2.1 hlayers.2.2.2.2

namespace Carries

theorem refl (hr : h.dir.Restores o durable h left) : Carries o durable h left h left :=
  ⟨hr, .refl (.inl hr)⟩

theorem of_dir (hr : h'.dir.Restores o durable h' left) (htrace : h'.trace = h.trace)
    (hdir : h'.dir = h.dir) : Carries o durable h left h' left :=
  ⟨hr, .of_eq htrace hdir (.inr (hdir ▸ hr))⟩

/-- A region that leaves the named files. -/
theorem harmless (hh : Harmless h h') (hfiles : OnlyFiles h h')
    (hr : h.dir.Restores o durable h left) : Carries o durable h left h' left := by
  have hpasses := hh.restores h rfl hr
  exact ⟨restores_congr hpasses.last hfiles.layers, hpasses.mono fun _ => .inl⟩

/-- The layers stay before another region. -/
theorem onlyFiles_trans (hh : Carries o durable h left h' left) (hfiles : OnlyFiles h h')
    (hh' : Carries o durable h' left h'' left') : Carries o durable h left h'' left' := by
  refine ⟨hh'.restores, Passes.trans (hh.passes.mono ?_) (hh'.passes.mono ?_)⟩
  · rintro d (hr | hr)
    · exact .inl hr
    · obtain ⟨hm, ht, ha, hi, hn⟩ := hfiles.layers
      exact .inl (restores_congr hr ⟨hm.symm, ht.symm, ha.symm, hi.symm, hn.symm⟩)
  · rintro d (hr | hr)
    · obtain ⟨hm, ht, ha, hi, hn⟩ := hfiles.layers
      exact .inl (restores_congr hr ⟨hm.symm, ht.symm, ha.symm, hi.symm, hn.symm⟩)
    · exact .inr hr

theorem onlyFlags (hh : Carries o durable h left h' left') (hflags : OnlyFlags h' h'') :
    Carries o durable h left h'' left' := by
  have hlayers := hflags.layers
  have hr := restores_congr hh.restores hlayers
  obtain ⟨e, c₁, c₂, r₁, r₂, f₁, f₂, stop, rfl⟩ := hflags
  refine ⟨hr, ?_⟩
  have hpasses := hh.passes.mono (Q := fun d => d.Restores o durable h left ∨
    d.Restores o durable { h' with
      backgroundError := e, closed := c₁, closing := c₂, flushRequested := r₁
      compactionRequested := r₂, flushRunning := f₁, compactionRunning := f₂
      workerStopping := stop } left')
    (fun d hd => hd.imp_right fun hr => restores_congr (h := h') hr ⟨rfl, rfl, rfl, rfl, rfl⟩)
  exact hpasses.trans (.of_eq rfl rfl hpasses.last)

/-- A Manifest is published, and behind it only files go that it does not name. -/
theorem publish {next : ManifestSnapshot} (h₁ : Handle) (hr : h.dir.Restores o durable h left)
    (hr' : h'.dir.Restores o durable h' left') (htrace : h₁.trace = (h.withManifest next).trace)
    (hdir : h₁.dir = (h.withManifest next).dir) (hh : Harmless h₁ h') :
    Carries o durable h left h' left' := by
  -- the named files are there behind the publication already
  obtain ⟨hsame, hfiles⟩ := hh.files
  have hr₁ : h₁.dir.Restores o durable h' left' := by
    refine hr'.of_files hsame.symm fun name hname => (hfiles name ?_).symm
    rwa [← hh.manifest]
  have hpublished : Passes (fun d => d.Restores o durable h left ∨ d.Restores o durable h' left') h
      h₁ := by
    rw [hdir] at hr₁
    have hfirst : Passes (fun d => d.Restores o durable h left ∨ d.Restores o durable h' left') h
        ((h.perform (.publish next)).perform .syncDir) := .publish (.inl hr) (.inr hr₁)
    exact hfirst.trans (.of_eq htrace hdir (.inr hr₁))
  exact ⟨hr', hpublished.trans ((hh.restores h' hh.manifest hr₁).mono fun _ => .inr)⟩

end Carries

/-! ## Rotation -/

omit [EntrySize] in
/-- The replacement WAL has a number that the Manifest does not name. -/
theorem harmless_walPrepared (hvalid : h.manifest.Valid) (hwal : WalPrepared h h') : Harmless h h' := by
  have hnames : ¬ h.manifest.Names (.wal (h.manifest.nextFileNumber + 1)) := by
    intro hn
    have hlt := hvalid.namesWal_lt hn
    omega
  have hcreate : (DirOp.create (.wal (h.manifest.nextFileNumber + 1))).Harmless h.manifest :=
    ⟨hnames, by simp⟩
  have hsync : (DirOp.sync (.wal (h.manifest.nextFileNumber + 1))).Harmless h.manifest :=
    ⟨hnames, by simp⟩
  cases hwal with
  | start => exact .refl h
  | created => exact .perform hcreate
  | synced => exact (Harmless.perform hcreate).trans (.perform hsync)

/-- The active WAL becomes the immutable one. -/
theorem recovers_rotated (hw : h.dir.Recovers o durable h left) (hvalid : h.manifest.Valid)
    (hnone : h.immutable = none) (hsome : h.memtable.isEmpty = false) :
    h.rotated.dir.Recovers o durable h.rotated left := by
  cases hw with
  | sealed _ himmutable =>
    rw [hnone] at himmutable
    cases himmutable
  | active hseals hlogs hleft =>
    cases hseals with
    | some _ himmutable =>
      rw [hnone] at himmutable
      cases himmutable
    | none =>
      have hne : h.manifest.activeWalNumber ≠ h.manifest.nextFileNumber + 1 := by
        have hlt := hvalid.active_lt
        omega
      have hfile : h.rotated.dir.files (.wal h.manifest.activeWalNumber) =
          h.dir.files (.wal h.manifest.activeWalNumber) := by
        simp [rotated, withWal, DirOp.apply, hne]
      have hnew : h.rotated.dir.files (.wal (h.manifest.nextFileNumber + 1)) = some ⟨[], 0⟩ := by
        simp [rotated, withWal, DirOp.apply]
      obtain ⟨d, t, heq⟩ := h.rotated_eq
      rw [heq] at hfile hnew ⊢
      exact .sealed hvalid.active_pos rfl hsome (hlogs.of_file hfile) hleft ⟨⟨[], 0⟩, hnew, rfl⟩ rfl

theorem carries_rotate {status : Status} (hr : h.rotateMemTable none = (h', status))
    (hp : Present h w) (hvalid : h.manifest.Valid) (hw : h.dir.Recovers o durable h left) :
    Carries o durable h left h' left := by
  have hrestores : h.dir.Restores o durable h left := ⟨hp.manifest, hp.tables, hw⟩
  have hp' := hp.rotate hr
  rcases rotateMemTable_cases hr with ⟨hwal, -⟩ | ⟨-, -, hfault, -⟩ | ⟨rfl, -, -, hnone, hsome, -⟩
  · exact .harmless (harmless_walPrepared hvalid hwal) hwal.onlyFiles hrestores
  · exact absurd rfl hfault
  · have hwal := Carries.harmless (harmless_walPrepared hvalid .synced) h.onlyFiles_withWal hrestores
    refine hwal.onlyFiles_trans h.onlyFiles_withWal ?_
    have hr' : h.rotated.dir.Restores o durable h.rotated left :=
      ⟨hp'.manifest, hp'.tables, recovers_rotated hw hvalid hnone hsome⟩
    exact .publish h.rotated hwal.restores hr' rfl rfl (.refl _)

/-! ## Flush -/

/-- The last sequence of a sealed WAL is the largest one of its table. -/
theorem maxSequenceOf_of_logs {d : Directory} {number floor last : ℕ} {m : MemTable} {tail : Bytes}
    (hlogs : d.Logs o durable number floor last m tail) (hsome : m.isEmpty = false) :
    maxSequenceOf m.contents = last := by
  obtain ⟨f, records, -, -, -, hreplayed⟩ := hlogs
  have hbetween := hreplayed.between_empty
  rcases hreplayed.exists_last MemTable.inv_empty with rfl | ⟨e, he, hlast⟩
  · obtain rfl := hreplayed.of_nil.2
    cases hsome
  · obtain ⟨-, a, ha, hmax⟩ := exists_minSequenceOf (List.ne_nil_of_mem he)
    refine le_antisymm ?_ (hlast ▸ (sequence_bounds _ e he).2)
    rw [← hmax]
    exact (hbetween.sequences a ha).2

/-- Behind a flush only the active WAL is left; what stood behind the flushed records is gone. -/
theorem recovers_flushed {m : MemTable} {out : Output} (hw : h.dir.Recovers o durable h left)
    (himmutable : h.immutable = some m) (hmax : out.info.maxSequence = maxSequenceOf m.contents)
    (hnext : h'.nextSequence = h.nextSequence) (hmemtable : h'.memtable = h.memtable)
    (hnone : h'.immutable = none) (hmanifest : h'.manifest = flushedManifest h.manifest out)
    (hfiles : h'.dir.files = h.dir.files) :
    ∃ left', (left' = left ∨ left' = none) ∧ h'.dir.Recovers o durable h' left' := by
  have hseals : h'.dir.Seals o durable h' out.info.maxSequence := by
    have hzero : h'.manifest.immutableWalNumber = 0 := by rw [hmanifest]; rfl
    have hnew : h'.dir.Seals o durable h' h'.manifest.lastSequence := .none hzero hnone
    rwa [hmanifest] at hnew
  have hactive : h'.manifest.activeWalNumber = h.manifest.activeWalNumber := by rw [hmanifest]; rfl
  cases hw with
  | active hold hlogs hleft =>
    cases hold with
    | none _ hno =>
      rw [himmutable] at hno
      cases hno
    | some _ hsome hnonempty hsealed _ =>
      obtain rfl := Option.some.inj (himmutable.symm.trans hsome)
      rw [hmax, maxSequenceOf_of_logs hsealed hnonempty] at hseals
      refine ⟨left, .inl rfl, .active hseals ?_ (hnext ▸ hmemtable ▸ hleft)⟩
      rw [hactive, hnext, hmemtable]
      exact hlogs.of_file (by rw [hfiles])
  | sealed _ hsome hnonempty hsealed _ hempty hnew =>
    obtain rfl := Option.some.inj (himmutable.symm.trans hsome)
    rw [hmax, maxSequenceOf_of_logs hsealed hnonempty] at hseals
    obtain ⟨f, hf, hdata⟩ := hempty
    refine ⟨none, .inr rfl, .active hseals ⟨f, [], ?_, hdata, fun _ => Nat.zero_le _, ?_⟩ .nothing⟩
    · rw [hfiles, hactive, hf]
    · rw [hnext, hmemtable, hnew]
      exact .nil

theorem carries_commitFlush {d₀ : Directory} {readers : Set Table} {job : FlushJob} {out : Output}
    {status : Status} (hr : h.commitFlush o job out none = (h', status))
    (hp : Present h (.flushing job (.ready out)))
    (ha : Allocated o d₀ h (.flushing job (.ready out)) readers)
    (hl : Layered o h (.flushing job (.ready out))) (hw : h.dir.Recovers o durable h left) :
    ∃ left', (left' = left ∨ left' = none) ∧ Carries o durable h left h' left' := by
  have hrestores : h.dir.Restores o durable h left := ⟨hp.manifest, hp.tables, hw⟩
  have hp' := hp.commitFlush hr ha
  rcases commitFlush_cases hr with ⟨rfl, -⟩ | ⟨-, -, hfault, -⟩ | ⟨rfl, -⟩
  · exact ⟨left, .inl rfl, .refl hrestores⟩
  · exact absurd rfl hfault
  · obtain ⟨⟨m, hm, hentries⟩, hbuild, -⟩ := hl.output
    have hmax := (buildTable_maxSequence hbuild).2
    rw [hentries] at hmax
    let h₁ := (h.withManifest (flushedManifest h.manifest out)).installFlush o out
    obtain ⟨left', hleft, hw'⟩ : ∃ left', (left' = left ∨ left' = none) ∧
        h₁.dir.Recovers o durable h₁ left' :=
      recovers_flushed hw hm hmax rfl rfl rfl rfl rfl
    exact ⟨left', hleft, .publish h₁ hrestores ⟨hp'.manifest, hp'.tables, hw'⟩ rfl rfl (.refl _)⟩

/-! ## Compaction -/

/-- The WALs and the MemTables stay. -/
theorem recovers_congr (hw : h.dir.Recovers o durable h left)
    (hactive : h'.manifest.activeWalNumber = h.manifest.activeWalNumber)
    (himmutableWal : h'.manifest.immutableWalNumber = h.manifest.immutableWalNumber)
    (hlast : h'.manifest.lastSequence = h.manifest.lastSequence)
    (hmemtable : h'.memtable = h.memtable) (himmutable : h'.immutable = h.immutable)
    (hnext : h'.nextSequence = h.nextSequence)
    (hfiles : ∀ n, h.manifest.NamesWal n → h'.dir.files (.wal n) = h.dir.files (.wal n)) :
    h'.dir.Recovers o durable h' left := by
  have hsame : h.manifest.immutableWalNumber ≠ 0 →
      h'.dir.files (.wal h.manifest.immutableWalNumber) =
        h.dir.files (.wal h.manifest.immutableWalNumber) := fun hne => hfiles _ (.inr ⟨hne, rfl⟩)
  cases hw with
  | active hseals hlogs hleft =>
    have hlogs' := hlogs.of_file (hfiles _ (.inl rfl))
    rw [← hactive, ← hmemtable, ← hnext] at hlogs'
    rw [← hmemtable, ← hnext] at hleft
    refine .active ?_ hlogs' hleft
    have hseals' := hseals.of_file hsame
    cases hseals' with
    | none hzero hnone => exact hlast ▸ .none (himmutableWal.trans hzero) (himmutable.trans hnone)
    | some hne hsome hnonempty hsealed htorn =>
      rw [← himmutableWal, ← hlast] at hsealed
      exact .some (himmutableWal ▸ hne) (himmutable.trans hsome) hnonempty hsealed htorn
  | sealed hne hsome hnonempty hlogs hleft hempty hnew =>
    have hlogs' := hlogs.of_file (hsame hne)
    rw [← himmutableWal, ← hlast, ← hnext] at hlogs'
    rw [← hnext] at hleft
    obtain ⟨f, hf, hdata⟩ := hempty
    refine .sealed (himmutableWal ▸ hne) (himmutable.trans hsome) hnonempty hlogs' hleft
      ⟨f, ?_, hdata⟩ (hmemtable.trans hnew)
    rw [hactive, hfiles _ (.inl rfl), hf]

theorem carries_beginCompaction {r : Except Status CompactionJob}
    (hr : h.beginBackgroundCompaction o none = (h', r)) (hp : Present h w)
    (hw : h.dir.Recovers o durable h left) : Carries o durable h left h' left := by
  have hrestores : h.dir.Restores o durable h left := ⟨hp.manifest, hp.tables, hw⟩
  have hp' := hp.beginCompaction hr
  rcases beginBackgroundCompaction_cases hr with ⟨rfl, -⟩ | ⟨_, -, -, -, hfault, -⟩ | ⟨rfl, -⟩
  · exact .refl hrestores
  · exact absurd rfl hfault
  · exact .publish _ hrestores ⟨hp'.manifest, hp'.tables,
      recovers_congr hw rfl rfl rfl rfl rfl rfl fun _ _ => rfl⟩ rfl rfl (.refl _)

omit [EntrySize] in
/-- The inputs of a compaction are those the new Manifest names no more. -/
theorem not_namesTable_input {job : CompactionJob} {replacement : Option Output}
    (hvalid : h.manifest.Valid)
    (hnumbers : (h.manifest.liveTables.take job.metas.length).map TableMeta.fileNumber =
      job.metas.map TableMeta.fileNumber)
    (hfresh : ∀ out, replacement = some out → ∀ m ∈ h.manifest.liveTables,
      m.fileNumber ≠ out.table.number) :
    ∀ m ∈ job.metas, ¬ (compactedManifest h.manifest job replacement).NamesTable m.fileNumber := by
  intro m hm hmem
  have hinput : m.fileNumber ∈ (h.manifest.liveTables.take job.metas.length).map
      TableMeta.fileNumber := hnumbers ▸ List.mem_map_of_mem hm
  have hlive : (compactedManifest h.manifest job replacement).liveTables =
      (replacement.map Output.tableMeta).toList ++ h.manifest.liveTables.drop job.metas.length := by
    cases replacement <;> rfl
  rw [ManifestSnapshot.NamesTable, hlive, List.map_append] at hmem
  rcases List.mem_append.mp hmem with hout | hrest
  · obtain ⟨m', hm', heq⟩ := List.mem_map.mp hout
    obtain ⟨out, hout, rfl⟩ := Option.map_eq_some_iff.mp (Option.mem_toList.mp hm')
    obtain ⟨m₀, hm₀, hnumber⟩ := List.mem_map.mp hinput
    exact hfresh out hout m₀ (List.mem_of_mem_take hm₀) (hnumber.trans heq.symm)
  · have hnodup := hvalid.numbers
    rw [← List.take_append_drop job.metas.length h.manifest.liveTables, List.map_append,
      List.nodup_append] at hnodup
    exact hnodup.2.2 _ hinput _ hrest rfl

theorem carries_commitCompaction {job : CompactionJob} {replacement : Option Output}
    {status : Status}
    (hr : h.commitCompaction job replacement none (fun _ => false) = (h', status))
    (hp : Present h w) (hp' : Present h' w') (hvalid : h.manifest.Valid)
    (hfresh : ∀ out, replacement = some out → ∀ m ∈ h.manifest.liveTables,
      m.fileNumber ≠ out.table.number)
    (hw : h.dir.Recovers o durable h left) : Carries o durable h left h' left := by
  have hrestores : h.dir.Restores o durable h left := ⟨hp.manifest, hp.tables, hw⟩
  rcases commitCompaction_cases hr with
    ⟨rfl, -⟩ | ⟨-, -, hfault, -⟩ | ⟨rfl, -, -, -, -, hnumbers, -⟩
  · exact .refl hrestores
  · exact absurd rfl hfault
  set next := compactedManifest h.manifest job replacement with hnext
  set h₁ : Handle := { h.withManifest next with
    tables := (replacement.map Output.table).toList ++ h.tables.drop job.metas.length } with hh₁
  have hharmless : Harmless h₁ ((h.withManifest next).installCompaction job replacement
      fun _ => false) := by
    refine Harmless.removeAll (fun name hname => ?_) fun _ => false
    obtain ⟨m, hm, rfl⟩ := List.mem_map.mp hname
    exact not_namesTable_input hvalid hnumbers hfresh m hm
  obtain ⟨d, t, p, heq⟩ := h.installCompaction_eq next job replacement fun _ => false
  have hwals : ∀ n, h.manifest.NamesWal n → next.NamesWal n := by
    intro n hn
    cases replacement <;> exact hn
  have hfiles : ∀ n, h.manifest.NamesWal n → ((h.withManifest next).installCompaction job replacement
      fun _ => false).dir.files (.wal n) = h.dir.files (.wal n) := by
    intro n hn
    exact hharmless.files.2 (.wal n) (hwals n hn)
  have hw' : ((h.withManifest next).installCompaction job replacement fun _ => false).dir.Recovers o
      durable ((h.withManifest next).installCompaction job replacement fun _ => false) left := by
    refine recovers_congr hw ?_ ?_ ?_ ?_ ?_ ?_ hfiles
    all_goals rw [heq]
    all_goals cases replacement <;> rfl
  exact .publish h₁ hrestores ⟨hp'.manifest, hp'.tables, hw'⟩ rfl rfl hharmless

/-! ## Builds -/

omit [EntrySize] in
theorem harmless_buildsTo {checked : Output → Option Status} {number : ℕ}
    {entries : List InternalEntry} {phase phase' : BuildPhase}
    (hb : BuildsTo o checked number entries h phase h' phase')
    (hlive : ∀ m ∈ h.manifest.liveTables, m.fileNumber ≠ number) : Harmless h h' := by
  have htable : ¬ h.manifest.Names (.sst number) := by
    intro hn
    obtain ⟨m, hm, heq⟩ := List.mem_map.mp hn
    exact hlive m hm heq
  have htmp : ∀ h₁ : Handle, (DirOp.create (.sstTmp number)).Harmless h₁.manifest ∧
      (∀ bytes, (DirOp.append (.sstTmp number) bytes).Harmless h₁.manifest) ∧
      (DirOp.sync (.sstTmp number)).Harmless h₁.manifest :=
    fun _ => ⟨⟨id, by simp⟩, fun _ => ⟨id, by simp⟩, id, by simp⟩
  cases hb with
  | create => exact .perform (htmp h).1
  | write => exact (Harmless.perform ((htmp h).2.1 _)).trans (.perform (htmp _).2.2)
  | verify => exact .refl _
  | rename =>
    have hop : (DirOp.rename (.sstTmp number) (.sst number)).Harmless h.manifest := ⟨id, htable⟩
    exact .perform hop
  | syncDir => exact .perform trivial

omit [EntrySize] in
theorem harmless_failedWrite (number : ℕ) (bytes : Bytes) :
    Harmless h (h.perform (.append (.sstTmp number) bytes)) := by
  have hop : (DirOp.append (.sstTmp number) bytes).Harmless h.manifest := ⟨id, by simp⟩
  exact .perform hop

omit [EntrySize] in
theorem harmless_buildStep {context : BuildContext} {checked : Output → Option Status} {number : ℕ}
    {entries : List InternalEntry} {fault : Option Failure} {phase : BuildPhase}
    {r : Except Status BuildPhase} (hchecked : ∀ out s, checked out = some s → s.ok = false)
    (hphase : ∀ out, phase ≠ .ready out)
    (hr : h.buildStep o context checked number entries fault phase = (h', r))
    (hlive : ∀ m ∈ h.manifest.liveTables, m.fileNumber ≠ number) : Harmless h h' := by
  cases r with
  | ok phase' => exact harmless_buildsTo (buildStep_ok hphase hr) hlive
  | error status =>
    rcases (buildStep_error hchecked hr).2 with rfl | ⟨-, rfl⟩
    · exact .refl _
    · exact harmless_failedWrite _ _

omit [EntrySize] in
theorem harmless_buildOutput {number : ℕ} {entries : List InternalEntry} {f : CompactFaults}
    {r : Except Status Output} (hr : h.buildOutput o number entries f = (h', r))
    (hlive : ∀ m ∈ h.manifest.liveTables, m.fileNumber ≠ number) : Harmless h h' := by
  have hrule := buildOutput_rule (fun _ h₁ => Harmless h h₁) (Harmless h)
    (fun _ _ _ _ hb hP => hP.trans (harmless_buildsTo hb (hP.manifest ▸ hlive)))
    (fun _ _ hP => hP) (fun _ hP => hP.trans (harmless_failedWrite _ _)) hr (.refl h)
  cases r with
  | ok out => exact hrule
  | error status => exact hrule.2

/-- An explicit compaction sweeps and builds before its last region. -/
theorem carries_compactTablePrefix {d₀ : Directory} {readers : Set Table} {inputCount : ℕ}
    {f : CompactFaults} {status : Status} (hr : h.compactTablePrefix o inputCount f = (h', status))
    (hsweep : f.sweep.fails = fun _ => false) (hfails : f.fails = fun _ => false)
    (hpublish : f.publish = none) (hp : Present h w) (ha : Allocated o d₀ h w readers)
    (hrenamed : h.compactionStatus o inputCount false = none → w.renamed? = none)
    (hw : h.dir.Recovers o durable h left) : Carries o durable h left h' left := by
  have hrestores : h.dir.Restores o durable h left := ⟨hp.manifest, hp.tables, hw⟩
  have hp' := hp.compactTablePrefix hr hsweep hfails hpublish ha hrenamed
  rcases compactTablePrefix_cases hr with ⟨rfl, -⟩ | ⟨hstatus, h₁, hh₁, hend⟩
  · exact .refl hrestores
  specialize hrenamed hstatus
  have hswept : Harmless h h₁ := hh₁ ▸ .cleanupObsoleteFiles hp.pending _ _
  have hsweptFiles : OnlyFiles h h₁ := hh₁ ▸ .cleanupObsoleteFiles _ _ _
  have hp₁ : Present h₁ w := by
    rw [hh₁, hsweep]
    exact hp.cleanupObsoleteFiles hrenamed _
  have ha₁ : Allocated o d₀ h₁ w readers := hh₁ ▸ ha.cleanupObsoleteFiles _ _
  have hfirst : Carries o durable h left h₁ left := .harmless hswept hsweptFiles hrestores
  have hlive : ∀ m ∈ h₁.manifest.liveTables, m.fileNumber ≠ h₁.manifest.nextFileNumber :=
    fun m hm => (ha₁.valid.tables m hm).number_lt.ne
  rw [hpublish, hfails] at hend
  rcases hend with rfl | ⟨_, -, -, hc⟩ | ⟨_, h₂, r, -, -, hbuild, hend⟩
  · exact hfirst
  · exact hfirst.onlyFiles_trans hsweptFiles
      (carries_commitCompaction hc hp₁ hp' ha₁.valid (by simp) hfirst.restores.wals)
  · obtain ⟨hp₂, hout⟩ := hp₁.buildOutput hbuild ha₁ hrenamed
    have hbuiltFiles := hsweptFiles.trans (OnlyFiles.buildOutput hbuild)
    have hbuilt : Carries o durable h left h₂ left :=
      .harmless (hswept.trans (harmless_buildOutput hbuild hlive)) hbuiltFiles hrestores
    rcases hend with ⟨-, rfl⟩ | ⟨out, rfl, hc⟩
    · exact hbuilt
    · have hmanifest : h₂.manifest = h₁.manifest := (OnlyFiles.buildOutput hbuild).layers.1
      refine hbuilt.onlyFiles_trans hbuiltFiles (carries_commitCompaction hc hp₂ hp'
        (hmanifest ▸ ha₁.valid) (fun out' ho m hm => ?_) hbuilt.restores.wals)
      cases ho
      rw [(hout out rfl).2]
      exact hlive m (hmanifest ▸ hm)

end

end Handle

end TinyLsm
