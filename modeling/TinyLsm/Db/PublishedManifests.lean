import TinyLsm.Db.CompactionRun

/-!
# The Manifests that are handed to `Publish`

Rotation, flush and the two regions of a compaction derive the next Manifest from the current one,
some of them from a copy of it that was taken before other regions ran. Every one of them passes
`ValidateSnapshot`: the layers of the handle give the order of the sequences, and its numbers give
the rest.
-/

namespace TinyLsm

/-! ## The entry of an output -/

/-- A file that `Open` accepts is not empty. -/
theorem SSTableReader.open_fileSize {file : Bytes} {number : ℕ} {r : SSTableReader}
    (h : SSTableReader.open file number = .ok r) : r.fileSize ≠ 0 := by
  obtain ⟨footer, -, hfooter, -⟩ := SSTableReader.open_eq_ok h
  have hpos : file.length ≠ 0 := by
    intro hzero
    unfold SSTableReader.readFooter at hfooter
    rw [hzero, if_pos (by decide)] at hfooter
    cases hfooter
  unfold SSTableReader.open at h
  repeat' split at h
  all_goals cases h
  exact hpos

/-- The bounds of the sequences of an output are met by its entries. -/
theorem Output.Built.bounds {o : Options} {number : ℕ} {entries : List InternalEntry} {out : Output}
    (hb : out.Built o number entries) :
    (∃ e ∈ entries, e.sequence = out.info.minSequence) ∧
      ∃ e ∈ entries, e.sequence = out.info.maxSequence := by
  obtain ⟨hne, hmax⟩ := buildTable_maxSequence hb.built
  rw [(buildTable_sequences hb.built).2.1, hmax]
  exact exists_minSequenceOf hne

/-- The Manifest entry of an output satisfies the rules, if its number does. -/
theorem Output.Built.valid {o : Options} {number : ℕ} {entries : List InternalEntry} {out : Output}
    {s : ManifestSnapshot} (hb : out.Built o number entries)
    (hmatches : out.tableMeta.matches out.properties) (hpos : number ≠ 0)
    (hactive : number ≠ s.activeWalNumber) (himmutable : number ≠ s.immutableWalNumber)
    (hlt : number < s.nextFileNumber) (hlast : out.info.maxSequence ≤ s.lastSequence) :
    out.tableMeta.Valid s := by
  obtain ⟨bss, hvalid, hne, hsequences, hp⟩ := SSTableReader.validate_sound hb.validated
  rw [hp] at hmatches
  simp only [TableMeta.matches, Bool.and_eq_true, decide_eq_true_eq] at hmatches
  obtain ⟨⟨⟨⟨hsize, hsmallest⟩, hlargest⟩, hmin⟩, hmax⟩ := hmatches
  have hnumber : out.tableMeta.fileNumber = number := hb.number_eq
  obtain ⟨⟨e, he, hemin⟩, e', he', hemax⟩ := exists_minSequenceOf hne
  have hord := hvalid.ordered.flatten
  have hbounds := sequence_bounds bss.flatten e he
  refine ⟨hnumber ▸ hpos, hnumber ▸ hactive, hnumber ▸ himmutable, hnumber ▸ hlt, ?_, ?_, ?_, ?_, ?_,
    hlast⟩
  · rw [hsize]
    exact SSTableReader.open_fileSize hb.opened
  · rw [hsmallest, hlargest]
    exact (groupKey_le_of_mem hord he).trans (le_lastKeyOf_of_mem [] hord he)
  · rw [hmin, ← hemin]
    exact (hsequences e he).ne'
  · rw [hmax, ← hemax]
    exact (hsequences e' he').ne'
  · rw [hmin, hmax]
    exact hbounds.1.trans hbounds.2

/-! ## Rotation, reservation and flush -/

theorem rotatedManifest_valid {m : ManifestSnapshot} (hm : m.Valid) :
    (Handle.rotatedManifest m).Valid := by
  have hactive := hm.active_lt
  refine ⟨by simp [Handle.rotatedManifest], ?_, ?_, ?_, fun t ht => ?_, hm.numbers, hm.increasing⟩
  · simp only [Handle.rotatedManifest]
    omega
  · simp [Handle.rotatedManifest]
  · simp only [Handle.rotatedManifest]
    omega
  · have h := hm.tables t ht
    have hlt := h.number_lt
    refine ⟨h.number_pos, ?_, h.number_ne_active, ?_, h.size_pos, h.keys_le, h.min_pos, h.max_pos,
      h.sequences_le, h.max_le⟩
    · simp only [Handle.rotatedManifest]
      omega
    · simp only [Handle.rotatedManifest]
      omega

/-- The table of a flush comes behind the others, and the number before the active WAL is free. -/
theorem flushedManifest_valid {o : Options} {m : ManifestSnapshot} {number : ℕ}
    {entries : List InternalEntry} {out : Output} (hm : m.Valid)
    (hb : out.Built o number entries) (hmatches : out.tableMeta.matches out.properties)
    (hpos : number ≠ 0) (hnumber : m.activeWalNumber = number + 1)
    (hfresh : ∀ t ∈ m.liveTables, t.fileNumber ≠ number)
    (habove : ∀ e ∈ entries, m.lastSequence < e.sequence) :
    (Handle.flushedManifest m out).Valid := by
  have hactive := hm.active_lt
  obtain ⟨⟨e, he, hmin⟩, e', he', hmax⟩ := hb.bounds
  have hlow : m.lastSequence < out.tableMeta.minSequence := (habove e he).trans_eq hmin
  have hhigh : m.lastSequence < out.tableMeta.maxSequence := (habove e' he').trans_eq hmax
  have hout : out.tableMeta.Valid (Handle.flushedManifest m out) := by
    refine hb.valid hmatches hpos ?_ hpos ?_ le_rfl
    · simp only [Handle.flushedManifest]
      omega
    · simp only [Handle.flushedManifest]
      omega
  refine ⟨hm.active_pos, hm.active_pos.symm, hm.active_lt, ?_, fun t ht => ?_, ?_, ?_⟩
  · simp only [Handle.flushedManifest]
    omega
  · rcases List.mem_append.mp ht with ht | ht
    · have h := hm.tables t ht
      exact ⟨h.number_pos, h.number_ne_active, h.number_pos, h.number_lt, h.size_pos, h.keys_le,
        h.min_pos, h.max_pos, h.sequences_le, h.max_le.trans hhigh.le⟩
    · rw [List.mem_singleton.mp ht]
      exact hout
  · show ((m.liveTables ++ [out.tableMeta]).map TableMeta.fileNumber).Nodup
    rw [List.map_append, List.map_singleton, List.nodup_append]
    refine ⟨hm.numbers, List.nodup_singleton _, fun n hn n' hn' heq => ?_⟩
    obtain ⟨t, ht, rfl⟩ := List.mem_map.mp hn
    rw [List.mem_singleton.mp hn'] at heq
    exact hfresh t ht (heq.trans hb.number_eq)
  · refine (List.pairwise_append.mpr ⟨Layered.ranges_pairwise hm, List.pairwise_singleton _ _,
      fun t ht u hu => ?_⟩).isChain
    rw [List.mem_singleton.mp hu]
    exact (hm.tables t ht).max_le.trans_lt hlow

/-! ## Compaction -/

/-- Dropping the oldest tables, and the reserved number that no one uses. -/
theorem compactedManifest_none_valid {m : ManifestSnapshot} {job : CompactionJob} (hm : m.Valid)
    (hfresh : ∀ t ∈ m.liveTables, t.fileNumber ≠ job.number)
    (hactive : job.number ≠ m.activeWalNumber)
    (himmutable : job.number ≠ m.immutableWalNumber) :
    (Handle.compactedManifest m job none).Valid := by
  have hlt : ∀ n, n < m.nextFileNumber → n ≠ job.number →
      n < (Handle.compactedManifest m job none).nextFileNumber := fun n hn hne =>
    Allocated.lt_compacted_next hn hne
  refine ⟨hm.active_pos, hm.wals_ne, hlt _ hm.active_lt hactive.symm,
    hlt _ hm.immutable_lt himmutable.symm, fun t ht => ?_, ?_, ?_⟩
  · have ht := List.mem_of_mem_drop ht
    have h := hm.tables t ht
    exact ⟨h.number_pos, h.number_ne_active, h.number_ne_immutable, hlt _ h.number_lt (hfresh t ht),
      h.size_pos, h.keys_le, h.min_pos, h.max_pos, h.sequences_le, h.max_le⟩
  · exact List.Nodup.sublist ((List.drop_sublist _ _).map _) hm.numbers
  · exact (List.Pairwise.sublist (List.drop_sublist _ _) (Layered.ranges_pairwise hm)).isChain

/-- The output takes the place of the oldest tables, and its sequences are theirs. -/
theorem compactedManifest_some_valid {o : Options} {m : ManifestSnapshot} {job : CompactionJob}
    {entries : List InternalEntry} {out : Output} (hm : m.Valid)
    (hb : out.Built o job.number entries) (hmatches : out.tableMeta.matches out.properties)
    (hpos : job.number ≠ 0) (hle : job.number ≤ m.nextFileNumber)
    (hfresh : ∀ t ∈ m.liveTables, t.fileNumber ≠ job.number)
    (hactive : job.number ≠ m.activeWalNumber) (himmutable : job.number ≠ m.immutableWalNumber)
    (hspan : ∀ e ∈ entries, ∃ t ∈ m.liveTables.take job.metas.length, e.sequence ≤ t.maxSequence) :
    (Handle.compactedManifest m job (some out)).Valid := by
  have hlt : ∀ n, n < m.nextFileNumber → n ≠ job.number →
      n < (Handle.compactedManifest m job (some out)).nextFileNumber := fun n hn hne =>
    Allocated.lt_compacted_next hn hne
  obtain ⟨-, e, he, hmax⟩ := hb.bounds
  obtain ⟨u, hu, hle'⟩ := hspan e he
  have hmax : out.info.maxSequence ≤ u.maxSequence := hmax ▸ hle'
  have hpairwise := Layered.ranges_pairwise hm
  have hout : out.tableMeta.Valid (Handle.compactedManifest m job (some out)) :=
    hb.valid hmatches hpos hactive himmutable (Allocated.lt_compacted_next_some hle)
      (hmax.trans (hm.tables u (List.mem_of_mem_take hu)).max_le)
  refine ⟨hm.active_pos, hm.wals_ne, hlt _ hm.active_lt hactive.symm,
    hlt _ hm.immutable_lt himmutable.symm, fun t ht => ?_, ?_, ?_⟩
  · rcases List.mem_cons.mp ht with rfl | ht
    · exact hout
    · have ht := List.mem_of_mem_drop ht
      have h := hm.tables t ht
      exact ⟨h.number_pos, h.number_ne_active, h.number_ne_immutable,
        hlt _ h.number_lt (hfresh t ht), h.size_pos, h.keys_le, h.min_pos, h.max_pos,
        h.sequences_le, h.max_le⟩
  · show ((out.tableMeta :: m.liveTables.drop job.metas.length).map TableMeta.fileNumber).Nodup
    rw [List.map_cons, List.nodup_cons]
    refine ⟨fun hmem => ?_, List.Nodup.sublist ((List.drop_sublist _ _).map _) hm.numbers⟩
    obtain ⟨t, ht, heq⟩ := List.mem_map.mp hmem
    exact hfresh t (List.mem_of_mem_drop ht) (heq.trans hb.number_eq)
  · show (out.tableMeta :: m.liveTables.drop job.metas.length).IsChain _
    refine (List.pairwise_cons.mpr ⟨fun t ht => ?_,
      List.Pairwise.sublist (List.drop_sublist _ _) hpairwise⟩).isChain
    rw [← List.take_append_drop job.metas.length m.liveTables] at hpairwise
    exact hmax.trans_lt ((List.pairwise_append.mp hpairwise).2.2 u hu t ht)

/-! ## Every call -/

/-- The job of a flush was taken by its first region. -/
theorem System.Step.flushJob_cases [EntrySize] {o : Options} {faultFree : Bool} {s s' : System}
    {job : FlushJob} (hstep : System.Step o faultFree s s') (hjob : s'.worker.flushJob? = some job) :
    s.worker.flushJob? = some job ∨ ∃ sweep h, s.handle.beginFlush sweep = (h, .ok job) := by
  cases hstep with
  | workerClaim =>
    simp only [Handle.claim] at hjob
    repeat' split at hjob
    all_goals cases hjob
  | @flushBegin h r sweep _ _ hr =>
    cases r with
    | ok job' =>
      cases hjob
      exact .inr ⟨sweep, h, hr⟩
    | error status => cases hjob
  | @flushBuild job' phase _ r fault _ hworker =>
    cases r with
    | ok phase' =>
      cases hjob
      exact .inl (by rw [hworker]; rfl)
    | error status => cases hjob
  | flushCommit =>
    simp only at hjob
    split at hjob <;> cases hjob
  | @compactBegin _ r => cases r <;> cases hjob
  | @compactBuild _ _ _ _ r => cases r <;> cases hjob
  | compactMerge =>
    simp only at hjob
    repeat' split at hjob
    all_goals cases hjob
  | write | getSnapshot | releaseSnapshot | compactCall | compactResume | compactRun | closeRound
  | closeWake | closeSync | closeJoined | next => exact .inl hjob
  | closeCall =>
    split at hjob
    · exact .inl hjob
    · exact .inl hjob
  | workerExit | flushRemove | compactCommit | compactDrop | workerException | workerAccount =>
    cases hjob

/-- The number of a flush is the one before the active WAL, which is not the first. -/
theorem System.Step.flush_number_pos [EntrySize] {o : Options} {faultFree : Bool} {s s' : System}
    (hstep : System.Step o faultFree s s')
    (hs : ∀ job, s.worker.flushJob? = some job → job.tableNumber ≠ 0) (job : FlushJob)
    (hjob : s'.worker.flushJob? = some job) : job.tableNumber ≠ 0 := by
  rcases hstep.flushJob_cases hjob with hjob | ⟨sweep, h, hr⟩
  · exact hs job hjob
  · obtain ⟨-, ⟨status, herror, -⟩ | ⟨m, -, -, hactive, -, -, -, hok⟩⟩ := Handle.beginFlush_cases hr
    · cases herror
    · cases hok
      simp only
      omega

namespace Allocated

variable {o : Options} {d₀ : Directory} {h : Handle} {w : Worker} {readers : Set Table}

theorem fresh_metas (ha : Allocated o d₀ h w readers) {n : ℕ}
    (hfresh : ∀ t ∈ readers, t.number ≠ n) : ∀ m ∈ h.manifest.liveTables, m.fileNumber ≠ n := by
  intro m hm
  have hnumber : m.fileNumber ∈ h.tables.map Table.number := by
    rw [ha.numbers]
    exact List.mem_map_of_mem hm
  obtain ⟨t, ht, heq⟩ := List.mem_map.mp hnumber
  exact heq ▸ hfresh t (ha.live t ht)

end Allocated

theorem ManifestSnapshot.FreeOfWals.ne_active {m : ManifestSnapshot} {n : ℕ} (h : m.FreeOfWals n) :
    n ≠ m.activeWalNumber := fun heq => h.wal (.inl heq)

theorem ManifestSnapshot.FreeOfWals.ne_immutable {m : ManifestSnapshot} {n : ℕ}
    (h : m.FreeOfWals n) (hn : n ≠ 0) : n ≠ m.immutableWalNumber := fun heq =>
  h.wal (.inr ⟨heq ▸ hn, heq⟩)

section
variable {o : Options} {d₀ : Directory} {readers : Set Table}

/-- The versions of the inputs lie below those of the tables behind them. -/
theorem CompactionJob.Selected.span {h : Handle} {w : Worker} {job : CompactionJob} {next : ℕ}
    (hs : job.Selected readers next) (ha : Allocated o d₀ h w readers) (hl : Layered o h w)
    (hnumbers : (h.manifest.liveTables.take job.metas.length).map TableMeta.fileNumber =
      job.metas.map TableMeta.fileNumber) :
    ∀ e ∈ job.inputs, ∃ t ∈ h.manifest.liveTables.take job.metas.length,
      e.sequence ≤ t.maxSequence := by
  intro e he
  have htake := List.forall₂_take job.metas.length hl.tables
  rw [hs.tables_eq ha hnumbers] at htake
  obtain ⟨m, hm, hspan⟩ := (Layered.tables_distinct htake (List.Pairwise.sublist
    (List.take_sublist _ _) (Layered.ranges_pairwise hl.valid))).2 e he
  exact ⟨m, hm, hspan.le_max⟩

/-- The last region of a compaction whose output number is fresh. -/
theorem Kept.compaction_valid {h : Handle} {w : Worker} {job : CompactionJob}
    {replacement : Option Output} {next : ManifestSnapshot} {sequence : ℕ}
    (ha : Allocated o d₀ h w readers) (hl : Layered o h w) (hs : job.Selected readers sequence)
    (hle : job.number ≤ h.manifest.nextFileNumber) (hfresh : ∀ t ∈ readers, t.number ≠ job.number)
    (hfree : h.manifest.FreeOfWals job.number)
    (hout : ∀ out, replacement = some out → ∃ entries, out.Built o job.number entries ∧
      compactionChecked out = none ∧ ∀ e ∈ entries, e ∈ job.inputs)
    (hnext : h.CompactionPublishes job replacement next) : next.Valid := by
  rw [hnext.next_eq]
  have hmetas := ha.fresh_metas hfresh
  have himmutable := hfree.ne_immutable hs.number_pos
  cases replacement with
  | none => exact compactedManifest_none_valid hl.valid hmetas hfree.ne_active himmutable
  | some out =>
    obtain ⟨entries, hb, hchecked, hsub⟩ := hout out rfl
    exact compactedManifest_some_valid hl.valid hb (Handle.matches_of_compactionChecked hchecked)
      hs.number_pos hle hmetas hfree.ne_active himmutable fun e he =>
        hs.span ha hl hnext.numbers e (hsub e he)

variable {s : System} {next : ManifestSnapshot}

/-- An explicit compaction, which holds the lock throughout. -/
theorem Kept.explicit_valid {inputCount : ℕ} {f : Handle.CompactFaults} {h : Handle}
    {job : CompactionJob} {replacement : Option Output} (hk : Kept o d₀ readers s)
    (hreach : s.handle.CompactsTo o inputCount f h job replacement)
    (hnext : h.CompactionPublishes job replacement next) : next.Valid := by
  have hfiles := Handle.OnlyFiles.cleanupObsoleteFiles s.handle f.sweep.listed f.sweep.fails
  have ha := hk.allocated.cleanupObsoleteFiles f.sweep.listed f.sweep.fails
  have hl := hk.layered.onlyFiles hfiles
  have hc := hk.compacts.congr (subset_refl readers) hfiles.sameReads.1
    hfiles.sameReads.2
  have hfresh : ∀ h₁ : Handle, Allocated o d₀ h₁ s.worker readers →
      ∀ t ∈ readers, t.number ≠ h₁.manifest.nextFileNumber := fun _ ha t ht => (ha.lt_next t ht).ne
  cases hreach with
  | drop hstatus hsweep hmerged hnil =>
    subst hsweep
    exact Kept.compaction_valid ha hl (Compacts.selected ha hl inputCount) le_rfl (hfresh _ ha)
      ha.next_free (by simp) hnext
  | build hstatus hsweep hmerged hbuild =>
    subst hsweep
    have hs := Compacts.selected ha hl inputCount
    obtain ⟨merged', hmerged', hkeeps⟩ := hs.keeps hc.space hc.snapshots
    obtain rfl := Except.ok.inj (hmerged'.symm.trans hmerged)
    obtain ⟨ha₂, hbuilt⟩ := ha.buildOutput hbuild
    have hbuildFiles := Handle.OnlyFiles.buildOutput hbuild
    have hl₂ := hl.onlyFiles hbuildFiles
    have hchecked := (Layered.buildOutput hbuild).2
    obtain ⟨d, t, p, rfl⟩ := hbuildFiles
    refine Kept.compaction_valid ha₂ hl₂ hs le_rfl (hfresh _ ha) ha.next_free
      (fun out' hout' => ?_) hnext
    obtain rfl := Option.some.inj hout'
    exact ⟨_, hbuilt _ rfl, hchecked, hkeeps.subset⟩

/-- Every Manifest that is handed to `Publish` satisfies `ValidateSnapshot`. -/
theorem Kept.publishes_valid [EntrySize] (hk : Kept o d₀ readers s)
    (hflush : ∀ job, s.worker.flushJob? = some job → job.tableNumber ≠ 0)
    (hp : s.Publishes o next) : next.Valid := by
  have ha := hk.allocated
  have hl := hk.layered
  have hc := hk.compacts.worker
  cases hp with
  | rotateBefore _ _ hnext =>
    rw [hnext.next_eq]
    exact rotatedManifest_valid hl.valid
  | @rotateBehind group f h₁ _ bytes memtable hprepare _ _ _ _ hnext =>
    have hlogged : (h₁.logged o bytes).manifest = h₁.manifest := by
      obtain ⟨d, t, p, heq⟩ := h₁.onlyFiles_logged o bytes
      rw [heq]
    rw [hnext.next_eq]
    refine rotatedManifest_valid ?_
    show (h₁.logged o bytes).manifest.Valid
    rw [hlogged]
    exact (hl.prepareForWrite hprepare).valid
  | rotateClose _ hnext =>
    rw [hnext.next_eq]
    exact rotatedManifest_valid hl.valid
  | @flush job out hworker hnext =>
    rw [hworker] at ha hl hflush
    obtain ⟨-, hfresh, -⟩ := ha.flush job rfl
    obtain ⟨⟨m, hm, hentries⟩, -⟩ := hl.output
    rw [hnext.next_eq]
    exact flushedManifest_valid hl.valid ha.builds.1 hnext.matches_properties (hflush job rfl)
      hnext.activeWal (ha.fresh_metas hfresh) fun e he => (hl.sealed m hm e (hentries ▸ he)).1
  | reserve _ hnext =>
    rw [hnext.next_eq]
    exact Allocated.reserved_valid hl.valid
  | @compact job entries out hworker hnext =>
    rw [hworker] at ha hl hc
    obtain ⟨hlt, hfresh, hfree⟩ := ha.compaction job.number rfl
    refine Kept.compaction_valid ha hl hc.1 hlt.le hfresh hfree (fun out' hout' => ?_) hnext
    obtain rfl := Option.some.inj hout'
    exact ⟨entries, ha.builds.1, hl.output.2.2, hc.2.subset⟩
  | @drop job hworker hnext =>
    rw [hworker] at ha hl hc
    obtain ⟨hlt, hfresh, hfree⟩ := ha.compaction job.number rfl
    exact Kept.compaction_valid ha hl hc.1 hlt.le hfresh hfree (by simp) hnext
  | explicit _ hreach hnext => exact hk.explicit_valid hreach hnext

end

/-! ## Every run -/

/-- The layers of a handle: the tables in the order of the Manifest, the immutable MemTable, the
active one and the sequences to come. -/
structure Handle.SequencesLayered (h : Handle) : Prop where
  corresponds : List.Forall₂ (fun m t => m.fileNumber = t.number ∧ m.Describes t)
    h.manifest.liveTables h.tables
  tables : h.tables.Pairwise fun t t' =>
    ∀ e ∈ t.entries, ∀ e' ∈ t'.entries, e.sequence < e'.sequence
  flushed : ∀ t ∈ h.tables, ∀ e ∈ t.entries, e.sequence ≤ h.manifest.lastSequence
  sealed : ∀ m, h.immutable = some m → ∀ e ∈ m.contents, h.manifest.lastSequence < e.sequence ∧
    ∀ e' ∈ h.memtable.contents, e.sequence < e'.sequence
  active : ∀ e ∈ h.memtable.contents, h.manifest.lastSequence < e.sequence
  next : ∀ e ∈ h.versions, e.sequence < h.nextSequence
  last : h.manifest.lastSequence < h.nextSequence
  space : h.nextSequence < 2 ^ 64

theorem forall₂_numbers {metas : List TableMeta} {tables : List Table}
    (h : List.Forall₂ TableMeta.Describes metas tables)
    (hnumbers : tables.map Table.number = metas.map TableMeta.fileNumber) :
    List.Forall₂ (fun m t => m.fileNumber = t.number ∧ m.Describes t) metas tables := by
  induction h with
  | nil => exact .nil
  | cons hdescribes _ ih =>
    rw [List.map_cons, List.map_cons, List.cons.injEq] at hnumbers
    exact .cons ⟨hnumbers.1.symm, hdescribes⟩ (ih hnumbers.2)

theorem Kept.sequencesLayered {o : Options} {d₀ : Directory} {readers : Set Table} {s : System}
    (hk : Kept o d₀ readers s) : s.handle.SequencesLayered := by
  have hl := hk.layered
  refine ⟨forall₂_numbers hl.tables hk.allocated.numbers,
    Layered.tables_increase hl.tables (Layered.ranges_pairwise hl.valid),
    fun t ht e he => hl.flushed_le (List.mem_flatMap_of_mem ht he), fun m hm e he => ?_,
    fun e he => (hl.active e he).1, fun e he => hl.versions_lt he, hl.next, hk.compacts.space⟩
  obtain ⟨hlast, -, hnewer⟩ := hl.sealed m hm e he
  exact ⟨hlast, hnewer⟩

/-- `Publish` of a valid Manifest reports `InvalidArgument` only where a file operation did. -/
theorem Handle.publish_of_valid {next : ManifestSnapshot} (hnext : next.Valid) (h : Handle)
    (fault : Option PublishFault) (message : String)
    (hfail : (h.publish next fault).2 = .notPublished (.invalidArgument message)) :
    ∃ status, fault = some (.notPublished status) ∧ status.1 = .invalidArgument message := by
  unfold Handle.publish encodeManifest at hfail
  rw [ManifestSnapshot.validate_eq_none_iff.mpr hnext] at hfail
  dsimp only at hfail
  split at hfail
  · rename_i status hencode
    obtain rfl := PublishOutcome.notPublished.inj hfail
    split at hencode
    · cases hencode
    split at hencode
    · cases hencode
    · cases hencode
  · cases fault with
    | none => cases hfail
    | some fault =>
      cases fault with
      | notPublished status => exact ⟨status, rfl, PublishOutcome.notPublished.inj hfail⟩
      | syncDir status => cases hfail

section
variable [EntrySize] {o : Options} {d : Directory} {listing : Listing} {sweep : SweepFaults}
  {h : Handle} {s : System}

/-- In every state of every run, whatever failed before it: the sequences are layered, the counter
never goes back, and every Manifest that a region hands to `Publish` satisfies `ValidateSnapshot`. -/
theorem sequences_are_layered (hd : d.Written) (hopen : Handle.open o d listing sweep = .ok h)
    (hrun : (System.system o false).Run (System.started h) s) :
    s.handle.SequencesLayered ∧
    (∀ s', System.Step o false s s' → s.handle.nextSequence ≤ s'.handle.nextSequence ∧
      Handle.PublishesOnly (s.Publishes o) s.handle s'.handle) ∧
    ∀ next, s.Publishes o next → next.validate = none ∧
      ∀ (h : Handle) (fault : Option PublishFault) (message : String),
        (h.publish next fault).2 = .notPublished (.invalidArgument message) →
          ∃ status, fault = some (.notPublished status) ∧ status.1 = .invalidArgument message := by
  obtain ⟨readers, hk⟩ := Kept.of_run hd hopen hrun
  have hflush : ∀ job, s.worker.flushJob? = some job → job.tableNumber ≠ 0 :=
    hrun.keeps (P := fun s => ∀ job, s.worker.flushJob? = some job → job.tableNumber ≠ 0)
      (fun _ _ hstep hs => System.Step.flush_number_pos hstep hs)
      (by simp [System.started, Worker.flushJob?])
  refine ⟨hk.sequencesLayered, fun s' hstep => ⟨hstep.nextSequence.1, hstep.publishesOnly⟩,
    fun next hnext => ?_⟩
  have hvalid := hk.publishes_valid hflush hnext
  exact ⟨ManifestSnapshot.validate_eq_none_iff.mpr hvalid, Handle.publish_of_valid hvalid⟩

end

/-- A put in a table and another in a full MemTable, which the next write rotates. -/
theorem sequences_are_layered_full :
    let _ := entrySize80
    ∃ s : System, s.handle.tables.length = 1 ∧ s.handle.versions.length = 2 ∧
      s.handle.SequencesLayered ∧
      s.Publishes { memtableBytes := 1 } (Handle.rotatedManifest s.handle.manifest) ∧
      (Handle.rotatedManifest s.handle.manifest).validate = none := by
  intro _
  let o : Options := { memtableBytes := 1 }
  let ms : List Move := [.write [WriterQueue.firstRequest], .write [WriterQueue.firstRequest]] ++
    List.replicate 9 (.worker [])
  have htests : ((System.openThen o .empty ⟨false, []⟩ ⟨none, fun _ => false⟩ ms).map fun s =>
      decide (s.handle.tables.length = 1 ∧ s.handle.versions.length = 2 ∧
        s.handle.checkOpen.ok ∧ o.memtableBytes ≤ s.handle.memtable.bytes ∧
        s.handle.immutable.isSome = false ∧ s.handle.memtable.isEmpty = false ∧
        s.handle.manifest.liveTables.length = s.handle.tables.length ∧
        s.handle.manifest.nextFileNumber < 2 ^ 64 - 2)) = some true := by
    decide +kernel
  obtain ⟨s, hs, htests⟩ := Option.map_eq_some_iff.mp htests
  obtain ⟨htables, hversions, hopened, hfull, himmutable, hmemtable, hlive, hspace⟩ :=
    of_decide_eq_true htests
  obtain ⟨h₀, hopen, hmoves⟩ := System.openThen_eq_some hs
  obtain ⟨hlayered, -, hvalid⟩ := sequences_are_layered (.new rfl fun _ => rfl) hopen
    (System.moves_run hmoves)
  have hpublishes : s.Publishes o (Handle.rotatedManifest s.handle.manifest) :=
    .rotateBefore hopened hfull ⟨himmutable, hmemtable, hlive, hspace, rfl⟩
  exact ⟨s, htables, hversions, hlayered, hpublishes, (hvalid _ hpublishes).1⟩

end TinyLsm
