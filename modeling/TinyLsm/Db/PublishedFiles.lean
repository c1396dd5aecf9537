import TinyLsm.Db.Layers
import TinyLsm.Db.Lifetime
import TinyLsm.Db.NumberLedger
import TinyLsm.Db.Writes

/-!
# The files that the Manifest names

While no file operation fails, the files that the last published Manifest names are in the
directory, with the contents that were verified, as long as no explicit compaction sweeps the
directory between the rename of an output of the worker and its publication: the sweep takes that
output for an orphan.
-/

namespace TinyLsm

/-- The output that has its final name already. -/
def BuildPhase.renamed? : BuildPhase → Option Output
  | syncDir out | ready out => some out
  | _ => none

/-- The output of the worker that has its final name and is not published yet. -/
def Worker.renamed? : Worker → Option Output
  | flushing _ phase | compacting _ _ phase => phase.renamed?
  | _ => none

/-- The names of the files that the Manifest or the worker needs. -/
def Handle.Needs (h : Handle) (w : Worker) (name : FileName) : Prop :=
  (∃ t ∈ h.manifest.liveTables, name = .sst t.fileNumber) ∨
    (∃ out, w.renamed? = some out ∧ name = .sst out.table.number) ∨
      ∃ n, h.manifest.NamesWal n ∧ name = .wal n

/-- The Manifest is the published one, and the files it names are there. -/
structure Present (h : Handle) (w : Worker) : Prop where
  manifest : h.dir.manifest = some h.manifest
  pending : h.pendingCleanup = []
  tables : List.Forall₂ (Handle.OpensAs h.dir) h.manifest.liveTables h.tables
  output : ∀ out, w.renamed? = some out → (h.dir.files (.sst out.table.number)).isSome
  wals : ∀ n, h.manifest.NamesWal n → (h.dir.files (.wal n)).isSome
  removing : ∀ n, w = .removingWal n → n < h.manifest.nextFileNumber ∧ ¬ h.manifest.NamesWal n

/-- The operation leaves the needed files: it works on a WAL or a temporary file, gives an output a
name that is not needed, or removes such a name. -/
def DirOp.Spares (h : Handle) (w : Worker) : DirOp → Prop
  | create name | append name _ | sync name | truncate name _ =>
    (∃ n, name = .wal n) ∨ ∃ n, name = .sstTmp n
  | rename source target => (∃ n, source = .sstTmp n) ∧ (∃ n, target = .sst n) ∧ ¬ h.Needs w target
  | remove name => ¬ h.Needs w name
  | publish _ => False
  | syncDir => True

theorem Handle.OpensAs.of_files {d d' : Directory} {m : TableMeta} {t : Table}
    (h : Handle.OpensAs d m t)
    (hfiles : d'.files (.sst m.fileNumber) = d.files (.sst m.fileNumber)) :
    Handle.OpensAs d' m t := by
  obtain ⟨f, hf, hopen⟩ := h.opened
  exact ⟨h.number_eq, ⟨f, hfiles.trans hf, hopen⟩, h.size_eq, h.validated⟩

theorem Handle.opensAs_of_files {d d' : Directory} {metas : List TableMeta} {tables : List Table}
    (h : List.Forall₂ (Handle.OpensAs d) metas tables)
    (hfiles : ∀ m ∈ metas, d'.files (.sst m.fileNumber) = d.files (.sst m.fileNumber)) :
    List.Forall₂ (Handle.OpensAs d') metas tables := by
  induction h with
  | nil => exact .nil
  | cons hopens _ ih =>
    refine .cons (hopens.of_files (hfiles _ List.mem_cons_self)) (ih fun m hm => ?_)
    exact hfiles m (List.mem_cons_of_mem _ hm)

theorem Handle.openTables_ok {d : Directory} {metas : List TableMeta} {tables : List Table}
    (h : List.Forall₂ (Handle.OpensAs d) metas tables) : openTables d metas = .ok tables := by
  induction h with
  | nil => rfl
  | @cons m t metas tables hopens _ ih =>
    obtain ⟨f, hf, hopen⟩ := hopens.opened
    obtain ⟨p, hvalidate, hmatches⟩ := hopens.validated
    have hsize := hopens.size_eq
    obtain ⟨number, reader⟩ := t
    obtain rfl : number = m.fileNumber := hopens.number_eq
    simp only at hopen hvalidate hsize
    simp only [openTables, hf, hopen, hsize, hvalidate, hmatches, ih, ne_eq, not_true_eq_false,
      Bool.true_eq_false, if_false]

namespace Present

variable {o : Options} {d₀ : Directory} {h h' : Handle} {w w' : Worker} {readers : Set Table}

/-- Only the Manifest, the tables and the files matter. -/
theorem congr (hp : Present h w) (hmanifest : h'.manifest = h.manifest)
    (htables : h'.tables = h.tables) (hpending : h'.pendingCleanup = h.pendingCleanup)
    (hdir : h'.dir = h.dir) : Present h' w := by
  refine ⟨?_, hpending.trans hp.pending, ?_, ?_, ?_, ?_⟩
  · rw [hdir, hmanifest]
    exact hp.manifest
  · rw [htables, hmanifest, hdir]
    exact hp.tables
  · rw [hdir]
    exact hp.output
  · rw [hmanifest, hdir]
    exact hp.wals
  · rw [hmanifest]
    exact hp.removing

theorem onlyFlags (hflags : h.OnlyFlags h') (hp : Present h w) : Present h' w := by
  obtain ⟨e, c₁, c₂, r₁, r₂, f₁, f₂, stop, rfl⟩ := hflags
  exact hp.congr rfl rfl rfl rfl

/-- The worker stands elsewhere, and removes nothing. -/
theorem worker (hp : Present h w)
    (houtput : ∀ out, w'.renamed? = some out → (h.dir.files (.sst out.table.number)).isSome)
    (hremoving : ∀ n, w' ≠ .removingWal n) : Present h w' :=
  ⟨hp.manifest, hp.pending, hp.tables, houtput, hp.wals, fun n hn => absurd hn (hremoving n)⟩

/-- The worker holds no output and removes nothing. -/
theorem idle (hp : Present h w) (hrenamed : w'.renamed? = none)
    (hremoving : ∀ n, w' ≠ .removingWal n) : Present h w' :=
  hp.worker (by simp [hrenamed]) hremoving

/-! ## File operations -/

theorem sst_of_spares {op : DirOp} (hop : op.Spares h w) {n : ℕ} (hn : h.Needs w (.sst n)) :
    (op.apply h.dir).files (.sst n) = h.dir.files (.sst n) := by
  have hapart : ∀ name : FileName, ((∃ n, name = .wal n) ∨ ∃ n, name = .sstTmp n) →
      FileName.sst n ≠ name := by
    rintro name (⟨m, rfl⟩ | ⟨m, rfl⟩) heq <;> cases heq
  cases op with
  | create name | append name | sync name | truncate name =>
    exact Function.update_of_ne (hapart name hop) _ _
  | rename source target =>
    obtain ⟨⟨m, rfl⟩, -, hneeds⟩ := hop
    have htarget : FileName.sst n ≠ target := by
      rintro rfl
      exact hneeds hn
    simp only [DirOp.apply]
    split
    · rfl
    · dsimp only
      rw [Function.update_of_ne (by simp), Function.update_of_ne htarget]
  | remove name =>
    refine Function.update_of_ne ?_ _ _
    rintro rfl
    exact hop hn
  | publish => exact hop.elim
  | syncDir => rfl

theorem wal_of_spares {op : DirOp} (hop : op.Spares h w) {n : ℕ} (hn : h.Needs w (.wal n))
    (hsome : (h.dir.files (.wal n)).isSome) : ((op.apply h.dir).files (.wal n)).isSome := by
  cases op with
  | create name | append name | sync name | truncate name =>
    simp only [DirOp.apply, Function.update_apply]
    split
    · rename_i heq
      simp [← heq, hsome]
    · exact hsome
  | rename source target =>
    obtain ⟨⟨m, rfl⟩, ⟨k, rfl⟩, -⟩ := hop
    simp only [DirOp.apply]
    split
    · exact hsome
    · dsimp only
      rw [Function.update_of_ne (by simp), Function.update_of_ne (by simp)]
      exact hsome
  | remove name =>
    have hne : FileName.wal n ≠ name := by
      rintro rfl
      exact hop hn
    simp only [DirOp.apply]
    rwa [Function.update_of_ne hne]
  | publish => exact hop.elim
  | syncDir => exact hsome

theorem manifest_of_spares {op : DirOp} (hop : op.Spares h w) :
    (op.apply h.dir).manifest = h.dir.manifest := by
  cases op with
  | publish => exact hop.elim
  | rename source target =>
    simp only [DirOp.apply]
    split <;> rfl
  | _ => rfl

theorem tables_of_sst {d : Directory} (hp : Present h w)
    (hsst : ∀ n, h.Needs w (.sst n) → d.files (.sst n) = h.dir.files (.sst n)) :
    List.Forall₂ (Handle.OpensAs d) h.manifest.liveTables h.tables :=
  Handle.opensAs_of_files hp.tables fun m hm => hsst _ (.inl ⟨m, hm, rfl⟩)

theorem perform (hp : Present h w) {op : DirOp} (hop : op.Spares h w) :
    Present (h.perform op) w := by
  refine ⟨(manifest_of_spares hop).trans hp.manifest, hp.pending,
    hp.tables_of_sst fun n => sst_of_spares hop, fun out hout => ?_, fun n hn => ?_, hp.removing⟩
  · have hsame : (op.apply h.dir).files (.sst out.table.number) = _ :=
      sst_of_spares hop (.inr (.inl ⟨out, hout, rfl⟩))
    exact (congrArg Option.isSome hsame).trans (hp.output out hout)
  · exact wal_of_spares hop (.inr (.inr ⟨n, hn, rfl⟩)) (hp.wals n hn)

theorem bestEffortRemove (hp : Present h w) {name : FileName} (hname : ¬ h.Needs w name) :
    Present (h.bestEffortRemove name false) w := by
  have hop : (DirOp.remove name).Spares h w := hname
  exact hp.perform hop

theorem removeAll (hp : Present h w) {names : List FileName}
    (hnames : ∀ name ∈ names, ¬ h.Needs w name) :
    Present (h.removeAll names fun _ => false) w := by
  unfold Handle.removeAll
  induction names generalizing h with
  | nil => exact hp
  | cons name names ih =>
    refine ih (hp.bestEffortRemove (hnames name List.mem_cons_self)) fun other hother => ?_
    exact hnames other (List.mem_cons_of_mem _ hother)

/-- The Manifest names no obsolete file. -/
theorem not_needs_of_obsolete (hrenamed : w.renamed? = none) {name : FileName}
    (hname : Handle.obsolete h.manifest name = true) : ¬ h.Needs w name := by
  rintro (⟨m, hm, rfl⟩ | ⟨out, hout, -⟩ | ⟨n, hn, rfl⟩)
  · exact of_decide_eq_true hname m hm rfl
  · rw [hrenamed] at hout
    cases hout
  · simp only [Handle.obsolete, Bool.and_eq_true, decide_eq_true_eq] at hname
    rcases hn with rfl | ⟨-, rfl⟩
    · exact hname.1 rfl
    · exact hname.2 rfl

/-- A sweep removes none of the needed files, unless the worker holds an output. -/
theorem cleanupObsoleteFiles (hp : Present h w) (hrenamed : w.renamed? = none)
    (listed : Option (List FileName)) :
    Present (h.cleanupObsoleteFiles listed fun _ => false) w := by
  have hnothing : ({ h with pendingCleanup := [] } : Handle).removeAll h.pendingCleanup
      (fun _ => false) = h := by
    rw [hp.pending]
    show ({ h with pendingCleanup := [] } : Handle) = h
    rw [← hp.pending]
  unfold Handle.cleanupObsoleteFiles
  rw [hnothing]
  cases listed with
  | none => exact hp
  | some names =>
    refine hp.removeAll fun name hname => ?_
    exact not_needs_of_obsolete hrenamed (List.mem_filter.mp hname).2

/-! ## Builds -/

/-- A number that no table has names a file that is not needed. -/
theorem not_needs_sst (hrenamed : w.renamed? = none) {number : ℕ}
    (hnumber : ∀ m ∈ h.manifest.liveTables, m.fileNumber ≠ number) : ¬ h.Needs w (.sst number) := by
  rintro (⟨m, hm, heq⟩ | ⟨out, hout, -⟩ | ⟨n, -, heq⟩)
  · cases heq
    exact hnumber m hm rfl
  · rw [hrenamed] at hout
    cases hout
  · cases heq

theorem buildsTo (hp : Present h w) {checked : Output → Option Status} {number : ℕ}
    {entries : List InternalEntry} {phase phase' : BuildPhase}
    (hb : Handle.BuildsTo o checked number entries h phase h' phase')
    (hneeds : ¬ h.Needs w (.sst number)) : Present h' w := by
  have htmp : ∀ op : DirOp, op = .create (.sstTmp number) ∨ op = .sync (.sstTmp number) ∨
      (∃ bytes, op = .append (.sstTmp number) bytes) → ∀ h₁ : Handle, op.Spares h₁ w := by
    rintro op (rfl | rfl | ⟨bytes, rfl⟩) h₁
    all_goals exact .inr ⟨number, rfl⟩
  cases hb with
  | create => exact hp.perform (htmp _ (.inl rfl) h)
  | write =>
    have happended := hp.perform (htmp _ (.inr (.inr ⟨Handle.tableBytes o entries, rfl⟩)) h)
    exact happended.perform (htmp _ (.inr (.inl rfl)) _)
  | verify => exact hp
  | rename =>
    have hop : (DirOp.rename (.sstTmp number) (.sst number)).Spares h w :=
      ⟨⟨number, rfl⟩, ⟨number, rfl⟩, hneeds⟩
    exact hp.perform hop
  | syncDir => exact hp.perform trivial

/-- A build failed behind some bytes. -/
theorem failedWrite (hp : Present h w) (number : ℕ) (bytes : Bytes) :
    Present (h.perform (.append (.sstTmp number) bytes)) w := by
  have hop : (DirOp.append (.sstTmp number) bytes).Spares h w := .inr ⟨number, rfl⟩
  exact hp.perform hop

/-- The renamed output is there. -/
theorem output_of_buildsTo {checked : Output → Option Status} {number : ℕ}
    {entries : List InternalEntry} {phase phase' : BuildPhase}
    (hb : Handle.BuildsTo o checked number entries h phase h' phase')
    (hold : phase.renamed?.isSome → (h.dir.files (.sst number)).isSome)
    (hrenamed : phase'.renamed?.isSome) : (h'.dir.files (.sst number)).isSome := by
  cases hb with
  | create | write | verify => cases hrenamed
  | rename hfile => simp [DirOp.apply, hfile]
  | syncDir => exact hold rfl

/-- An output that was built and is there opens as its Manifest entry says. -/
theorem opensAs_output {number : ℕ} {entries : List InternalEntry} {out : Output} {d : Directory}
    (hb : out.Built o number entries)
    (hholds : d.HoldsOrGone (.sst number) (Handle.tableBytes o entries))
    (hsome : (d.files (.sst number)).isSome) (hmatches : out.tableMeta.matches out.properties) :
    Handle.OpensAs d out.tableMeta out.table := by
  have hnumber : out.tableMeta.fileNumber = number := hb.number_eq
  refine ⟨rfl, ?_, ?_, out.properties, hb.validated, hmatches⟩
  · rw [hnumber]
    rcases hholds with hnone | hfile
    · rw [hnone] at hsome
      cases hsome
    · exact ⟨_, hfile, hb.opened⟩
  · obtain ⟨bss, -, -, -, hproperties⟩ := SSTableReader.validate_sound hb.validated
    simp only [TableMeta.matches, Bool.and_eq_true, decide_eq_true_eq] at hmatches
    rw [hmatches.1.1.1.1, hproperties]

/-! ## Publishing -/

/-- A new Manifest and its tables. -/
theorem install (hp : Present h w) (next : ManifestSnapshot)
    (hmanifest : h'.manifest = next) (hdir : h'.dir = (h.withManifest next).dir)
    (hpending : h'.pendingCleanup = h.pendingCleanup)
    (htables : List.Forall₂ (Handle.OpensAs h.dir) next.liveTables h'.tables)
    (hwals : ∀ n, next.NamesWal n → (h.dir.files (.wal n)).isSome)
    (houtput : ∀ out, w'.renamed? = some out → (h.dir.files (.sst out.table.number)).isSome)
    (hremoving : ∀ n, w' = .removingWal n → n < next.nextFileNumber ∧ ¬ next.NamesWal n) :
    Present h' w' := by
  have hfiles : h'.dir.files = h.dir.files := by rw [hdir]; rfl
  refine ⟨?_, hpending.trans hp.pending, ?_, ?_, ?_, ?_⟩
  · rw [hdir, hmanifest]
    rfl
  · rw [hmanifest]
    exact Handle.opensAs_of_files htables fun m _ => by rw [hfiles]
  · rw [hfiles]
    exact houtput
  · rw [hmanifest, hfiles]
    exact hwals
  · rw [hmanifest]
    exact hremoving

theorem withWal (hp : Present h w) : Present h.withWal w := by
  have hop : ∀ (h₁ : Handle) (op : DirOp) (n : ℕ), op = .create (.wal n) ∨ op = .sync (.wal n) →
      op.Spares h₁ w := by
    rintro h₁ op n (rfl | rfl)
    all_goals exact .inl ⟨n, rfl⟩
  exact (hp.perform (hop _ _ _ (.inl rfl))).perform (hop _ _ _ (.inr rfl))

theorem rotate {status : Status} (hr : h.rotateMemTable none = (h', status)) (hp : Present h w) :
    Present h' w := by
  rcases Handle.rotateMemTable_cases hr with ⟨hwal, -⟩ | ⟨-, -, hfault, -⟩ | ⟨rfl, -⟩
  · cases hwal with
    | start => exact hp
    | created =>
      have hop : (DirOp.create (.wal (h.manifest.nextFileNumber + 1))).Spares h w := .inl ⟨_, rfl⟩
      exact hp.perform hop
    | synced => exact hp.withWal
  · exact absurd rfl hfault
  · have hlog := hp.withWal
    have hmanifest : h.withWal.manifest = h.manifest := by simp [Handle.withWal]
    refine hlog.install (Handle.rotatedManifest h.manifest) rfl rfl rfl hlog.tables
      (fun n hn => ?_) hlog.output fun n hn => ?_
    · rcases hn with rfl | ⟨-, rfl⟩
      · simp [Handle.withWal, Handle.rotatedManifest, DirOp.apply]
      · exact hlog.wals _ (.inl (by rw [hmanifest]; rfl))
    · obtain ⟨hlt, hnot⟩ := hp.removing n hn
      refine ⟨?_, ?_⟩
      · show n < h.manifest.nextFileNumber + 2
        omega
      · rintro (rfl | ⟨-, rfl⟩)
        · simp only [Handle.rotatedManifest] at hlt
          omega
        · exact hnot (.inl rfl)

/-! ## Regions -/

theorem logged (hp : Present h w) (bytes : Bytes) : Present (h.logged o bytes) w := by
  have hop : ∀ (h₁ : Handle) (op : DirOp) (n : ℕ),
      op = .append (.wal n) bytes ∨ op = .sync (.wal n) → op.Spares h₁ w := by
    rintro h₁ op n (rfl | rfl)
    all_goals exact .inl ⟨n, rfl⟩
  unfold Handle.logged
  split
  · exact (hp.perform (hop _ _ _ (.inl rfl))).perform (hop _ _ _ (.inr rfl))
  · exact hp.perform (hop _ _ _ (.inl rfl))

theorem applyWriteGroup [EntrySize] {group : List WriterRequest} {status : Status}
    (hr : h.applyWriteGroup o group {} = some (h', status)) (hp : Present h w) : Present h' w :=
  Handle.applyWriteGroup_rule (Present · w) (fun _ bytes hp => hp.logged bytes)
    (fun _ _ _ hp => hp.congr rfl rfl rfl rfl) (fun _ _ _ hrotate hp => hp.rotate hrotate) hr hp

theorem beginFlush {sweep : SweepFaults} {r : Except Status FlushJob}
    (hr : h.beginFlush sweep = (h', r)) (hfails : sweep.fails = fun _ => false)
    (hp : Present h w) (hrenamed : w.renamed? = none) :
    Present h' (System.continued true (.flushing · .create) r) := by
  have hswept : Present h' w := by
    rcases Handle.beginFlush_dir hr with rfl | rfl
    · exact hp
    · rw [hfails]
      exact hp.cleanupObsoleteFiles hrenamed _
  cases r with
  | ok job => exact hswept.idle rfl (by intros; simp [System.continued])
  | error status => exact hswept.idle rfl (by intros; simp [System.continued])

theorem commitFlush {job : FlushJob} {out : Output} {status : Status}
    (hr : h.commitFlush o job out none = (h', status))
    (hp : Present h (.flushing job (.ready out)))
    (ha : Allocated o d₀ h (.flushing job (.ready out)) readers) :
    Present h' (if status.ok then .removingWal job.immutableWal else .finished true status) := by
  rcases Handle.commitFlush_cases hr with
    ⟨rfl, hfail⟩ | ⟨-, -, hfault, -⟩ | ⟨rfl, rfl, -, -, hwal, -, hmatches, -⟩
  · rw [if_neg (by simp [hfail])]
    exact hp.idle rfl (by simp)
  · exact absurd rfl hfault
  · rw [if_pos Status.ok_okay]
    obtain ⟨hbuilt, hholds⟩ := ha.builds
    have hsome : (h.dir.files (.sst job.tableNumber)).isSome :=
      hbuilt.number_eq ▸ hp.output out rfl
    refine hp.install (Handle.flushedManifest h.manifest out) rfl rfl rfl ?_
      (fun n hn => ?_) (by simp [Worker.renamed?]) fun n hn => ?_
    · exact List.rel_append hp.tables (.cons (opensAs_output hbuilt hholds hsome hmatches) .nil)
    · rcases hn with rfl | ⟨hzero, -⟩
      · exact hp.wals _ (.inl rfl)
      · exact absurd rfl hzero
    · cases hn
      rw [← hwal]
      refine ⟨ha.valid.immutable_lt, ?_⟩
      rintro (heq | ⟨hzero, -⟩)
      · exact ha.valid.wals_ne heq
      · exact hzero rfl

theorem beginCompaction {r : Except Status CompactionJob}
    (hr : h.beginBackgroundCompaction o none = (h', r)) (hp : Present h w) :
    Present h' (System.continued false .merging r) := by
  rcases Handle.beginBackgroundCompaction_cases hr with
    ⟨rfl, status, rfl⟩ | ⟨_, -, -, -, hfault, -⟩ | ⟨rfl, rfl, -⟩
  · exact hp.idle rfl (by intros; simp [System.continued])
  · exact absurd rfl hfault
  · exact hp.install (Handle.reservedManifest h.manifest) rfl rfl rfl hp.tables hp.wals
      (by simp [System.continued, Worker.renamed?]) (by simp [System.continued])

/-- The last region of a compaction: the input files are removed, which the Manifest names no
more. -/
theorem commitCompaction {job : CompactionJob} {replacement : Option Output} {status : Status}
    (hr : h.commitCompaction job replacement none (fun _ => false) = (h', status))
    (hp : Present h w) (hvalid : h.manifest.Valid) (hrenamed : w.renamed? = none)
    (hopens : ∀ out, replacement = some out → Handle.OpensAs h.dir out.tableMeta out.table)
    (hfresh : ∀ out, replacement = some out → ∀ m ∈ h.manifest.liveTables,
      m.fileNumber ≠ out.table.number)
    (hnext : ∀ n, w = .removingWal n → n ≠ job.number) : Present h' w := by
  rcases Handle.commitCompaction_cases hr with
    ⟨rfl, -⟩ | ⟨-, -, hfault, -⟩ | ⟨rfl, -, -, -, -, hnumbers, -⟩
  · exact hp
  · exact absurd rfl hfault
  set next := Handle.compactedManifest h.manifest job replacement with hnextdef
  set h₁ : Handle := { h.withManifest next with
    tables := (replacement.map Output.table).toList ++ h.tables.drop job.metas.length } with hh₁
  have hlive : next.liveTables = (replacement.map Output.tableMeta).toList ++
      h.manifest.liveTables.drop job.metas.length := by
    cases replacement <;> rfl
  have hwals : ∀ n, next.NamesWal n → h.manifest.NamesWal n := by
    intro n hn
    cases replacement <;> exact hn
  have hinstalled : Present h₁ w := by
    refine hp.install next rfl rfl rfl ?_ (fun n hn => hp.wals n (hwals n hn)) hp.output
      fun n hn => ?_
    · rw [hlive]
      refine List.rel_append ?_ (List.forall₂_drop _ hp.tables)
      cases replacement with
      | none => exact .nil
      | some out => exact .cons (hopens out rfl) .nil
    · obtain ⟨hlt, hnot⟩ := hp.removing n hn
      exact ⟨Allocated.lt_compacted_next hlt (hnext n hn), fun hn => hnot (hwals n hn)⟩
  refine hinstalled.removeAll fun name hname => ?_
  obtain ⟨m, hm, rfl⟩ := List.mem_map.mp hname
  -- the numbers of the inputs are those of the tables that went
  have hinput : m.fileNumber ∈ (h.manifest.liveTables.take job.metas.length).map
      TableMeta.fileNumber := hnumbers ▸ List.mem_map_of_mem hm
  have hnodup := hvalid.numbers
  rw [← List.take_append_drop job.metas.length h.manifest.liveTables, List.map_append,
    List.nodup_append] at hnodup
  refine not_needs_sst hrenamed fun m' hm' => ?_
  have hmem : m' ∈ (replacement.map Output.tableMeta).toList ++
      h.manifest.liveTables.drop job.metas.length := hlive ▸ hm'
  rcases List.mem_append.mp hmem with hhead | hrest
  · obtain ⟨out, hout, rfl⟩ := Option.map_eq_some_iff.mp (Option.mem_toList.mp hhead)
    obtain ⟨m₀, hm₀, hnumber⟩ := List.mem_map.mp hinput
    rw [← hnumber]
    exact (hfresh out hout m₀ (List.mem_of_mem_take hm₀)).symm
  · exact (hnodup.2.2 _ hinput _ (List.mem_map_of_mem hrest)).symm

theorem live_ne (ha : Allocated o d₀ h w readers) {number : ℕ}
    (hfresh : ∀ t ∈ readers, t.number ≠ number) :
    ∀ m ∈ h.manifest.liveTables, m.fileNumber ≠ number := by
  intro m hm
  have hmem : m.fileNumber ∈ h.tables.map Table.number := ha.numbers ▸ List.mem_map_of_mem hm
  obtain ⟨t, ht, hnumber⟩ := List.mem_map.mp hmem
  rw [← hnumber]
  exact hfresh t (ha.live t ht)

/-- An explicit compaction builds its output under the lock. -/
theorem buildOutput {entries : List InternalEntry} {f : Handle.CompactFaults}
    {r : Except Status Output} (hr : h.buildOutput o h.manifest.nextFileNumber entries f = (h', r))
    (hp : Present h w) (ha : Allocated o d₀ h w readers) (hrenamed : w.renamed? = none) :
    Present h' w ∧ ∀ out, r = .ok out → Handle.OpensAs h'.dir out.tableMeta out.table ∧
      out.table.number = h.manifest.nextFileNumber := by
  set number := h.manifest.nextFileNumber with hnumber
  have hlive : ∀ m ∈ h.manifest.liveTables, m.fileNumber ≠ number :=
    fun m hm => (ha.valid.tables m hm).number_lt.ne
  have hrule := Handle.buildOutput_rule
    (fun phase h₁ => Present h₁ w ∧ h₁.manifest = h.manifest ∧ phase.Holds o number entries h₁.dir ∧
      phase.Verified o entries compactionChecked ∧
      (phase.renamed?.isSome → (h₁.dir.files (.sst number)).isSome))
    (fun h₁ => Present h₁ w) ?_ (fun _ _ hP => hP.1) (fun _ hP => hP.1.failedWrite _ _) hr
    ⟨hp, rfl, trivial, trivial, by simp [BuildPhase.renamed?]⟩
  · cases r with
    | ok out =>
      obtain ⟨hp', -, ⟨hbuilt, hholds⟩, ⟨-, -, hchecked⟩, hsome⟩ := hrule
      refine ⟨hp', fun out' hout => ?_⟩
      cases hout
      have hmatches := Handle.matches_of_compactionChecked hchecked
      exact ⟨opensAs_output hbuilt hholds (hsome rfl) hmatches, hbuilt.number_eq⟩
    | error status => exact ⟨hrule.2, by intros; contradiction⟩
  · rintro phase phase' h₁ h₂ hb ⟨hp₁, hm, hh, hv, hsome⟩
    have hneeds : ¬ h₁.Needs w (.sst number) := not_needs_sst hrenamed (hm ▸ hlive)
    refine ⟨hp₁.buildsTo hb hneeds, ?_, hh.step hb, hv.step hb, output_of_buildsTo hb hsome⟩
    obtain ⟨d, t, p, rfl⟩ := hb.onlyFiles
    exact hm

theorem compactTablePrefix {inputCount : ℕ} {f : Handle.CompactFaults} {status : Status}
    (hr : h.compactTablePrefix o inputCount f = (h', status))
    (hsweep : f.sweep.fails = fun _ => false) (hfails : f.fails = fun _ => false)
    (hpublish : f.publish = none) (hp : Present h w) (ha : Allocated o d₀ h w readers)
    (hrenamed : h.compactionStatus o inputCount false = none → w.renamed? = none) :
    Present h' w := by
  rcases Handle.compactTablePrefix_cases hr with ⟨rfl, -⟩ | ⟨hstatus, h₁, hh₁, hend⟩
  · exact hp
  specialize hrenamed hstatus
  have hp₁ : Present h₁ w := by
    rw [hh₁, hsweep]
    exact hp.cleanupObsoleteFiles hrenamed _
  have ha₁ : Allocated o d₀ h₁ w readers := hh₁ ▸ ha.cleanupObsoleteFiles _ _
  have hremoving : ∀ {h₂ : Handle}, Present h₂ w → ∀ n, w = .removingWal n →
      n ≠ h₂.manifest.nextFileNumber := fun hp₂ n hn => (hp₂.removing n hn).1.ne
  rw [hpublish, hfails] at hend
  rcases hend with rfl | ⟨_, -, -, hc⟩ | ⟨_, h₂, r, -, -, hbuild, hend⟩
  · exact hp₁
  · exact hp₁.commitCompaction hc ha₁.valid hrenamed (by simp) (by simp) (hremoving hp₁)
  · obtain ⟨hp₂, hout⟩ := hp₁.buildOutput hbuild ha₁ hrenamed
    rcases hend with ⟨-, rfl⟩ | ⟨out, rfl, hc⟩
    · exact hp₂
    · obtain ⟨d, t, p, rfl⟩ := Handle.OnlyFiles.buildOutput hbuild
      obtain ⟨hopens, hnumber⟩ := hout out rfl
      refine hp₂.commitCompaction hc ha₁.valid hrenamed (fun out' ho => ?_) (fun out' ho m hm => ?_)
        (hremoving hp₁)
      · cases ho
        exact hopens
      · cases ho
        rw [hnumber]
        exact (ha₁.valid.tables m hm).number_lt.ne

end Present

/-! ## Runs without a sweep beside an output -/

namespace System

/-- A step without a failing file operation that is not an explicit compaction beside an output of
the worker that has its name but is not published. -/
def QuietStep [EntrySize] (o : Options) (s s' : System) : Prop :=
  Step o true s s' ∧ ∀ t inputCount status, s.calls t = .compactReady inputCount →
    s'.calls t = .returned status → s.handle.compactionStatus o inputCount false = none →
    s.worker.renamed? = none

/-- The runs of a handle whose explicit compactions sweep beside no output of the worker. -/
def quiet [EntrySize] (o : Options) : TransitionSystem System where
  init := (system o true).init
  step := QuietStep o

/-- A move is quiet when it is none of a call, or the worker holds no output. -/
theorem quietStep_of_move [EntrySize] {o : Options} {s s' : System} {m : Move}
    (h : s.move o m = some s')
    (hm : (∀ t listed, m ≠ .call t listed) ∨ s.worker.renamed? = none) : QuietStep o s s' := by
  refine ⟨move_step h, fun t inputCount status hready hreturned _ => ?_⟩
  refine hm.resolve_left fun hcall => ?_
  rcases move_calls (t := t) h with hsame | ⟨-, hidle, -⟩ | ⟨-, hidle⟩ | ⟨listed, rfl, -⟩
  · rw [hready, hreturned] at hsame
    cases hsame
  · rw [hready] at hidle
    cases hidle
  · rw [hready] at hidle
    cases hidle
  · exact hcall t listed rfl

end System

namespace Present

variable {o : Options} {d₀ : Directory} {readers : Set Table}

theorem buildStep {h h' : Handle} {w : Worker} {context : BuildContext}
    {checked : Output → Option Status} {number : ℕ} {entries : List InternalEntry}
    {phase : BuildPhase} {r : Except Status BuildPhase} {flush : Bool} {next : BuildPhase → Worker}
    (hchecked : ∀ out s, checked out = some s → s.ok = false) (hphase : ∀ out, phase ≠ .ready out)
    (hr : h.buildStep o context checked number entries none phase = (h', r))
    (hp : Present h w) (hlive : ∀ m ∈ h.manifest.liveTables, m.fileNumber ≠ number)
    (hold : phase.Holds o number entries h.dir) (hw : w.renamed? = phase.renamed?)
    (hnext : ∀ phase', (next phase').renamed? = phase'.renamed?)
    (hremoving : ∀ phase' n, next phase' ≠ .removingWal n) :
    Present h' (System.continued flush next r) := by
  have hidle : Present h .waiting := hp.idle rfl (by simp)
  have hneeds : ¬ h.Needs .waiting (.sst number) := not_needs_sst rfl hlive
  cases r with
  | ok phase' =>
    have hb := Handle.buildStep_ok hphase hr
    refine (hidle.buildsTo hb hneeds).worker (fun out hout => ?_) (hremoving phase')
    have hnumber : out.table.number = number := by
      have hholds := hold.step hb
      rw [System.continued, hnext] at hout
      cases phase' <;> cases hout <;> exact hholds.1.number_eq
    rw [System.continued, hnext] at hout
    rw [hnumber]
    refine output_of_buildsTo hb (fun hsome => ?_) (by rw [hout]; rfl)
    obtain ⟨out', hout'⟩ := Option.isSome_iff_exists.mp hsome
    have hthere := hp.output out' (hw.trans hout')
    have hnumber' : out'.table.number = number := by
      cases phase <;> cases hout' <;> exact hold.1.number_eq
    rwa [hnumber'] at hthere
  | error status =>
    rcases (Handle.buildStep_error hchecked hr).2 with rfl | ⟨-, rfl⟩
    · exact hidle.idle rfl (by simp [System.continued])
    · exact (hidle.failedWrite _ _).idle rfl (by simp [System.continued])

theorem step [EntrySize] {s s' : System} (hstep : System.QuietStep o s s')
    (ha : Allocated o d₀ s.handle s.worker readers) (hl : Layered o s.handle s.worker)
    (hp : Present s.handle s.worker) : Present s'.handle s'.worker := by
  obtain ⟨hstep, hquiet⟩ := hstep
  cases hstep with
  | write f hf happly =>
    rw [hf rfl] at happly
    exact hp.applyWriteGroup happly
  | getSnapshot | releaseSnapshot => exact hp.congr rfl rfl rfl rfl
  | workerExit => exact hp.idle rfl (by simp)
  | workerClaim =>
    refine (hp.onlyFlags (.claim _)).idle ?_ fun n => ?_
    · simp only [Handle.claim]
      split
      · rfl
      · split <;> rfl
    · simp only [Handle.claim]
      split
      · simp
      · split <;> simp
  | flushBegin sweep hf hworker hr => exact beginFlush hr (hf rfl) hp (by rw [hworker]; rfl)
  | @flushBuild job phase _ r fault hf hworker hphase hr =>
    rw [hworker] at hp ha
    rw [hf rfl] at hr
    exact buildStep (by simp) hphase hr hp (live_ne ha (ha.flush job rfl).2.1) ha.builds rfl
      (fun _ => rfl) (by simp)
  | @flushCommit job out _ status fault hf hworker hr =>
    rw [hworker] at hp ha
    rw [hf rfl] at hr
    exact commitFlush hr hp ha
  | @flushRemove number fails hf hworker =>
    rw [hworker] at hp
    rw [hf rfl]
    have hneeds : ¬ s.handle.Needs (.removingWal number) (.wal number) := by
      rintro (⟨m, -, heq⟩ | ⟨out, -, heq⟩ | ⟨n, hn, heq⟩) <;> cases heq
      exact (hp.removing number rfl).2 hn
    exact (hp.bestEffortRemove hneeds).idle rfl (by simp)
  | compactBegin fault hf hworker hr =>
    rw [hf rfl] at hr
    exact beginCompaction hr hp
  | compactMerge fault hf hworker =>
    refine hp.idle ?_ fun n => ?_
    · split
      · rfl
      · rfl
      · dsimp only
        split <;> rfl
    · split
      · simp
      · simp
      · dsimp only
        split <;> simp
  | @compactBuild job entries phase _ r fault hf hworker hphase hr =>
    rw [hworker] at hp ha
    rw [hf rfl] at hr
    exact buildStep Handle.compactionChecked_error hphase hr hp
      (live_ne ha (ha.compaction job.number rfl).2.1) ha.builds rfl (fun _ => rfl) (by simp)
  | @compactCommit job entries out _ status fault fails hf hworker hr =>
    obtain ⟨rfl, rfl⟩ := hf rfl
    rw [hworker] at hp ha hl
    obtain ⟨hbuilt, hholds⟩ := ha.builds
    have hsome : (s.handle.dir.files (.sst job.number)).isSome :=
      hbuilt.number_eq ▸ hp.output out rfl
    have hmatches := Handle.matches_of_compactionChecked hl.output.2.2
    have hidle : Present s.handle (.finished false status) := hp.idle rfl (by simp)
    refine hidle.commitCompaction hr hl.valid rfl (fun out' ho => ?_) (fun out' ho => ?_) (by simp)
    · cases ho
      exact opensAs_output hbuilt hholds hsome hmatches
    · cases ho
      rw [hbuilt.number_eq]
      exact live_ne ha (ha.compaction job.number rfl).2.1
  | @compactDrop job _ status fault fails hf hworker hr =>
    obtain ⟨rfl, rfl⟩ := hf rfl
    have hidle : Present s.handle (.finished false status) := hp.idle rfl (by simp)
    exact hidle.commitCompaction hr hl.valid rfl (by simp) (by simp) (by simp)
  | workerException _ hf => cases hf
  | workerAccount => exact (hp.onlyFlags (.account _ _ _)).idle rfl (by simp)
  | compactCall | compactResume | closeWake | next => exact hp
  | @compactRun t inputCount _ status f hf ht hr =>
    obtain ⟨hsweep, -, -, -, -, -, -, hpublish, hfails⟩ := hf rfl
    exact hp.compactTablePrefix hr hsweep hfails hpublish ha
      (hquiet t inputCount status ht (Function.update_self _ _ _))
  | closeCall =>
    split
    · exact hp
    · exact hp.congr rfl rfl rfl rfl
  | closeRound fault hf _ hr =>
    rw [hf rfl] at hr
    rcases Handle.closeRound_cases hr with hflags | ⟨h₁, status, hrotate, hflags⟩
    · exact hp.onlyFlags hflags
    · exact (hp.rotate hrotate).onlyFlags hflags
  | closeSync fault _ _ hr =>
    rcases Handle.closeSyncWal_cases hr with hflags | hflags
    · exact hp.onlyFlags hflags
    · have hop : (DirOp.sync (.wal s.handle.manifest.activeWalNumber)).Spares s.handle s.worker :=
        .inl ⟨_, rfl⟩
      exact (hp.perform hop).onlyFlags hflags
  | closeJoined fault _ _ _ hr =>
    cases hr
    exact hp.congr rfl rfl rfl rfl

/-! ## Open -/

section
variable [EntrySize] {h h' : Handle} {w : Worker}

omit [EntrySize] in
/-- A WAL that is there behind a cut was there before. -/
theorem isSome_of_truncate {number size n : ℕ} (hr : h' = h ∨
    h' = h.perform (.truncate (.wal number) size)) :
    (h'.dir.files (.wal n)).isSome = (h.dir.files (.wal n)).isSome := by
  rcases hr with rfl | rfl
  · rfl
  · simp only [Handle.perform_dir, DirOp.apply, Function.update_apply]
    split
    · rename_i heq
      rw [heq, Option.isSome_map]
    · rfl

omit [EntrySize] in
theorem truncated {number size : ℕ} (hp : Present h w) :
    Present (h.perform (.truncate (.wal number) size)) w := by
  have hop : (DirOp.truncate (.wal number) size).Spares h w := .inl ⟨number, rfl⟩
  exact hp.perform hop

theorem recoverActive {floor : ℕ} (hr : h.recoverActive o floor = .ok h') :
    (h.dir.files (.wal h.manifest.activeWalNumber)).isSome ∧
      (Present h w → Present h' w) := by
  unfold Handle.recoverActive at hr
  split at hr
  · cases hr
  rename_i h₁ recoveredMax m hwal
  split at hr
  · cases hr
  cases hr
  obtain ⟨hsome, hcases⟩ := Handle.recoverWal_cases hwal
  refine ⟨hsome, fun hp => ?_⟩
  rcases hcases with rfl | ⟨size, rfl⟩
  · exact hp.congr rfl rfl rfl rfl
  · exact hp.truncated.congr rfl rfl rfl rfl

/-- The WALs that are recovered are those the Manifest names. -/
theorem recoverWals (hr : h.recoverWals o = .ok h') (hmanifest : h.dir.manifest = some h.manifest)
    (hpending : h.pendingCleanup = [])
    (htables : List.Forall₂ (Handle.OpensAs h.dir) h.manifest.liveTables h.tables) :
    Present h' .waiting := by
  have hstart : (∀ n, h.manifest.NamesWal n → (h.dir.files (.wal n)).isSome) → Present h .waiting :=
    fun hwals => ⟨hmanifest, hpending, htables, by simp [Worker.renamed?], hwals, by simp⟩
  unfold Handle.recoverWals at hr
  split at hr
  · rename_i hzero
    obtain ⟨hactive, hkeeps⟩ := recoverActive (w := .waiting) hr
    refine hkeeps (hstart fun n hn => ?_)
    rcases hn with rfl | ⟨hne, -⟩
    · exact hactive
    · exact absurd hzero hne
  split at hr
  · cases hr
  rename_i h₁ recoveredMax m hwal
  split at hr
  · cases hr
  obtain ⟨himmutable, hcases⟩ := Handle.recoverWal_cases hwal
  obtain ⟨hactive, hkeeps⟩ := recoverActive (w := .waiting) hr
  have hmanifest₁ : h₁.manifest = h.manifest := by
    rcases hcases with rfl | ⟨size, rfl⟩ <;> rfl
  have hp : Present h .waiting := by
    refine hstart fun n hn => ?_
    rcases hn with rfl | ⟨-, rfl⟩
    · rw [← hmanifest₁]
      rcases hcases with rfl | ⟨size, rfl⟩
      · exact hactive
      · exact (isSome_of_truncate (.inr rfl)).symm.trans hactive
    · exact himmutable
  refine hkeeps ?_
  rcases hcases with rfl | ⟨size, rfl⟩
  · exact hp.congr rfl rfl rfl rfl
  · exact hp.truncated.congr rfl rfl rfl rfl

theorem recovered {sweep : SweepFaults} {d : Directory} {m : ManifestSnapshot} {t : List DirOp}
    (hfails : sweep.fails = fun _ => false) (hm : d.manifest = some m)
    (hr : (Handle.blank d m t).recover o sweep = .ok h) : Present h .waiting := by
  unfold Handle.recover at hr
  split at hr
  · cases hr
  rename_i h₁ htables
  split at hr
  · cases hr
  rename_i h₂ hwals
  unfold Handle.openManifestSSTables at htables
  split at htables
  · cases htables
  rename_i tables hopen
  cases htables
  cases hr
  have hp : Present h₂ .waiting :=
    recoverWals hwals hm rfl (Handle.openTables_eq_ok hopen)
  rw [hfails]
  exact (hp.cleanupObsoleteFiles rfl _).congr rfl rfl rfl rfl

/-- What `Open` returns. -/
theorem opened {d : Directory} {listing : Listing} {sweep : SweepFaults}
    (hfails : sweep.fails = fun _ => false)
    (hopen : Handle.open o d listing sweep = .ok h) : Present h .waiting := by
  obtain ⟨m, -, ⟨hm, hrecover⟩ | ⟨-, rfl, h₁, hcreate, hrecover, hblank⟩⟩ := Handle.open_eq_ok hopen
  · exact recovered hfails hm hrecover
  · have hm : h₁.dir.manifest = some initialManifest := by
      unfold createInitialManifest at hcreate
      split at hcreate
      · cases hcreate
      split at hcreate
      · cases hcreate
      cases hcreate
      rfl
    rw [hblank] at hrecover
    exact recovered hfails hm hrecover

end

end Present

section
variable [EntrySize] {o : Options}

theorem Present.of_run {d : Directory} (hd : d.Written) {listing : Listing} {sweep : SweepFaults}
    (hfails : sweep.fails = fun _ => false) {h : Handle}
    (hopen : Handle.open o d listing sweep = .ok h) {s : System}
    (hrun : (System.quiet o).Run (System.started h) s) : Present s.handle s.worker := by
  have hkept : (∃ readers, Allocated o d s.handle s.worker readers) ∧
      Layered o s.handle s.worker ∧ Present s.handle s.worker := by
    refine hrun.keeps (P := fun s => (∃ readers, Allocated o d s.handle s.worker readers) ∧
      Layered o s.handle s.worker ∧ Present s.handle s.worker) ?_
      ⟨⟨_, Allocated.opened hopen hd.sound⟩, Layered.opened hopen, Present.opened hfails hopen⟩
    rintro s₁ s₂ hstep ⟨⟨readers, ha⟩, hl, hp⟩
    exact ⟨⟨_, ha.step hstep.1⟩, hl.step hstep.1, hp.step hstep ha hl⟩
  exact hkept.2.2

end

/-! ## A sweep beside an output -/

end TinyLsm
