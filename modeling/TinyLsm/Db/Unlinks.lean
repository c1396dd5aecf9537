import TinyLsm.Db.PublishedFiles

/-!
# What is unlinked

The sweep and the removals behind a flush and a compaction unlink no file that the current Manifest
names. Of the paths that `pending_cleanup_` remembers this holds as long as none of them has a
number that can still be handed out: the list is replayed without a check.
-/

namespace TinyLsm

/-- The Manifest names the file. -/
def ManifestSnapshot.Names (m : ManifestSnapshot) : FileName → Prop
  | .wal n => m.NamesWal n
  | .sst n => m.NamesTable n
  | .sstTmp _ => False

/-- The operations of a region, and what the current Manifest names at each removal: that is the one
the region found, and behind its publication the one it left. -/
def UnlinksUnnamed (left : ManifestSnapshot) : ManifestSnapshot → List DirOp → Prop
  | _, [] => True
  | current, .remove name :: ops => ¬ current.Names name ∧ UnlinksUnnamed left current ops
  | _, .publish _ :: ops => UnlinksUnnamed left left ops
  | current, _ :: ops => UnlinksUnnamed left current ops

/-- The operation publishes nothing, and unlinks at most a file that the Manifest does not name. -/
def DirOp.Sweeps (m : ManifestSnapshot) (op : DirOp) : Prop :=
  (∀ next, op ≠ .publish next) ∧ ∀ name, op = .remove name → ¬ m.Names name

section
variable {left current : ManifestSnapshot} {ops ops' : List DirOp}

theorem unlinksUnnamed_append (hops : ∀ op ∈ ops, op.Sweeps current)
    (hops' : UnlinksUnnamed left current ops') : UnlinksUnnamed left current (ops ++ ops') := by
  induction ops with
  | nil => exact hops'
  | cons op ops ih =>
    obtain ⟨hpublish, hremove⟩ := hops op List.mem_cons_self
    have hrest := ih fun op' hop' => hops op' (List.mem_cons_of_mem _ hop')
    cases op with
    | remove name => exact ⟨hremove name rfl, hrest⟩
    | publish next => exact absurd rfl (hpublish next)
    | _ => exact hrest

theorem unlinksUnnamed_of_sweeps (hops : ∀ op ∈ ops, op.Sweeps current) :
    UnlinksUnnamed left current ops := by
  have hnil : UnlinksUnnamed left current [] := trivial
  have happended := unlinksUnnamed_append hops hnil
  rwa [List.append_nil] at happended

theorem unlinksUnnamed_of_no_remove (hops : ∀ name, .remove name ∉ ops) :
    UnlinksUnnamed left current ops := by
  induction ops generalizing current with
  | nil => trivial
  | cons op ops ih =>
    have hrest : ∀ current, UnlinksUnnamed left current ops :=
      fun current => ih fun name hmem => hops name (List.mem_cons_of_mem _ hmem)
    cases op with
    | remove name => exact absurd List.mem_cons_self (hops name)
    | _ => exact hrest _

/-- Under one Manifest the order does not matter. -/
theorem unlinksUnnamed_self (hops : ∀ name, .remove name ∈ ops → ¬ current.Names name) :
    UnlinksUnnamed current current ops := by
  induction ops with
  | nil => trivial
  | cons op ops ih =>
    have hrest := ih fun name hmem => hops name (List.mem_cons_of_mem _ hmem)
    cases op with
    | remove name => exact ⟨hops name List.mem_cons_self, hrest⟩
    | _ => exact hrest

end

namespace Handle

variable {o : Options} {h h' h'' : Handle}

/-! ## Sweeps -/

/-- From one state to the other the Manifest stays, only files are unlinked that it does not name,
and of such files the removal may have failed. -/
structure Sweeps (h h' : Handle) : Prop where
  manifest : h'.manifest = h.manifest
  trace : ∃ ops, h'.trace = h.trace ++ ops ∧ ∀ op ∈ ops, op.Sweeps h.manifest
  pending : ∀ name ∈ h'.pendingCleanup, name ∈ h.pendingCleanup ∨ ¬ h.manifest.Names name

/-- The files that the current Manifest does not name when they are unlinked, or fail to be. -/
structure Unlinks (h h' : Handle) : Prop where
  trace : ∃ ops, h'.trace = h.trace ++ ops ∧ UnlinksUnnamed h'.manifest h.manifest ops
  pending : ∀ name ∈ h'.pendingCleanup, name ∈ h.pendingCleanup ∨ ¬ h.manifest.Names name ∨
    ∃ n, name = .sst n ∧ ¬ h'.manifest.NamesTable n

/-- Nothing is unlinked. -/
structure UnlinksNothing (h h' : Handle) : Prop where
  trace : ∃ ops, h'.trace = h.trace ++ ops ∧ ∀ name, .remove name ∉ ops
  pending : h'.pendingCleanup = h.pendingCleanup

theorem Sweeps.refl (h : Handle) : Sweeps h h := ⟨rfl, ⟨[], by simp⟩, fun _ hname => .inl hname⟩

theorem Sweeps.trans (hh : Sweeps h h') (hh' : Sweeps h' h'') : Sweeps h h'' := by
  obtain ⟨ops, htrace, hops⟩ := hh.trace
  obtain ⟨ops', htrace', hops'⟩ := hh'.trace
  refine ⟨hh'.manifest.trans hh.manifest, ⟨ops ++ ops', ?_, fun op hop => ?_⟩, fun name hname => ?_⟩
  · rw [htrace', htrace, List.append_assoc]
  · rcases List.mem_append.mp hop with hop | hop
    · exact hops op hop
    · exact hh.manifest ▸ hops' op hop
  · rcases hh'.pending name hname with hname | hnames
    · exact hh.pending name hname
    · exact .inr (hh.manifest ▸ hnames)

theorem Sweeps.perform {op : DirOp} (hop : op.Sweeps h.manifest) : Sweeps h (h.perform op) :=
  ⟨rfl, ⟨[op], rfl, by simpa using hop⟩, fun _ hname => .inl hname⟩

/-- A sweep before the rest of a region. -/
theorem Sweeps.unlinks (hh : Sweeps h h') (hh' : Unlinks h' h'') : Unlinks h h'' := by
  obtain ⟨ops, htrace, hops⟩ := hh.trace
  obtain ⟨ops', htrace', hops'⟩ := hh'.trace
  refine ⟨⟨ops ++ ops', ?_, ?_⟩, fun name hname => ?_⟩
  · rw [htrace', htrace, List.append_assoc]
  · exact unlinksUnnamed_append hops (hh.manifest ▸ hops')
  · rcases hh'.pending name hname with hname | hnames | hnames
    · exact (hh.pending name hname).imp_right .inl
    · exact .inr (.inl (hh.manifest ▸ hnames))
    · exact .inr (.inr hnames)

theorem UnlinksNothing.refl (h : Handle) : UnlinksNothing h h := ⟨⟨[], by simp⟩, rfl⟩

theorem UnlinksNothing.of_eq (htrace : h'.trace = h.trace)
    (hpending : h'.pendingCleanup = h.pendingCleanup) : UnlinksNothing h h' :=
  ⟨⟨[], by simp [htrace], by simp⟩, hpending⟩

theorem UnlinksNothing.trans (hh : UnlinksNothing h h') (hh' : UnlinksNothing h' h'') :
    UnlinksNothing h h'' := by
  obtain ⟨ops, htrace, hops⟩ := hh.trace
  obtain ⟨ops', htrace', hops'⟩ := hh'.trace
  refine ⟨⟨ops ++ ops', ?_, fun name hmem => ?_⟩, hh'.pending.trans hh.pending⟩
  · rw [htrace', htrace, List.append_assoc]
  · rcases List.mem_append.mp hmem with hmem | hmem
    · exact hops name hmem
    · exact hops' name hmem

theorem UnlinksNothing.perform {op : DirOp} (hop : ∀ name, op ≠ .remove name) :
    UnlinksNothing h (h.perform op) :=
  ⟨⟨[op], rfl, fun name hmem => hop name (List.mem_singleton.mp hmem).symm⟩, rfl⟩

theorem UnlinksNothing.unlinks (hh : UnlinksNothing h h') : Unlinks h h' := by
  obtain ⟨ops, htrace, hops⟩ := hh.trace
  exact ⟨⟨ops, htrace, unlinksUnnamed_of_no_remove hops⟩, fun _ hname => .inl (hh.pending ▸ hname)⟩

theorem UnlinksNothing.onlyFlags (hflags : h.OnlyFlags h') : UnlinksNothing h h' := by
  obtain ⟨e, c₁, c₂, r₁, r₂, f₁, f₂, k, rfl⟩ := hflags
  exact .of_eq rfl rfl

/-! ## Regions -/

theorem sweeps_bestEffortRemove {name : FileName} (hname : ¬ h.manifest.Names name) (fails : Bool) :
    Sweeps h (h.bestEffortRemove name fails) := by
  unfold bestEffortRemove
  split
  · split
    · exact .refl h
    · refine ⟨rfl, ⟨[], by simp⟩, fun other hother => ?_⟩
      rcases List.mem_append.mp hother with hother | hother
      · exact .inl hother
      · exact .inr (List.mem_singleton.mp hother ▸ hname)
  · refine .perform ⟨by simp, fun other heq => ?_⟩
    cases heq
    exact hname

theorem sweeps_removeAll {names : List FileName} (hnames : ∀ name ∈ names, ¬ h.manifest.Names name)
    (fails : FileName → Bool) : Sweeps h (h.removeAll names fails) := by
  unfold removeAll
  induction names generalizing h with
  | nil => exact .refl h
  | cons name names ih =>
    have hfirst := sweeps_bestEffortRemove (hnames name List.mem_cons_self) (fails name)
    refine hfirst.trans (ih fun other hother => ?_)
    rw [hfirst.manifest]
    exact hnames other (List.mem_cons_of_mem _ hother)

/-- A path is remembered when its removal fails. -/
theorem mem_pending_bestEffortRemove {name other : FileName} {fails : Bool}
    (hname : name ∈ (h.bestEffortRemove other fails).pendingCleanup) :
    name ∈ h.pendingCleanup ∨ name = other := by
  unfold bestEffortRemove at hname
  split at hname
  · split at hname
    · exact .inl hname
    · rcases List.mem_append.mp hname with hname | hname
      · exact .inl hname
      · exact .inr (List.mem_singleton.mp hname)
  · exact .inl hname

theorem mem_pending_removeAll {name : FileName} {names : List FileName} {fails : FileName → Bool}
    (hname : name ∈ (h.removeAll names fails).pendingCleanup) :
    name ∈ h.pendingCleanup ∨ name ∈ names := by
  unfold removeAll at hname
  induction names generalizing h with
  | nil => exact .inl hname
  | cons first names ih =>
    rcases ih hname with hname | hname
    · rcases mem_pending_bestEffortRemove hname with hname | rfl
      · exact .inl hname
      · exact .inr List.mem_cons_self
    · exact .inr (List.mem_cons_of_mem _ hname)

theorem not_names_of_obsolete {m : ManifestSnapshot} {name : FileName}
    (hname : obsolete m name = true) : ¬ m.Names name := by
  cases name with
  | wal n =>
    simp only [obsolete, Bool.and_eq_true, decide_eq_true_eq] at hname
    rintro (rfl | ⟨-, rfl⟩)
    · exact hname.1 rfl
    · exact hname.2 rfl
  | sst n =>
    intro hmem
    obtain ⟨t, ht, hnumber⟩ := List.mem_map.mp hmem
    exact of_decide_eq_true hname t ht hnumber
  | sstTmp n => exact id

/-- The sweep replays the remembered paths and then goes over the directory. -/
theorem sweeps_cleanupObsoleteFiles (hpending : ∀ name ∈ h.pendingCleanup, ¬ h.manifest.Names name)
    (listed : Option (List FileName)) (fails : FileName → Bool) :
    Sweeps h (h.cleanupObsoleteFiles listed fails) := by
  have hcleared : Sweeps h { h with pendingCleanup := [] } := ⟨rfl, ⟨[], by simp⟩, by simp⟩
  have hreplayed : Sweeps h ({ h with pendingCleanup := [] }.removeAll h.pendingCleanup fails) :=
    hcleared.trans (sweeps_removeAll (h := { h with pendingCleanup := [] }) hpending fails)
  unfold cleanupObsoleteFiles
  cases listed with
  | none => exact hreplayed
  | some names =>
    refine hreplayed.trans (sweeps_removeAll (fun name hname => ?_) fails)
    exact not_names_of_obsolete (List.mem_filter.mp hname).2

theorem unlinksNothing_withWal (h : Handle) : UnlinksNothing h h.withWal :=
  (UnlinksNothing.perform (by simp)).trans (.perform (by simp))

theorem unlinksNothing_withManifest (h : Handle) (next : ManifestSnapshot) :
    UnlinksNothing h (h.withManifest next) :=
  have hpublished : UnlinksNothing h (h.perform (.publish next)) := .perform (by simp)
  (hpublished.trans (.perform (by simp))).trans (.of_eq rfl rfl)

theorem unlinksNothing_visible (h : Handle) (next : ManifestSnapshot) (status : Status) :
    UnlinksNothing h { h.perform (.publish next) with terminalError := some status } :=
  have hpublished : UnlinksNothing h (h.perform (.publish next)) := .perform (by simp)
  hpublished.trans (.of_eq rfl rfl)

theorem unlinksNothing_rotate {fault : Option RotateFault} {status : Status}
    (hr : h.rotateMemTable fault = (h', status)) : UnlinksNothing h h' := by
  rcases rotateMemTable_cases hr with ⟨hwal, -⟩ | ⟨rfl, -⟩ | ⟨rfl, -⟩
  · cases hwal with
    | start => exact .refl h
    | created => exact .perform (by simp)
    | synced => exact unlinksNothing_withWal h
  · exact (unlinksNothing_withWal h).trans (unlinksNothing_visible _ _ _)
  · have hpublished := (unlinksNothing_withWal h).trans
      (unlinksNothing_withManifest h.withWal (rotatedManifest h.manifest))
    exact hpublished.trans (.of_eq rfl rfl)

theorem unlinksNothing_applyWriteGroup [EntrySize] {group : List WriterRequest} {f : WriteFaults}
    {status : Status} (hr : h.applyWriteGroup o group f = some (h', status)) :
    UnlinksNothing h h' := by
  refine applyWriteGroup_keeps (UnlinksNothing h) ?_ (fun _ _ _ _ hh => hh.trans (.of_eq rfl rfl))
    (fun _ _ _ _ hr hh => hh.trans (unlinksNothing_rotate hr)) hr (.refl h)
  rintro h₁ op (rfl | ⟨bytes, rfl⟩) hh
  · exact hh.trans (.perform (by simp))
  · exact hh.trans (.perform (by simp))

theorem unlinksNothing_commitFlush {job : FlushJob} {out : Output} {fault : Option PublishFault}
    {status : Status} (hr : h.commitFlush o job out fault = (h', status)) :
    UnlinksNothing h h' := by
  rcases commitFlush_cases hr with ⟨rfl, -⟩ | ⟨rfl, -⟩ | ⟨rfl, -⟩
  · exact .refl _
  · exact unlinksNothing_visible _ _ _
  · exact (unlinksNothing_withManifest _ _).trans (.of_eq rfl rfl)

theorem unlinksNothing_beginBackgroundCompaction {fault : Option PublishFault}
    {r : Except Status CompactionJob} (hr : h.beginBackgroundCompaction o fault = (h', r)) :
    UnlinksNothing h h' := by
  rcases beginBackgroundCompaction_cases hr with ⟨rfl, -⟩ | ⟨_, rfl, -⟩ | ⟨rfl, -⟩
  · exact .refl _
  · exact unlinksNothing_visible _ _ _
  · exact unlinksNothing_withManifest _ _

/-- The steps of a build neither publish nor unlink. -/
theorem BuildsTo.sweeps {checked : Output → Option Status} {number : ℕ}
    {entries : List InternalEntry} {phase phase' : BuildPhase}
    (hb : BuildsTo o checked number entries h phase h' phase') : Sweeps h h' := by
  cases hb with
  | write => exact (Sweeps.perform ⟨by simp, by simp⟩).trans (.perform ⟨by simp, by simp⟩)
  | verify => exact .refl h
  | _ => exact .perform ⟨by simp, by simp⟩

theorem sweeps_buildStep {context : BuildContext} {checked : Output → Option Status} {number : ℕ}
    {entries : List InternalEntry} {fault : Option Failure} {phase : BuildPhase}
    {r : Except Status BuildPhase} (hchecked : ∀ out s, checked out = some s → s.ok = false)
    (hphase : ∀ out, phase ≠ .ready out)
    (hr : h.buildStep o context checked number entries fault phase = (h', r)) : Sweeps h h' := by
  cases r with
  | ok phase' => exact (buildStep_ok hphase hr).sweeps
  | error status =>
    rcases (buildStep_error hchecked hr).2 with rfl | ⟨-, rfl⟩
    · exact .refl _
    · exact .perform ⟨by simp, by simp⟩

theorem sweeps_buildOutput {number : ℕ} {entries : List InternalEntry} {f : CompactFaults}
    {r : Except Status Output} (hr : h.buildOutput o number entries f = (h', r)) : Sweeps h h' := by
  have hrule := buildOutput_rule (fun _ h₁ => Sweeps h h₁) (Sweeps h)
    (fun _ _ _ _ hb hP => hP.trans hb.sweeps) (fun _ _ hP => hP)
    (fun _ hP => hP.trans (.perform ⟨by simp, by simp⟩)) hr (.refl h)
  cases r with
  | ok out => exact hrule
  | error status => exact hrule.2

/-- The inputs of a compaction are unlinked when the new Manifest names them no more. -/
theorem unlinks_commitCompaction {job : CompactionJob} {replacement : Option Output}
    {fault : Option PublishFault} {fails : FileName → Bool} {status : Status}
    (hr : h.commitCompaction job replacement fault fails = (h', status)) (hvalid : h.manifest.Valid)
    (hfresh : ∀ out, replacement = some out → ¬ h.manifest.NamesTable out.table.number) :
    Unlinks h h' := by
  rcases commitCompaction_cases hr with ⟨rfl, -⟩ | ⟨rfl, -⟩ | ⟨rfl, -, -, -, -, hnumbers, -⟩
  · exact (UnlinksNothing.refl _).unlinks
  · exact (unlinksNothing_visible _ _ _).unlinks
  set next := compactedManifest h.manifest job replacement with hnext
  set h₁ : Handle := { h.withManifest next with
    tables := (replacement.map Output.table).toList ++ h.tables.drop job.metas.length } with hh₁
  have hlive : next.liveTables = (replacement.map Output.tableMeta).toList ++
      h.manifest.liveTables.drop job.metas.length := by
    cases replacement <;> rfl
  have hnodup := hvalid.numbers
  rw [← List.take_append_drop job.metas.length h.manifest.liveTables, List.map_append,
    List.nodup_append] at hnodup
  have hgone : ∀ m ∈ job.metas, ¬ next.NamesTable m.fileNumber := by
    intro m hm hmem
    -- the numbers of the inputs are those of the tables that went
    have hinput : m.fileNumber ∈ (h.manifest.liveTables.take job.metas.length).map
        TableMeta.fileNumber := hnumbers ▸ List.mem_map_of_mem hm
    rw [ManifestSnapshot.NamesTable, hlive, List.map_append] at hmem
    rcases List.mem_append.mp hmem with hout | hrest
    · obtain ⟨m', hm', heq⟩ := List.mem_map.mp hout
      obtain ⟨out, hout, rfl⟩ := Option.map_eq_some_iff.mp (Option.mem_toList.mp hm')
      refine hfresh out hout ?_
      have htaken := List.map_subset TableMeta.fileNumber
        (List.take_subset job.metas.length h.manifest.liveTables) hinput
      rwa [← heq] at htaken
    · exact hnodup.2.2 _ hinput _ hrest rfl
  have hinputs : ∀ name ∈ job.metas.map fun t : TableMeta => FileName.sst t.fileNumber,
      ¬ h₁.manifest.Names name := by
    intro name hname
    obtain ⟨m, hm, rfl⟩ := List.mem_map.mp hname
    exact hgone m hm
  obtain ⟨hmanifest, ⟨ops, htrace, hops⟩, -⟩ := sweeps_removeAll hinputs fails
  have hinstalled : installCompaction job replacement fails (h.withManifest next) = h₁.removeAll
      (job.metas.map fun t : TableMeta => .sst t.fileNumber) fails := rfl
  rw [hinstalled]
  have hswept : UnlinksUnnamed next next ops := unlinksUnnamed_of_sweeps hops
  refine ⟨⟨.publish next :: .syncDir :: ops, ?_, ?_⟩, fun name hname => ?_⟩
  · rw [htrace]
    show h.trace ++ [.publish next] ++ [.syncDir] ++ ops = _
    simp
  · rw [hmanifest]
    exact hswept
  · rcases mem_pending_removeAll hname with hname | hname
    · exact .inl hname
    · obtain ⟨m, hm, rfl⟩ := List.mem_map.mp hname
      rw [hmanifest]
      exact .inr (.inr ⟨m.fileNumber, rfl, hgone m hm⟩)

/-- An explicit compaction sweeps first. -/
theorem unlinks_compactTablePrefix {d₀ : Directory} {w : Worker} {readers : Set Table}
    {inputCount : ℕ} {f : CompactFaults} {status : Status}
    (hr : h.compactTablePrefix o inputCount f = (h', status)) (ha : Allocated o d₀ h w readers)
    (hpending : ∀ name ∈ h.pendingCleanup, ¬ h.manifest.Names name) : Unlinks h h' := by
  rcases compactTablePrefix_cases hr with ⟨rfl, -⟩ | ⟨-, h₁, hh₁, hend⟩
  · exact (UnlinksNothing.refl _).unlinks
  have hswept : Sweeps h h₁ := hh₁ ▸ sweeps_cleanupObsoleteFiles hpending _ _
  have ha₁ : Allocated o d₀ h₁ w readers := hh₁ ▸ ha.cleanupObsoleteFiles _ _
  rcases hend with rfl | ⟨_, -, -, hc⟩ | ⟨_, h₂, r, -, -, hbuild, hend⟩
  · exact hswept.unlinks (UnlinksNothing.refl _).unlinks
  · exact hswept.unlinks (unlinks_commitCompaction hc ha₁.valid (by simp))
  · have hbuilt : Sweeps h h₂ := hswept.trans (sweeps_buildOutput hbuild)
    rcases hend with ⟨-, rfl⟩ | ⟨out, rfl, hc⟩
    · exact hbuilt.unlinks (UnlinksNothing.refl _).unlinks
    · obtain ⟨ha₂, hout⟩ := ha₁.buildOutput hbuild
      refine hbuilt.unlinks (unlinks_commitCompaction hc ha₂.valid fun out' ho hmem => ?_)
      cases ho
      obtain ⟨d, t, p, rfl⟩ := OnlyFiles.buildOutput hbuild
      rw [(hout out rfl).number_eq] at hmem
      obtain ⟨m, hm, hnumber⟩ := List.mem_map.mp hmem
      exact (ha₁.valid.tables m hm).number_lt.ne hnumber

end Handle

/-! ## Numbers that are used up -/

/-- The number of the file can still be handed out. -/
def System.Reusable (s : System) : FileName → Prop
  | .wal n => s.handle.manifest.nextFileNumber ≤ n ∨ s.worker.compactionNumber? = some n
  | .sst n => s.handle.manifest.nextFileNumber ≤ n ∨ s.worker.compactionNumber? = some n ∨
    s.FlushNumber n
  | .sstTmp _ => False

/-- What a number is kept off that is not to be given to a file of this name again. -/
def FileName.ledger : FileName → Ledger
  | wal n => ⟨∅, ∅, ∅, {n}⟩
  | sst n => ⟨{n}, ∅, ∅, ∅⟩
  | sstTmp _ => ⟨∅, ∅, ∅, ∅⟩

section
variable {m : ManifestSnapshot} {w : Worker} {n : ℕ}

theorem FileName.respected_wal_iff : (FileName.wal n).ledger.Respected m w ↔
    n < m.nextFileNumber ∧ ¬ m.NamesWal n ∧ w.compactionNumber? ≠ some n := by
  constructor
  · intro h
    refine ⟨h.flushes_lt n rfl, fun hn => (h.wals n hn).2 rfl, fun hn => ?_⟩
    exact (h.compaction n hn).2.2.1 rfl
  · rintro ⟨hlt, hwal, hcompaction⟩
    refine ⟨by simp [ledger, Ledger.used], ?_, fun n' hn' => ⟨by simp [ledger], ?_⟩,
      by simp [ledger], by simp [ledger, Ledger.used], by simp [ledger, Ledger.used],
      fun n' hn' => ?_⟩
    · rintro n' rfl
      exact hlt
    · rintro rfl
      exact hwal hn'
    · refine ⟨by simp [ledger], by simp [ledger], ?_, by simp [ledger]⟩
      rintro rfl
      exact hcompaction hn'

theorem FileName.respected_sst_iff : (FileName.sst n).ledger.Respected m w ↔
    n < m.nextFileNumber ∧ ¬ m.NamesTable n ∧ ¬ m.FlushNumber n ∧
      (∀ job, w.flushJob? = some job → job.tableNumber ≠ n) ∧ w.compactionNumber? ≠ some n := by
  constructor
  · intro h
    exact ⟨h.used_lt n (.inl rfl), fun hn => h.tables n hn rfl,
      fun hn => h.pending n hn (.inl rfl), fun job hjob heq => h.flush job hjob (.inl heq),
      fun hn => (h.compaction n hn).1 rfl⟩
  · rintro ⟨hlt, htable, hflush, hjob, hcompaction⟩
    have hused : ∀ n', n' ∈ (FileName.sst n).ledger.used ↔ n' = n := by simp [ledger, Ledger.used]
    refine ⟨fun n' hn' => ?_, by simp [ledger], by simp [ledger], fun n' hn' => ?_,
      fun n' hn' => ?_, fun job hjob' => ?_, fun n' hn' => ?_⟩
    · rw [(hused n').mp hn']
      exact hlt
    · rintro rfl
      exact htable hn'
    · rw [hused]
      rintro rfl
      exact hflush hn'
    · rw [hused]
      exact hjob job hjob'
    · refine ⟨?_, by simp [ledger], by simp [ledger], by simp [ledger]⟩
      rintro rfl
      exact hcompaction hn'

end

/-- The remembered paths and the WAL that the worker is about to remove are not named again. -/
structure Retired (s : System) : Prop where
  pending : ∀ name ∈ s.handle.pendingCleanup, name.ledger.Respected s.handle.manifest s.worker
  removing : ∀ n, s.worker = .removingWal n →
    (FileName.wal n).ledger.Respected s.handle.manifest s.worker

theorem not_names_of_respected {m : ManifestSnapshot} {w : Worker} {name : FileName}
    (h : name.ledger.Respected m w) : ¬ m.Names name := by
  cases name with
  | wal n => exact (FileName.respected_wal_iff.mp h).2.1
  | sst n => exact (FileName.respected_sst_iff.mp h).2.1
  | sstTmp n => exact id

/-- A path with a number that is used up, and no file of the Manifest. -/
theorem respected_of_not_reusable {s : System} {name : FileName} (hname : ¬ s.Reusable name)
    (hnames : ¬ s.handle.manifest.Names name) :
    name.ledger.Respected s.handle.manifest s.worker := by
  cases name with
  | wal n =>
    rw [System.Reusable, not_or, not_le] at hname
    exact FileName.respected_wal_iff.mpr ⟨hname.1, hnames, hname.2⟩
  | sst n =>
    rw [System.Reusable, not_or, not_or, not_le] at hname
    obtain ⟨hlt, hcompaction, hflush⟩ := hname
    refine FileName.respected_sst_iff.mpr ⟨hlt, hnames, fun hn => hflush (.inl hn), ?_, hcompaction⟩
    exact fun job hjob heq => hflush (.inr ⟨job, hjob, heq⟩)
  | sstTmp n =>
    refine ⟨?_, ?_, ?_, ?_, ?_, ?_, ?_⟩ <;> simp [FileName.ledger, Ledger.used]

namespace Retired

variable {o : Options} {d₀ : Directory} {readers : Set Table} {s s' : System}

theorem unlinks_step [EntrySize] {faultFree : Bool} (hstep : System.Step o faultFree s s')
    (ha : Allocated o d₀ s.handle s.worker readers) (hr : Retired s) :
    s.handle.Unlinks s'.handle := by
  have hpending : ∀ name ∈ s.handle.pendingCleanup, ¬ s.handle.manifest.Names name :=
    fun name hname => not_names_of_respected (hr.pending name hname)
  have hnothing : ∀ h : Handle, h.Unlinks h := fun h => (Handle.UnlinksNothing.refl h).unlinks
  have hsame : ∀ h : Handle, h.trace = s.handle.trace →
      h.pendingCleanup = s.handle.pendingCleanup → s.handle.Unlinks h :=
    fun h htrace hcleanup => (Handle.UnlinksNothing.of_eq htrace hcleanup).unlinks
  have hswept : ∀ {h : Handle}, s.handle.Sweeps h → s.handle.Unlinks h :=
    fun hsweeps => hsweeps.unlinks (hnothing _)
  cases hstep with
  | write f _ happly => exact (Handle.unlinksNothing_applyWriteGroup happly).unlinks
  | getSnapshot | releaseSnapshot => exact hsame _ rfl rfl
  | workerExit | compactMerge | workerException | compactCall | compactResume | closeWake | next =>
    exact hnothing _
  | workerClaim => exact (Handle.UnlinksNothing.onlyFlags (.claim _)).unlinks
  | flushBegin sweep _ _ hr =>
    rcases Handle.beginFlush_dir hr with rfl | rfl
    · exact hnothing _
    · exact hswept (Handle.sweeps_cleanupObsoleteFiles hpending _ _)
  | flushBuild fault _ _ hphase hr => exact hswept (Handle.sweeps_buildStep (by simp) hphase hr)
  | flushCommit fault _ _ hr => exact (Handle.unlinksNothing_commitFlush hr).unlinks
  | @flushRemove number fails _ hworker =>
    have hname : ¬ s.handle.manifest.Names (.wal number) :=
      not_names_of_respected (hr.removing number hworker)
    exact hswept (Handle.sweeps_bestEffortRemove hname fails)
  | compactBegin fault _ _ hr => exact (Handle.unlinksNothing_beginBackgroundCompaction hr).unlinks
  | compactBuild fault _ _ hphase hr =>
    exact hswept (Handle.sweeps_buildStep Handle.compactionChecked_error hphase hr)
  | @compactCommit job entries out _ status fault fails _ hworker hr =>
    rw [hworker] at ha
    refine Handle.unlinks_commitCompaction hr ha.valid fun out' ho hmem => ?_
    cases ho
    obtain ⟨-, hfresh, -⟩ := ha.compaction job.number rfl
    rw [ManifestSnapshot.NamesTable, ← ha.numbers, ha.builds.1.number_eq] at hmem
    obtain ⟨t, ht, hnumber⟩ := List.mem_map.mp hmem
    exact hfresh t (ha.live t ht) hnumber
  | compactDrop fault fails _ _ hr => exact Handle.unlinks_commitCompaction hr ha.valid (by simp)
  | workerAccount => exact (Handle.UnlinksNothing.onlyFlags (.account _ _ _)).unlinks
  | compactRun f _ _ hr => exact Handle.unlinks_compactTablePrefix hr ha hpending
  | closeCall =>
    split
    · exact hnothing _
    · exact hsame _ rfl rfl
  | closeRound fault _ _ hr =>
    rcases Handle.closeRound_cases hr with hflags | ⟨h₁, status, hrotate, hflags⟩
    · exact (Handle.UnlinksNothing.onlyFlags hflags).unlinks
    · exact ((Handle.unlinksNothing_rotate hrotate).trans (.onlyFlags hflags)).unlinks
  | closeSync fault _ _ hr =>
    rcases Handle.closeSyncWal_cases hr with hflags | hflags
    · exact (Handle.UnlinksNothing.onlyFlags hflags).unlinks
    · exact ((Handle.UnlinksNothing.perform (by simp)).trans (.onlyFlags hflags)).unlinks
  | closeJoined fault _ _ _ hr =>
    cases hr
    exact hsame _ rfl rfl

/-- The worker comes to the removal of a WAL behind the flush of its MemTable. -/
theorem removing_step [EntrySize] {faultFree : Bool} (hstep : System.Step o faultFree s s')
    (ha : Allocated o d₀ s.handle s.worker readers) (hr : Retired s) (n : ℕ)
    (hn : s'.worker = .removingWal n) :
    (FileName.wal n).ledger.Respected s'.handle.manifest s'.worker := by
  have hsame : s'.worker = s.worker →
      (FileName.wal n).ledger.Respected s'.handle.manifest s'.worker := by
    intro hworker
    exact (hr.removing n (hworker ▸ hn)).step hstep ha
  cases hstep with
  | write | getSnapshot | releaseSnapshot | compactCall | compactResume | closeWake | next |
    compactRun | closeRound | closeSync | closeJoined => exact hsame rfl
  | closeCall =>
    refine hsame ?_
    split <;> rfl
  | workerExit | workerException | workerAccount | flushRemove | compactCommit | compactDrop =>
    cases hn
  | workerClaim =>
    simp only [Handle.claim] at hn
    repeat' split at hn
    all_goals cases hn
  | @flushBegin _ r => cases r <;> cases hn
  | @flushBuild _ _ _ r => cases r <;> cases hn
  | @compactBegin _ r => cases r <;> cases hn
  | compactMerge =>
    dsimp only at hn
    repeat' split at hn
    all_goals cases hn
  | @compactBuild _ _ _ _ r => cases r <;> cases hn
  | @flushCommit job out _ status fault _ hworker hr =>
    dsimp only at hn ⊢
    rw [hn]
    rcases Handle.commitFlush_cases hr with
      ⟨-, hfail⟩ | ⟨-, hfail, -⟩ | ⟨rfl, rfl, -, -, hwal, -⟩
    · rw [if_neg (by simp [hfail])] at hn
      cases hn
    · rw [if_neg (by simp [hfail])] at hn
      cases hn
    · rw [if_pos Status.ok_okay] at hn
      cases hn
      rw [← hwal]
      refine FileName.respected_wal_iff.mpr ⟨ha.valid.immutable_lt, ?_, by simp
        [Worker.compactionNumber?]⟩
      rintro (heq | ⟨hzero, -⟩)
      · exact ha.valid.wals_ne heq
      · exact hzero rfl

/-- The inputs of a compaction, whose removal failed, stay off the new Manifest. -/
theorem respected_input (ha : Allocated o d₀ s.handle s.worker readers)
    (ha' : Allocated o d₀ s'.handle s'.worker (Allocated.grown readers s'.handle)) {n : ℕ}
    (hold : s.handle.manifest.NamesTable n) (hnew : ¬ s'.handle.manifest.NamesTable n) :
    (FileName.sst n).ledger.Respected s'.handle.manifest s'.worker := by
  rw [ManifestSnapshot.NamesTable, ← ha.numbers] at hold
  obtain ⟨t, ht, rfl⟩ := List.mem_map.mp hold
  have hmem : t ∈ Allocated.grown readers s'.handle := .inl (ha.live t ht)
  refine FileName.respected_sst_iff.mpr ⟨ha'.lt_next t hmem, hnew, (ha'.free t hmem).flush,
    fun job hjob heq => (ha'.flush job hjob).2.1 t hmem heq.symm, fun hcompaction => ?_⟩
  exact (ha'.compaction _ hcompaction).2.1 t hmem rfl

/-- Paths that are remembered with a number that is used up stay retired. -/
theorem step [EntrySize] {faultFree : Bool} (hstep : System.Step o faultFree s s')
    (hnew : ∀ name ∈ s'.handle.pendingCleanup, name ∈ s.handle.pendingCleanup ∨ ¬ s.Reusable name)
    (ha : Allocated o d₀ s.handle s.worker readers) (hr : Retired s) : Retired s' := by
  have ha' := ha.step hstep
  have hunlinks := hr.unlinks_step hstep ha
  have hkeeps : ∀ {l : Ledger}, l.Respected s.handle.manifest s.worker →
      l.Respected s'.handle.manifest s'.worker := fun hl => hl.step hstep ha
  refine ⟨fun name hname => ?_, hr.removing_step hstep ha⟩
  rcases hnew name hname with hold | hreusable
  · exact hkeeps (hr.pending name hold)
  by_cases hnames : s.handle.manifest.Names name
  · -- it is an input of a compaction
    rcases hunlinks.pending name hname with hold | hnot | ⟨n, rfl, hgone⟩
    · exact hkeeps (hr.pending name hold)
    · exact absurd hnames hnot
    · exact respected_input ha ha' hnames hgone
  · exact hkeeps (respected_of_not_reusable hreusable hnames)

end Retired

/-! ## Open -/

namespace Handle

variable [EntrySize] {o : Options} {h h' : Handle}

theorem unlinksNothing_recoverWal {number floor recoveredMax : ℕ} {m : MemTable}
    (hr : h.recoverWal o number floor = .ok (h', recoveredMax, m)) : UnlinksNothing h h' := by
  rcases (Handle.recoverWal_cases hr).2 with rfl | ⟨size, rfl⟩
  · exact .refl _
  · exact .perform (by simp)

theorem unlinksNothing_recoverActive {floor : ℕ} (hr : h.recoverActive o floor = .ok h') :
    UnlinksNothing h h' := by
  unfold recoverActive at hr
  split at hr
  · cases hr
  rename_i h₁ recoveredMax m hwal
  split at hr
  · cases hr
  cases hr
  exact (unlinksNothing_recoverWal hwal).trans (.of_eq rfl rfl)

theorem unlinksNothing_recoverWals (hr : h.recoverWals o = .ok h') : UnlinksNothing h h' := by
  unfold recoverWals at hr
  split at hr
  · exact unlinksNothing_recoverActive hr
  split at hr
  · cases hr
  rename_i h₁ recoveredMax m hwal
  split at hr
  · cases hr
  have hactive := unlinksNothing_recoverActive hr
  have hsealed : UnlinksNothing h₁ { h₁ with immutable := some m } := .of_eq rfl rfl
  exact ((unlinksNothing_recoverWal hwal).trans hsealed).trans hactive

/-- The sweep at the end of `Open`. -/
structure SweptOpen (h : Handle) : Prop where
  trace : UnlinksUnnamed h.manifest h.manifest h.trace
  pending : ∀ name ∈ h.pendingCleanup, ¬ h.manifest.Names name

theorem recover_swept {sweep : SweepFaults} {d : Directory} {m : ManifestSnapshot}
    {t : List DirOp} (ht : ∀ name, .remove name ∉ t)
    (hr : (blank d m t).recover o sweep = .ok h) : SweptOpen h := by
  unfold recover at hr
  split at hr
  · cases hr
  rename_i h₁ htables
  split at hr
  · cases hr
  rename_i h₂ hwals
  unfold openManifestSSTables at htables
  split at htables
  · cases htables
  cases htables
  cases hr
  obtain ⟨⟨ops, htrace, hops⟩, hnil⟩ := unlinksNothing_recoverWals hwals
  have hnil : h₂.pendingCleanup = [] := hnil
  obtain ⟨hmanifest, ⟨ops', htrace', hops'⟩, hpending⟩ := sweeps_cleanupObsoleteFiles (h := h₂)
    (by simp [hnil]) sweep.listed sweep.fails
  have hmanifest : (startBackgroundWorker o
      (h₂.cleanupObsoleteFiles sweep.listed sweep.fails)).manifest = h₂.manifest := hmanifest
  refine ⟨?_, fun name hname => ?_⟩
  · rw [hmanifest]
    refine unlinksUnnamed_self fun name hmem => ?_
    have hmem : .remove name ∈ t ++ ops ++ ops' := htrace ▸ htrace' ▸ hmem
    rcases List.mem_append.mp hmem with hmem | hmem
    · rcases List.mem_append.mp hmem with hmem | hmem
      · exact absurd hmem (ht name)
      · exact absurd hmem (hops name)
    · exact (hops' _ hmem).2 name rfl
  · rw [hmanifest]
    refine (hpending name hname).resolve_left ?_
    simp [hnil]

theorem open_swept {d : Directory} {listing : Listing} {sweep : SweepFaults}
    (hopen : Handle.open o d listing sweep = .ok h) : SweptOpen h := by
  obtain ⟨m, -, ⟨-, hrecover⟩ | ⟨-, rfl, h₁, hcreate, hrecover, hblank⟩⟩ := open_eq_ok hopen
  · exact recover_swept (by simp) hrecover
  · rw [hblank] at hrecover
    refine recover_swept ?_ hrecover
    unfold createInitialManifest at hcreate
    split at hcreate
    · cases hcreate
    split at hcreate
    · cases hcreate
    rename_i hasInitialWal hinspect
    cases hcreate
    cases hasInitialWal <;> simp [Handle.blank]

end Handle

/-! ## Runs that remember no path with a reusable number -/

namespace System

variable [EntrySize] (o : Options)

/-- Every removal that fails in the step is of a file whose number is used up. -/
def RetiringStep (s s' : System) : Prop :=
  Step o false s s' ∧
    ∀ name ∈ s'.handle.pendingCleanup, name ∈ s.handle.pendingCleanup ∨ ¬ s.Reusable name

/-- The runs in which `pending_cleanup_` remembers only paths whose numbers are used up. -/
def retiring : TransitionSystem System where
  init s := (system o false).init s ∧ ∀ name ∈ s.handle.pendingCleanup, ¬ s.Reusable name
  step := RetiringStep o

end System

section
variable [EntrySize] {o : Options}

/-- Whatever fails, as long as no removal fails of a file whose number can still be handed out:
`Open` and every step behind it unlink only files that the Manifest, current at that point, does not
name. -/
theorem cleanup_spares_live_files {d : Directory} (hd : d.Written) {listing : Listing}
    {sweep : SweepFaults} {h : Handle} (hopen : Handle.open o d listing sweep = .ok h)
    (hpending : ∀ name ∈ h.pendingCleanup, ¬ (System.started h).Reusable name) {s s' : System}
    (hrun : (System.retiring o).Run (System.started h) s) (hstep : System.Step o false s s') :
    UnlinksUnnamed h.manifest h.manifest h.trace ∧ ∃ ops, s'.handle.trace = s.handle.trace ++ ops ∧
      UnlinksUnnamed s'.handle.manifest s.handle.manifest ops := by
  have hopened := Handle.open_swept hopen
  have hretired : Retired (System.started h) :=
    ⟨fun name hname => respected_of_not_reusable (hpending name hname) (hopened.pending name hname),
      by simp [System.started]⟩
  have hkept : (∃ readers, Allocated o d s.handle s.worker readers) ∧ Retired s := by
    refine hrun.keeps (P := fun s => (∃ readers, Allocated o d s.handle s.worker readers) ∧
      Retired s) ?_ ⟨⟨_, Allocated.opened hopen hd.sound⟩, hretired⟩
    rintro s₁ s₂ ⟨hstep, hnew⟩ ⟨⟨readers, ha⟩, hr⟩
    exact ⟨⟨_, ha.step hstep⟩, hr.step hstep hnew ha⟩
  obtain ⟨⟨readers, ha⟩, hr⟩ := hkept
  exact ⟨hopened.trace, (hr.unlinks_step hstep ha).trace⟩

end

/-- Moves, none of them of a call, remember nothing. -/
theorem System.retiring_of_moves [EntrySize] {o : Options} {d : Directory} (hd : d.Written)
    {listing : Listing} {sweep : SweepFaults} (hfails : sweep.fails = fun _ => false) {h : Handle}
    (hopen : Handle.open o d listing sweep = .ok h) {s s' : System} {ms : List Move}
    (hrun : (quiet o).Run (started h) s) (hms : ∀ m ∈ ms, ∀ t listed, m ≠ .call t listed)
    (hmoves : s.moves o ms = some s') : (retiring o).Run s s' := by
  induction ms generalizing s with
  | nil =>
    obtain rfl := Option.some.inj hmoves
    exact .refl
  | cons m ms ih =>
    obtain ⟨s₁, hmove, hrest⟩ := Option.bind_eq_some_iff.mp hmoves
    have hrun₁ := hrun.tail (quietStep_of_move hmove (.inl (hms m List.mem_cons_self)))
    have hstep : RetiringStep o s s₁ := by
      refine ⟨move_step hmove, ?_⟩
      rw [(Present.of_run hd hfails hopen hrun₁).pending]
      simp
    exact .head hstep (ih hrun₁ (fun m' hm' => hms m' (List.mem_cons_of_mem _ hm')) hrest)

/-- The sweep of an explicit compaction cannot remove a file. -/
def unremoved (name : FileName) : Handle.CompactFaults where
  sweep := ⟨some [name], fun _ => true⟩

/-- The sweep of an explicit compaction succeeds, and then an input cannot be read. -/
def unread : Handle.CompactFaults where
  sweep := ⟨some [], fun _ => false⟩
  read := some ⟨.ioError "read", rfl⟩

/-- Thread 0 returns from an explicit compaction. -/
def System.compacted (o : Options) (f : Handle.CompactFaults) (s : System) : System :=
  let r := s.handle.compactTablePrefix o 1 f
  { s with handle := r.1, calls := Function.update s.calls 0 (.returned r.2) }

/-- Thread 0 calls `Compact` again. -/
def compactAgain : List Move := [.call 0 [], .compact 0, .call 0 []]

theorem System.retiringStep_of_move [EntrySize] {o : Options} {s s' : System} {m : Move}
    (h : s.move o m = some s') (hpending : s'.handle.pendingCleanup = s.handle.pendingCleanup) :
    RetiringStep o s s' :=
  ⟨move_step h, fun _ hname => .inl (hpending ▸ hname)⟩

/-- The sweep of an explicit compaction cannot remove the WAL of a flushed put, and that of the next
one makes up for it. -/
theorem cleanup_spares_live_files_remembered :
    let _ := entrySize80
    let o : Options := { memtableBytes := 1 }
    ∃ s s' : System, System.Step o false s s' ∧ s.handle.pendingCleanup = [.wal 1] ∧
      s'.handle.trace = s.handle.trace ++ [.remove (.wal 1)] ∧
      UnlinksUnnamed s'.handle.manifest s.handle.manifest [.remove (.wal 1)] := by
  intro _ o
  let flushed : List Move :=
    .write [WriterQueue.firstRequest] :: List.replicate 10 (.worker []) ++ [.compact 0]
  let remembers (s : System) (names : List FileName) : Bool := s.handle.pendingCleanup == names
  have htests : ((System.openThen o .empty ⟨false, []⟩ ⟨none, fun _ => false⟩ flushed).map fun s₁ =>
      remembers s₁ [] && ((s₁.move o (.call 0 [])).map fun s₂ => remembers s₂ [] &&
        decide (s₂.calls 0 = .compactReady 1 ∧ ¬ s₂.handle.manifest.nextFileNumber ≤ 1 ∧
          s₂.worker.compactionNumber? = none) &&
        remembers (s₂.compacted o (unremoved (.wal 1))) [.wal 1] &&
        (((s₂.compacted o (unremoved (.wal 1))).move o (.call 0 [])).map fun s₃ =>
          remembers s₃ [.wal 1] && ((s₃.move o (.compact 0)).map fun s₄ => remembers s₄ [.wal 1] &&
            ((s₄.move o (.call 0 [])).map fun s => remembers s [.wal 1] &&
              decide (s.calls 0 = .compactReady 1 ∧ (s.compacted o unread).handle.trace =
                s.handle.trace ++ [.remove (.wal 1)])) == some true) == some true) == some true) ==
        some true) = some true := by
    decide +kernel
  obtain ⟨s₁, hs₁, htests⟩ := Option.map_eq_some_iff.mp htests
  obtain ⟨hnil₁, htests⟩ := Bool.and_eq_true_iff.mp htests
  obtain ⟨s₂, hs₂, htests⟩ := Option.map_eq_some_iff.mp (eq_of_beq htests)
  obtain ⟨htests, hrest⟩ := Bool.and_eq_true_iff.mp htests
  obtain ⟨htests, hremembered⟩ := Bool.and_eq_true_iff.mp htests
  obtain ⟨hnil₂, htests⟩ := Bool.and_eq_true_iff.mp htests
  obtain ⟨hcall₂, hlt, hidle⟩ := of_decide_eq_true htests
  obtain ⟨s₃, hs₃, htests⟩ := Option.map_eq_some_iff.mp (eq_of_beq hrest)
  obtain ⟨hp₃, htests⟩ := Bool.and_eq_true_iff.mp htests
  obtain ⟨s₄, hs₄, htests⟩ := Option.map_eq_some_iff.mp (eq_of_beq htests)
  obtain ⟨hp₄, htests⟩ := Bool.and_eq_true_iff.mp htests
  obtain ⟨s, hs, htests⟩ := Option.map_eq_some_iff.mp (eq_of_beq htests)
  obtain ⟨hp, htests⟩ := Bool.and_eq_true_iff.mp htests
  obtain ⟨hcall, htrace⟩ := of_decide_eq_true htests
  obtain ⟨h₀, hopen, hmoves⟩ := System.openThen_eq_some hs₁
  have hd : Directory.Written .empty := .new rfl fun _ => rfl
  have hstep : ∀ (f : Handle.CompactFaults) (s : System), s.calls 0 = .compactReady 1 →
      System.Step o false s (s.compacted o f) := fun f s hcall => .compactRun f (by simp) hcall rfl
  have hfirst : System.RetiringStep o s₂ (s₂.compacted o (unremoved (.wal 1))) := by
    refine ⟨hstep _ s₂ hcall₂, fun name hname => .inr ?_⟩
    rw [eq_of_beq hremembered, List.mem_singleton] at hname
    rw [hname, System.Reusable, hidle]
    simpa using hlt
  have hopened : (System.started h₀).handle.pendingCleanup = [] :=
    (Present.opened rfl hopen).pending
  have hrun : (System.retiring o).Run (System.started h₀) s :=
    ((((((System.retiring_of_moves hd rfl hopen .refl (by simp [flushed]) hmoves).tail
      (System.retiringStep_of_move hs₂ ((eq_of_beq hnil₂).trans (eq_of_beq hnil₁).symm))).tail
      hfirst).tail
      (System.retiringStep_of_move hs₃ ((eq_of_beq hp₃).trans (eq_of_beq hremembered).symm))).tail
      (System.retiringStep_of_move hs₄ ((eq_of_beq hp₄).trans (eq_of_beq hp₃).symm))).tail
      (System.retiringStep_of_move hs ((eq_of_beq hp).trans (eq_of_beq hp₄).symm)))
  have hlast := hstep unread s hcall
  obtain ⟨-, ops, hops, hunnamed⟩ := cleanup_spares_live_files hd hopen
    (by rw [show h₀.pendingCleanup = [] from hopened]; simp) hrun hlast
  rw [htrace] at hops
  obtain rfl := List.append_cancel_left hops
  exact ⟨s, _, hlast, eq_of_beq hp, htrace, hunnamed⟩

/-- An explicit compaction fails to publish table 4, the next one fails to remove it, builds another
table 4 and publishes that, and the one behind it unlinks the remembered path. -/
theorem remembered_path_unlinks_live_table :
    let _ := entrySize80
    let o : Options := { memtableBytes := 1 }
    ∃ s s' : System, (System.system o false).Reachable s ∧ System.Step o false s s' ∧
      s.handle.manifest.NamesTable 4 ∧ s'.handle.manifest = s.handle.manifest ∧
      (s.handle.dir.files (.sst 4)).isSome ∧ s'.handle.dir.files (.sst 4) = none ∧
      ¬ ∃ ops, s'.handle.trace = s.handle.trace ++ ops ∧
        UnlinksUnnamed s'.handle.manifest s.handle.manifest ops := by
  intro _ o
  have htests : ((System.openThen o .empty ⟨false, []⟩ ⟨none, fun _ => false⟩
      flushedThenCompact).map fun s₁ => decide (s₁.calls 0 = .compactReady 1) &&
        (((s₁.compacted o unpublished).moves o compactAgain).map fun s₂ =>
          decide (s₂.calls 0 = .compactReady 1) &&
            (((s₂.compacted o (unremoved (.sst 4))).moves o compactAgain).map fun s =>
              decide (s.calls 0 = .compactReady 1 ∧
                s.handle.manifest.liveTables.map TableMeta.fileNumber = [4] ∧
                (s.compacted o unread).handle.manifest = s.handle.manifest ∧
                (s.handle.dir.files (.sst 4)).isSome ∧
                (s.compacted o unread).handle.dir.files (.sst 4) = none ∧
                (s.compacted o unread).handle.trace = s.handle.trace ++ [.remove (.sst 4)])) ==
              some true) == some true) = some true := by
    decide +kernel
  obtain ⟨s₁, hs₁, htests⟩ := Option.map_eq_some_iff.mp htests
  obtain ⟨hcall₁, htests⟩ := Bool.and_eq_true_iff.mp htests
  obtain ⟨s₂, hs₂, htests⟩ := Option.map_eq_some_iff.mp (eq_of_beq htests)
  obtain ⟨hcall₂, htests⟩ := Bool.and_eq_true_iff.mp htests
  obtain ⟨s, hs, htests⟩ := Option.map_eq_some_iff.mp (eq_of_beq htests)
  obtain ⟨hcall, htables, hmanifest, hthere, hgone, htrace⟩ := of_decide_eq_true htests
  obtain ⟨h₀, hopen, hmoves⟩ := System.openThen_eq_some hs₁
  have hstep : ∀ (f : Handle.CompactFaults) (s : System), s.calls 0 = .compactReady 1 →
      System.Step o false s (s.compacted o f) := fun f s hcall => .compactRun f (by simp) hcall rfl
  have hreach : (System.system o false).Reachable s :=
    ⟨_, ⟨.empty, ⟨false, []⟩, ⟨none, fun _ => false⟩, h₀, by simp, hopen, rfl⟩,
      (((System.moves_run hmoves).tail (hstep _ s₁ (of_decide_eq_true hcall₁))).trans
        (System.moves_run hs₂)).trans
        (.head (hstep _ s₂ (of_decide_eq_true hcall₂)) (System.moves_run hs))⟩
  have htable : s.handle.manifest.NamesTable 4 := by
    rw [ManifestSnapshot.NamesTable, htables]
    exact List.mem_singleton_self 4
  refine ⟨s, s.compacted o unread, hreach, hstep _ s hcall, htable, hmanifest, hthere, hgone, ?_⟩
  rintro ⟨ops, hops, hunnamed⟩
  rw [htrace] at hops
  obtain rfl := List.append_cancel_left hops
  exact hunnamed.1 htable

end TinyLsm
