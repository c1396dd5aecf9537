import TinyLsm.Db.CheckOpen
import TinyLsm.Db.NumberLedger
import TinyLsm.Db.Undisturbed

/-!
# Sticky errors of maintenance

Runs of writers, readers, explicit compactions and the worker in which no file operation fails. They
set no error, and every `Compact` succeeds, as long as no explicit compaction starts beside what it
would take from the worker: the temporary file of a flush, or the inputs of a compaction.
-/

namespace TinyLsm

/-! ## Maintenance -/

/-- What the next region of the worker makes stays within the limits of the formats. -/
def Worker.Fits (o : Options) (h : Handle) : Worker → Prop
  | claimed false => h.compactionStatus o o.compactionTableTrigger true = none →
      h.manifest.nextFileNumber ≠ 2 ^ 64 - 1 ∧ (Handle.reservedManifest h.manifest).FitsFile
  | flushing job .write => TableRoom o.sstableBlockBytes o.sstableRestartInterval job.entries
  | flushing _ (.ready out) => (Handle.flushedManifest h.manifest out).FitsFile
  | compacting _ entries .write => TableRoom o.sstableBlockBytes o.sstableRestartInterval entries
  | compacting job _ (.ready out) => (Handle.compactedManifest h.manifest job (some out)).FitsFile
  | dropping job => (Handle.compactedManifest h.manifest job none).FitsFile
  | _ => True

namespace System

section
variable [EntrySize]

/-- A step without failing file operations and without `Close`. What it makes stays within the
limits of the formats, and an explicit compaction finds nothing to take from the worker. -/
structure MaintenanceStep (o : Options) (s s' : System) : Prop where
  step : Step o true s s'
  no_close : ∀ t, s.calls t = .idle → s'.calls t ≠ .closeLoop
  fits : s'.worker ≠ s.worker → s.worker.Fits o s.handle
  apart : ∀ t inputCount status, s.calls t = .compactReady inputCount →
    s'.calls t = .returned status → s.handle.compactionStatus o inputCount false = none →
    s.worker.exposed = false ∧ s.handle.CompactionFits o (s.handle.selectTables inputCount)

/-- The runs of a handle in which the explicit compactions keep apart from the worker. -/
def maintenance (o : Options) : TransitionSystem System where
  init := (system o true).init
  step := MaintenanceStep o

end

end System

/-- A call of `Compact` that has not failed. -/
def Call.Succeeding : Call → Prop
  | idle | compactWaiting | compactReady _ => True
  | returned status => status.ok
  | _ => False

/-! ## Open -/

namespace Handle

variable [EntrySize] {o : Options} {h h' : Handle}

/-- Recovery takes no empty MemTable for the immutable one. -/
theorem recoverWals_sealed (himmutable : h.immutable = none) (hr : h.recoverWals o = .ok h') :
    ∀ m, h'.immutable = some m → m.isEmpty = false := by
  unfold recoverWals at hr
  split at hr
  · rw [(MemTablesClean.recoverActive hr).2, himmutable]
    simp
  split at hr
  · cases hr
  split at hr
  · cases hr
  rename_i hfull
  rw [(MemTablesClean.recoverActive hr).2]
  intro m hm
  obtain rfl := Option.some.inj hm
  simpa using hfull

theorem recovered_sealed {sweep : SweepFaults} {d : Directory} {m : ManifestSnapshot}
    {t : List DirOp} (hr : (blank d m t).recover o sweep = .ok h) :
    ∀ m, h.immutable = some m → m.isEmpty = false := by
  unfold recover at hr
  split at hr
  · cases hr
  rename_i h₁ htables
  split at hr
  · cases hr
  rename_i h₂ hwals
  unfold openManifestSSTables at htables
  split at htables
  · cases htables
  cases htables
  cases hr
  obtain ⟨d', t', p, hsweep⟩ := OnlyFiles.cleanupObsoleteFiles h₂ sweep.listed sweep.fails
  rw [hsweep]
  have hsealed : ∀ m, h₂.immutable = some m → m.isEmpty = false := recoverWals_sealed rfl hwals
  exact hsealed

theorem open_sealed {d : Directory} {listing : Listing} {sweep : SweepFaults}
    (hr : Handle.open o d listing sweep = .ok h) :
    ∀ m, h.immutable = some m → m.isEmpty = false := by
  obtain ⟨m, -, ⟨-, hrecover⟩ | ⟨-, rfl, h₁, -, hrecover, hblank⟩⟩ := open_eq_ok hr
  · exact recovered_sealed hrecover
  · rw [hblank] at hrecover
    exact recovered_sealed hrecover

end Handle

/-! ## The invariant -/

/-- What every state of such a run keeps. -/
structure Maintained (o : Options) (d₀ : Directory) (s : System) : Prop where
  kept : ∃ readers, Kept o d₀ readers s
  pending : FlushPending s.handle s.worker
  clean : s.handle.MemTablesClean
  reserves : s.handle.manifest.ReservesFlush
  numbered : ∀ job, s.worker.flushJob? = some job → job.tableNumber ≠ 0
  undisturbed : Undisturbed o s.handle s.worker
  gate : s.handle.closed = false ∧ s.handle.closing = false
  calls : ∀ t, (s.calls t).Succeeding

namespace Maintained

variable {o : Options} {d₀ : Directory} {s s' : System}

theorem checkOpen (hm : Maintained o d₀ s) : s.handle.checkOpen = .okay :=
  hm.undisturbed.checkOpen hm.gate.1 hm.gate.2

variable [EntrySize]

omit [EntrySize] in
/-- The worker does not stay at the write of its table. -/
theorem continued_ne_write {flush : Bool} {context : BuildContext}
    {checked : Output → Option Status} {number : ℕ} {entries : List InternalEntry} {h : Handle}
    {r : Except Status BuildPhase} {next : BuildPhase → Worker}
    (hr : s.handle.buildStep o context checked number entries none .write = (h, r))
    (hinj : ∀ phase phase', next phase = next phase' → phase = phase')
    (hfinished : ∀ flush status, next .write ≠ .finished flush status) :
    System.continued flush next r ≠ next .write := by
  cases r with
  | ok phase' =>
    intro heq
    have hto := Handle.buildStep_ok (by simp) hr
    rw [hinj _ _ heq] at hto
    cases hto
  | error status => exact fun heq => hfinished _ _ heq.symm

omit [EntrySize] in
/-- An explicit compaction that keeps apart from the worker. -/
theorem compactRun {inputCount : ℕ} {f : Handle.CompactFaults} {h : Handle} {status : Status}
    (ho : o.Accepted) (hm : Maintained o d₀ s)
    (hf : true → f.sweep.fails = (fun _ => false) ∧ f.read = none ∧ f.create = none ∧
      f.write = none ∧ f.verify = none ∧ f.rename = none ∧ f.syncDir = none ∧ f.publish = none ∧
      f.fails = fun _ => false)
    (hr : s.handle.compactTablePrefix o inputCount f = (h, status))
    (hapart : s.handle.compactionStatus o inputCount false = none →
      s.worker.exposed = false ∧ s.handle.CompactionFits o (s.handle.selectTables inputCount)) :
    status.ok ∧ Undisturbed o h s.worker := by
  obtain ⟨readers, hk⟩ := hm.kept
  obtain ⟨-, hread, hcreate, hwrite, hverify, hrename, hsync, hpublish, hfails⟩ := hf rfl
  refine Undisturbed.compactTablePrefix hr hread hpublish hfails
    ⟨hcreate, hwrite, hverify, hrename, hsync⟩ ho hk hm.undisturbed ?_ hapart
  rw [hm.checkOpen]
  rfl

theorem undisturbed_step (hstep : System.MaintenanceStep o s s') (ho : o.Accepted)
    (hm : Maintained o d₀ s) : Undisturbed o s'.handle s'.worker := by
  obtain ⟨readers, hk⟩ := hm.kept
  have hu := hm.undisturbed
  have hl := hk.layered
  have hpublishes : ∀ next, s.Publishes o next → next.Valid := fun _ =>
    hk.publishes_valid hm.numbered
  obtain ⟨hstep, hclose, hfits, hapart⟩ := hstep
  -- a region that publishes is handed a valid Manifest, so that only its size can be refused
  cases hstep with
  | write f hf happly =>
    rw [hf rfl] at happly
    exact hu.applyWriteGroup happly
  | getSnapshot | releaseSnapshot => exact hu.congr rfl rfl rfl rfl rfl rfl fun _ => rfl
  | workerExit => exact hu.move trivial
  | workerClaim => exact hu.claim hm.gate.1
  | flushBegin sweep _ hworker hr =>
    exact (hworker ▸ hu).beginFlush hr hl hm.pending hm.reserves
  | @flushBuild job phase h r fault hf hworker hphase hr =>
    rw [hf rfl] at hr
    have hbuilds := hk.allocated.builds
    have hlayered := hl
    rw [hworker] at hu hbuilds hlayered hfits
    obtain ⟨m, hsealed, hentries⟩ := hlayered.output.1
    have hstorable := hl.sealed_storable hm.clean hk.compacts.space hsealed
    have hne := (hl.immutable m hsealed).contents_ne_nil (hu.sealed m hsealed)
    rw [← hentries] at hstorable hne
    obtain ⟨hs, hrest⟩ := hu.worker
    obtain ⟨phase', rfl, hs', hfiles⟩ := Undisturbed.buildStep hr hphase hs hbuilds
      (fun hwrite => by
        subst hwrite
        exact hstorable.tableFits ho hne (hfits (continued_ne_write hr (by simp) (by simp))))
      (by simp)
    obtain ⟨d, t, p, rfl⟩ := hfiles
    exact hu.onlyFiles ⟨d, t, p, rfl⟩ ⟨hs', hrest⟩
  | @flushCommit job out h status fault hf hworker hr =>
    rw [hf rfl] at hr
    have hbuilds := hk.allocated.builds
    rw [hworker] at hu hbuilds hfits
    obtain ⟨rfl, hu'⟩ := hu.commitFlush hr hbuilds.1
      (fun next hnext => hpublishes next (.flush hworker hnext)) (hfits (by split <;> simp))
    exact hu'
  | flushRemove fails hf hworker =>
    rw [hf rfl]
    have hremoved : Undisturbed o s.handle (.finished true .okay) := hu.move rfl
    exact hremoved.perform (by simp [DirOp.writes]) (by simp) (by simp)
  | compactBegin fault hf hworker hr =>
    rw [hf rfl] at hr
    rw [hworker] at hu hfits
    refine hu.beginCompaction hr hl (fun next hnext => hpublishes next (.reserve hworker hnext))
      (hfits ?_)
    rename_i r
    cases r <;> simp [System.continued]
  | @compactMerge job fault hf hworker =>
    obtain rfl := hf rfl
    have hc := hk.compacts.worker
    rw [hworker] at hu hc
    obtain ⟨merged, hmerged, -⟩ := hc.retained hk.compacts.space hk.compacts.snapshots
    rw [hmerged]
    dsimp only
    split
    · exact hu.move hu.worker
    · rename_i hne
      exact hu.move ⟨trivial, hne, hu.worker⟩
  | @compactBuild job entries phase h r fault hf hworker hphase hr =>
    rw [hf rfl] at hr
    have hbuilds := hk.allocated.builds
    have hc := hk.compacts.worker
    rw [hworker] at hu hbuilds hc hfits
    have hstorable := hc.1.storable hk.compacts.space.le hc.2.ordered hc.2.subset
    obtain ⟨hs, hne, hfront⟩ := hu.worker
    obtain ⟨phase', rfl, hs', hfiles⟩ := Undisturbed.buildStep hr hphase hs hbuilds
      (fun hwrite => by
        subst hwrite
        exact hstorable.tableFits ho hne (hfits (continued_ne_write hr (by simp) (by simp))))
      fun out hmatches => if_pos hmatches
    obtain ⟨d, t, p, rfl⟩ := hfiles
    exact hu.onlyFiles ⟨d, t, p, rfl⟩ ⟨hs', hne, hfront⟩
  -- no explicit compaction came in between, so that the inputs are still the oldest tables
  | @compactCommit job entries out h status fault fails hf hworker hr =>
    obtain ⟨rfl, rfl⟩ := hf rfl
    rw [hworker] at hu hfits
    have hidle : Undisturbed o s.handle (.finished false .okay) := hu.move rfl
    obtain ⟨rfl, hu'⟩ := hidle.commitCompaction hr hl rfl hu.worker.2.2
      (fun next hnext => hpublishes next (.compact hworker hnext)) (hfits (by simp))
    exact hu'
  | @compactDrop job h status fault fails hf hworker hr =>
    obtain ⟨rfl, rfl⟩ := hf rfl
    rw [hworker] at hu hfits
    have hidle : Undisturbed o s.handle (.finished false .okay) := hu.move rfl
    obtain ⟨rfl, hu'⟩ := hidle.commitCompaction hr hl rfl hu.worker
      (fun next hnext => hpublishes next (.drop hworker hnext)) (hfits (by simp))
    exact hu'
  | workerException _ hf => cases hf
  | workerAccount hworker => exact (hworker ▸ hu).account
  | compactCall | compactResume | closeWake | next => exact hu
  | @compactRun t inputCount h status f hf ht hr =>
    exact (hm.compactRun ho hf hr fun hstatus =>
      hapart t inputCount status ht (Function.update_self _ _ _) hstatus).2
  | @closeCall t ht =>
    rw [if_neg (by simp [hm.gate.1])] at hclose
    exact absurd (Function.update_self _ _ _) (hclose t ht)
  | @closeRound t _ _ fault hf ht => exact absurd (hm.calls t) (by simp [ht, Call.Succeeding])
  | @closeSync t _ _ fault hf ht => exact absurd (hm.calls t) (by simp [ht, Call.Succeeding])
  | @closeJoined t _ _ fault hf ht => exact absurd (hm.calls t) (by simp [ht, Call.Succeeding])

theorem gate_step (hstep : System.MaintenanceStep o s s') (hm : Maintained o d₀ s) :
    s'.handle.closed = false ∧ s'.handle.closing = false := by
  rcases hstep.step.flags_cases with
    hsame | ⟨t, ht, hloop, -⟩ | ⟨t, _, _, -, ht, -⟩ | ⟨t, ht, -⟩
  · exact ⟨hsame.closed.trans hm.gate.1, hsame.closing.trans hm.gate.2⟩
  · exact absurd hloop (hstep.no_close t ht)
  · exact absurd (hm.calls t) (by simp [ht, Call.Succeeding])
  · exact absurd (hm.calls t) (by simp [ht, Call.Succeeding])

theorem calls_step (hstep : System.MaintenanceStep o s s') (ho : o.Accepted)
    (hm : Maintained o d₀ s) (t : ℕ) : (s'.calls t).Succeeding := by
  have hupdate : ∀ {t' : ℕ} {c : Call}, c.Succeeding →
      (Function.update s.calls t' c t).Succeeding := by
    intro t' c hc
    by_cases ht : t = t'
    · rw [ht, Function.update_self]
      exact hc
    · rw [Function.update_of_ne ht]
      exact hm.calls t
  have hopen : s.handle.checkOpen.ok := by
    rw [hm.checkOpen]
    rfl
  obtain ⟨hstep, hclose, -, hapart⟩ := hstep
  cases hstep with
  | compactCall =>
    rw [if_pos hopen]
    exact hupdate trivial
  | compactResume =>
    rw [if_pos hopen]
    exact hupdate trivial
  | @compactRun t' inputCount h status f hf ht hr =>
    exact hupdate (hm.compactRun ho hf hr fun hstatus =>
      hapart t' inputCount status ht (Function.update_self _ _ _) hstatus).1
  | next => exact hupdate trivial
  | @closeCall t' ht =>
    rw [if_neg (by simp [hm.gate.1])] at hclose
    exact absurd (Function.update_self _ _ _) (hclose t' ht)
  | @closeRound t' _ _ fault hf ht => exact absurd (hm.calls t') (by simp [ht, Call.Succeeding])
  | @closeWake t' ht =>
    rcases ht with ⟨ht, -⟩ | ⟨ht, -⟩ <;> exact absurd (hm.calls t') (by simp [ht, Call.Succeeding])
  | @closeSync t' _ _ fault hf ht => exact absurd (hm.calls t') (by simp [ht, Call.Succeeding])
  | @closeJoined t' _ _ fault hf ht => exact absurd (hm.calls t') (by simp [ht, Call.Succeeding])
  | _ => exact hm.calls t

theorem step (ho : o.Accepted) (hstep : System.MaintenanceStep o s s') (hm : Maintained o d₀ s) :
    Maintained o d₀ s' := by
  obtain ⟨readers, hk⟩ := hm.kept
  exact ⟨⟨_, hk.step hstep.step⟩, hm.pending.step hstep.step, hm.clean.step hstep.step,
    hm.reserves.step hstep.step hk.layered, hstep.step.flush_number_pos hm.numbered,
    hm.undisturbed_step hstep ho, hm.gate_step hstep, hm.calls_step hstep ho⟩

theorem opened {listing : Listing} {sweep : SweepFaults} {h : Handle} (hd : d₀.Written)
    (hopen : Handle.open o d₀ listing sweep = .ok h) : Maintained o d₀ (System.started h) := by
  obtain ⟨d, hopened⟩ := Handle.open_opened hopen
  exact ⟨Kept.opened hd hopen, .opened hopen, .opened hopen,
    (ManifestSnapshot.ReservesFlush.opened hopen hd.reservesFlush).1,
    by simp [System.started, Worker.flushJob?],
    ⟨hopened.terminalError, hopened.backgroundError, Handle.open_sealed hopen, trivial⟩,
    ⟨hopened.closed, hopened.closing⟩, fun _ => trivial⟩

end Maintained

section
variable [EntrySize] {o : Options} {d : Directory} {listing : Listing} {sweep : SweepFaults}
  {h : Handle} {s : System}

theorem Maintained.of_run (ho : o.Accepted) (hd : d.Written)
    (hopen : Handle.open o d listing sweep = .ok h)
    (hrun : (System.maintenance o).Run (System.started h) s) : Maintained o d s :=
  hrun.keeps (fun _ _ hstep hm => hm.step ho hstep) (.opened hd hopen)

/-- In every run without failing file operations, without `Close` and within the limits of the
formats, whose explicit compactions keep apart from the worker: no error is set, and no job of the
worker and no call of `Compact` fails. -/
theorem maintenance_sets_no_error (ho : o.Accepted) (hd : d.Written)
    (hopen : Handle.open o d listing sweep = .ok h)
    (hrun : (System.maintenance o).Run (System.started h) s) :
    s.handle.terminalError = none ∧ s.handle.backgroundError = none ∧
      (∀ flush status, s.worker = .finished flush status → status.ok) ∧
      ∀ t status, s.calls t = .returned status → status.ok := by
  have hm := Maintained.of_run ho hd hopen hrun
  have hu := hm.undisturbed
  refine ⟨hu.terminalError, hu.backgroundError, fun flush status hworker => ?_,
    fun t status ht => ?_⟩
  · rw [hworker] at hu
    exact hu.worker
  · have hcall := hm.calls t
    rw [ht] at hcall
    exact hcall

end

/-! ## Schedules -/

instance (blockBytes ri : ℕ) (es : List InternalEntry) : Decidable (TableRoom blockBytes ri es) :=
  decidable_of_iff ((∀ e ∈ es, e.userKey.length < 2 ^ 32) ∧ (∀ e ∈ es, e.value.length < 2 ^ 32) ∧
    (∀ bs ∈ cutBlocks blockBytes [] es, (blockEncoding ri bs).length < 2 ^ 32) ∧
    (indexBytes (blockMetas 0 (cutBlocks blockBytes [] es)
      ((cutBlocks blockBytes [] es).map (blockEncoding ri)))).length < 2 ^ 32)
    ⟨fun h => ⟨h.1, h.2.1, h.2.2.1, h.2.2.2⟩, fun h => ⟨h.1, h.2, h.3, h.4⟩⟩

instance (m : ManifestSnapshot) : Decidable m.FitsFile := inferInstanceAs (Decidable (_ ≤ _))

instance (o : Options) (h : Handle) (w : Worker) : Decidable (w.Fits o h) :=
  match w with
  | .claimed false => inferInstanceAs (Decidable (_ → _ ∧ _))
  | .flushing _ .write | .compacting _ _ .write => inferInstanceAs (Decidable (TableRoom _ _ _))
  | .flushing _ (.ready _) | .compacting _ _ (.ready _) | .dropping _ =>
    inferInstanceAs (Decidable (ManifestSnapshot.FitsFile _))
  | .waiting | .claimed true | .removingWal _ | .merging _ | .finished _ _ | .exited
  | .flushing _ .create | .flushing _ (.verify _) | .flushing _ (.rename _)
  | .flushing _ (.syncDir _) | .compacting _ _ .create | .compacting _ _ (.verify _)
  | .compacting _ _ (.rename _) | .compacting _ _ (.syncDir _) => .isTrue trivial

namespace System

variable [EntrySize] {o : Options} {s s' : System}

theorem maintenanceStep_of_move {m : Move} (h : s.move o m = some s') (hclose : ∀ t, m ≠ .close t)
    (hfits : s.worker.Fits o s.handle)
    (hapart : ∀ t inputCount, s.calls t = .compactReady inputCount →
      (∀ listed, m ≠ .call t listed) ∨
        s.worker.exposed = false ∧ s.handle.CompactionFits o (s.handle.selectTables inputCount)) :
    MaintenanceStep o s s' := by
  refine ⟨move_step h, fun t hidle hloop => ?_, fun _ => hfits,
    fun t inputCount status hready hreturned _ => ?_⟩
  · rcases move_calls (t := t) h with hsame | ⟨-, -, hnot⟩ | ⟨hm, -⟩ | ⟨_, -, hnot⟩
    · rw [hidle, hloop] at hsame
      cases hsame
    · exact hnot hloop
    · exact hclose t hm
    · exact hnot hidle
  · refine (hapart t inputCount hready).resolve_left fun hcall => ?_
    rcases move_calls (t := t) h with hsame | ⟨-, hidle, -⟩ | ⟨hm, -⟩ | ⟨listed, hm, -⟩
    · rw [hready, hreturned] at hsame
      cases hsame
    · rw [hready] at hidle
      cases hidle
    · exact hclose t hm
    · exact hcall listed hm

/-- Every move finds the worker within the limits, and none calls `Close` or runs an explicit
compaction. -/
def movesFit (o : Options) (s : System) : List Move → Bool
  | [] => true
  | m :: ms =>
    decide (s.worker.Fits o s.handle) &&
    (match m with
      | .close _ => false
      | .call t _ => match s.calls t with
        | .compactReady _ => false
        | _ => true
      | _ => true) &&
    match s.move o m with
    | none => false
    | some s => s.movesFit o ms

theorem maintenance_of_moves {ms : List Move} (hfit : s.movesFit o ms = true)
    (h : s.moves o ms = some s') : (maintenance o).Run s s' := by
  induction ms generalizing s with
  | nil =>
    obtain rfl := Option.some.inj h
    exact .refl
  | cons m ms ih =>
    obtain ⟨s₁, hmove, hrest⟩ := Option.bind_eq_some_iff.mp h
    simp only [movesFit, hmove, Bool.and_eq_true, decide_eq_true_eq] at hfit
    obtain ⟨⟨hfits, hm⟩, hfit⟩ := hfit
    refine .head (maintenanceStep_of_move hmove (fun t heq => ?_) hfits
      fun t inputCount hready => .inl fun listed heq => ?_) (ih hfit hrest)
    · rw [heq] at hm
      cases hm
    · rw [heq] at hm
      simp only [hready] at hm
      cases hm

end System

theorem CompactionJob.KeptBy.unique {job : CompactionJob} {snapshots : List ℕ}
    {es es' : List InternalEntry} (h : job.KeptBy snapshots es) (h' : job.KeptBy snapshots es') :
    es = es' :=
  h.1.ext h'.1 fun e => (h.2 e).trans (h'.2 e).symm

/-- The test of `CompactionFits` for a compaction that keeps something. -/
def Handle.compactionFits (o : Options) (h : Handle) (job : CompactionJob) : Bool :=
  match mergedEntries job.tables with
  | .error _ => false
  | .ok merged =>
    match (buildTable o.sstableBlockBytes o.sstableRestartInterval (h.retained job merged)).2 with
    | .error _ => false
    | .ok info =>
      let tableMeta : TableMeta := ⟨job.number, info.fileSize, info.smallestKey, info.largestKey,
        info.minSequence, info.maxSequence⟩
      decide (job.number ≠ 2 ^ 64 - 1 ∧ h.retained job merged ≠ [] ∧
        TableRoom o.sstableBlockBytes o.sstableRestartInterval (h.retained job merged) ∧
        ManifestSnapshot.FitsFile
          { h.manifest with
            liveTables := tableMeta :: h.manifest.liveTables.drop job.metas.length
            nextFileNumber := if h.manifest.nextFileNumber = job.number
              then h.manifest.nextFileNumber + 1 else h.manifest.nextFileNumber })

theorem Kept.compactionFits {o : Options} {d₀ : Directory} {readers : Set Table} {s : System}
    {inputCount : ℕ} (hk : Kept o d₀ readers s)
    (htest : s.handle.compactionFits o (s.handle.selectTables inputCount)) :
    s.handle.CompactionFits o (s.handle.selectTables inputCount) := by
  have hs := Compacts.selected hk.allocated hk.layered inputCount
  obtain ⟨merged, hmerged, hord, -, hmem⟩ := hs.retained hk.compacts.space hk.compacts.snapshots
  have hkept : (s.handle.selectTables inputCount).KeptBy s.handle.snapshots
    (s.handle.retained (s.handle.selectTables inputCount) merged) := ⟨hord, hmem⟩
  unfold Handle.compactionFits at htest
  rw [hmerged] at htest
  dsimp only at htest
  split at htest
  · cases htest
  rename_i info hbuild
  obtain ⟨hnumber, hne, hroom, hfits⟩ := of_decide_eq_true htest
  refine ⟨hnumber, fun hnil => absurd (hkept.unique hnil) hne, fun entries _ hentries => ?_,
    fun entries out hentries hb => ?_⟩
  · rw [← hkept.unique hentries]
    exact hroom
  · have hinfo := hb.built
    rw [← hkept.unique hentries, hbuild] at hinfo
    have hmeta : out.tableMeta = ⟨(s.handle.selectTables inputCount).number, info.fileSize,
        info.smallestKey, info.largestKey, info.minSequence, info.maxSequence⟩ := by
      rw [Output.tableMeta, hb.number_eq, ← Except.ok.inj hinfo]
    show ManifestSnapshot.FitsFile
      { s.handle.manifest with liveTables := out.tableMeta :: _, nextFileNumber := _ }
    rw [hmeta]
    exact hfits

/-- A put is flushed and its table compacted by a call of `Compact`; another put is flushed, and the
worker compacts both tables. -/
theorem maintenance_sets_no_error_compacted :
    let _ := entrySize80
    ∃ s : System, s.handle.manifest.liveTables.map TableMeta.fileNumber = [7] ∧
      s.calls 0 = .returned .okay ∧ s.handle.terminalError = none ∧
      s.handle.backgroundError = none ∧
      (∀ flush status, s.worker = .finished flush status → status.ok) ∧
      ∀ t status, s.calls t = .returned status → status.ok := by
  intro _
  let o : Options := { memtableBytes := 1, compactionTableTrigger := 2 }
  let behind : List Move := .write [WriterQueue.firstRequest] :: List.replicate 20 (.worker [])
  have htests : ((System.openThen o .empty ⟨false, []⟩ ⟨none, fun _ => false⟩ []).map fun s₀ =>
      s₀.movesFit o flushedThenCompact && ((s₀.moves o flushedThenCompact).map fun s₁ =>
        (decide (s₁.worker.Fits o s₁.handle ∧ s₁.calls 0 = .compactReady 1) &&
          !s₁.worker.exposed && s₁.handle.compactionFits o (s₁.handle.selectTables 1)) &&
        ((s₁.move o (.call 0 [.sst 2])).map fun s₂ => s₂.movesFit o behind &&
          ((s₂.moves o behind).map fun s =>
            decide (s.handle.manifest.liveTables.map TableMeta.fileNumber = [7] ∧
              s.calls 0 = .returned .okay)) == some true) == some true) == some true) =
      some true := by
    decide +kernel
  obtain ⟨s₀, hs₀, htests⟩ := Option.map_eq_some_iff.mp htests
  obtain ⟨hfit₁, htests⟩ := Bool.and_eq_true_iff.mp htests
  obtain ⟨s₁, hs₁, htests⟩ := Option.map_eq_some_iff.mp (eq_of_beq htests)
  obtain ⟨hready, htests⟩ := Bool.and_eq_true_iff.mp htests
  obtain ⟨hready, hcompaction⟩ := Bool.and_eq_true_iff.mp hready
  obtain ⟨hready, hexposed⟩ := Bool.and_eq_true_iff.mp hready
  obtain ⟨hfits, hcall⟩ := of_decide_eq_true hready
  obtain ⟨s₂, hs₂, htests⟩ := Option.map_eq_some_iff.mp (eq_of_beq htests)
  obtain ⟨hfit₃, htests⟩ := Bool.and_eq_true_iff.mp htests
  obtain ⟨s, hs, htests⟩ := Option.map_eq_some_iff.mp (eq_of_beq htests)
  obtain ⟨htables, hreturned⟩ := of_decide_eq_true htests
  obtain ⟨h₀, hopen, hstart⟩ := System.openThen_eq_some hs₀
  obtain rfl := Option.some.inj hstart
  have hrun : (System.system o true).Run (System.started h₀) s₁ := System.moves_run hs₁
  obtain ⟨readers, hk⟩ := Kept.of_run (.new rfl fun _ => rfl) hopen hrun
  have hcompacted : System.MaintenanceStep o s₁ s₂ := by
    refine System.maintenanceStep_of_move hs₂ (by simp) hfits fun t inputCount ht => ?_
    by_cases hthread : t = 0
    · subst hthread
      obtain rfl : 1 = inputCount := by simpa using hcall.symm.trans ht
      exact .inr ⟨by simpa using hexposed, hk.compactionFits hcompaction⟩
    · exact .inl fun listed heq => hthread (by cases heq; rfl)
  have hdone := maintenance_sets_no_error (o := o) ⟨by decide, by decide, by decide, by decide,
    by decide, by decide, by decide, by decide, by decide, by decide, by decide, by decide⟩
    (.new rfl fun _ => rfl) hopen ((((System.maintenance_of_moves hfit₁ hs₁).tail hcompacted).trans
      (System.maintenance_of_moves hfit₃ hs)))
  exact ⟨s, htables, hreturned, hdone⟩

/-! ## A compaction between the regions of another one -/

/-- A put is flushed and a thread is about to compact its table; another put is flushed, and the
worker selects both tables. -/
def selectedBehindCompact : List Move :=
  flushedThenCompact ++ .write [WriterQueue.firstRequest] :: List.replicate 12 (.worker [])

/-- The explicit compaction replaces table 2, and the one of the worker fails. -/
theorem compact_beside_worker_sets_error :
    let _ := entrySize80
    let o : Options := { memtableBytes := 1, compactionTableTrigger := 2 }
    ∃ (h : Handle) (s : System), Handle.open o .empty ⟨false, []⟩ ⟨none, fun _ => false⟩ = .ok h ∧
      (System.system o true).Run (System.started h) s ∧ s.handle.closing = false ∧
      s.handle.backgroundError = some (.corruption
        "background compaction: compaction input is no longer the oldest table prefix") := by
  intro _ o
  have htests : ((System.openThen o .empty ⟨false, []⟩ ⟨none, fun _ => false⟩
      (selectedBehindCompact ++ .call 0 [] :: List.replicate 8 (.worker []))).map fun s =>
        decide (s.handle.closing = false ∧ s.handle.backgroundError = some (.corruption
          "background compaction: compaction input is no longer the oldest table prefix"))) =
      some true := by
    decide +kernel
  obtain ⟨s, hs, htests⟩ := Option.map_eq_some_iff.mp htests
  obtain ⟨hclosing, herror⟩ := of_decide_eq_true htests
  obtain ⟨h₀, hopen, hmoves⟩ := System.openThen_eq_some hs
  exact ⟨h₀, s, hopen, System.moves_run hmoves, hclosing, herror⟩

end TinyLsm
