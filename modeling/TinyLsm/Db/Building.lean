import TinyLsm.Db.Regions

/-!
# Output files

Which files an operation can write, and what the output file of a running build holds: whatever the
other threads do meanwhile, it is the table that was built, or the file is gone.
-/

namespace TinyLsm

/-! ## Footprints -/

/-- The files that an operation writes. -/
def DirOp.writes : DirOp → FileName → Prop
  | create name, other | append name _, other | sync name, other | truncate name _, other =>
    other = name
  | rename _ target, other => other = target
  | _, _ => False

namespace Directory

/-- A file outside `S` is unchanged or removed. -/
def Keeps (S : FileName → Prop) (d d' : Directory) : Prop :=
  ∀ name, ¬ S name → d'.files name = d.files name ∨ d'.files name = none

namespace Keeps

variable {S T : FileName → Prop} {d d' d'' : Directory}

theorem refl (S : FileName → Prop) (d : Directory) : Keeps S d d := fun _ _ => .inl rfl

theorem trans (h : Keeps S d d') (h' : Keeps S d' d'') : Keeps S d d'' := by
  intro name hname
  rcases h' name hname with heq | hnone
  · rw [heq]
    exact h name hname
  · exact .inr hnone

theorem mono (hST : ∀ name, S name → T name) (h : Keeps S d d') : Keeps T d d' :=
  fun name hname => h name fun hS => hname (hST name hS)

theorem apply (op : DirOp) (d : Directory) : Keeps op.writes d (op.apply d) := by
  intro name hname
  cases op with
  | create other => exact .inl (Function.update_of_ne hname _ _)
  | append other bytes => exact .inl (Function.update_of_ne hname _ _)
  | sync other => exact .inl (Function.update_of_ne hname _ _)
  | truncate other size => exact .inl (Function.update_of_ne hname _ _)
  | rename source target =>
    simp only [DirOp.apply]
    split
    · exact .inl rfl
    · by_cases hsource : name = source
      · exact .inr (by simp [hsource])
      · refine .inl ?_
        dsimp only
        rw [Function.update_of_ne hsource, Function.update_of_ne hname]
  | remove other =>
    by_cases hother : name = other
    · exact .inr (by simp [DirOp.apply, hother])
    · exact .inl (Function.update_of_ne hother _ _)
  | publish => exact .inl rfl
  | syncDir => exact .inl rfl

end Keeps

end Directory

/-- The names of WALs. -/
def FileName.IsWal (name : FileName) : Prop := ∃ number, name = .wal number

/-- The names of table `number` and of its temporary file. -/
def FileName.IsTable (number : ℕ) (name : FileName) : Prop :=
  name = .sst number ∨ name = .sstTmp number

namespace Handle

open Directory (Keeps)

variable {h h' : Handle} {o : Options}

theorem keeps_perform {S : FileName → Prop} (h : Handle) (op : DirOp)
    (hS : ∀ name, op.writes name → S name) : Keeps S h.dir (h.perform op).dir :=
  (Keeps.apply op h.dir).mono hS

theorem keeps_bestEffortRemove (S : FileName → Prop) (h : Handle) (name : FileName) (fails : Bool) :
    Keeps S h.dir (h.bestEffortRemove name fails).dir := by
  unfold Handle.bestEffortRemove
  split
  · split <;> exact .refl S h.dir
  · exact keeps_perform h (.remove name) fun _ hw => hw.elim

theorem keeps_removeAll (S : FileName → Prop) (names : List FileName) (fails : FileName → Bool)
    (h : Handle) : Keeps S h.dir (h.removeAll names fails).dir := by
  unfold Handle.removeAll
  induction names generalizing h with
  | nil => exact .refl S h.dir
  | cons name names ih => exact (keeps_bestEffortRemove S h name (fails name)).trans (ih _)

theorem keeps_cleanupObsoleteFiles (S : FileName → Prop) (h : Handle)
    (listed : Option (List FileName)) (fails : FileName → Bool) :
    Keeps S h.dir (h.cleanupObsoleteFiles listed fails).dir := by
  have hpending : Keeps S h.dir
      ({ h with pendingCleanup := [] }.removeAll h.pendingCleanup fails).dir :=
    keeps_removeAll S h.pendingCleanup fails { h with pendingCleanup := [] }
  cases listed with
  | none => exact hpending
  | some names => exact hpending.trans (keeps_removeAll S _ _ _)

theorem keeps_publish (S : FileName → Prop) (h : Handle) (next : ManifestSnapshot) :
    Keeps S h.dir (h.perform (.publish next)).dir :=
  keeps_perform h (.publish next) fun _ hw => hw.elim

theorem keeps_withManifest (S : FileName → Prop) (h : Handle) (next : ManifestSnapshot) :
    Keeps S h.dir (h.withManifest next).dir :=
  (keeps_publish S h next).trans (keeps_perform _ .syncDir fun _ hw => hw.elim)

theorem keeps_withWal (h : Handle) : Keeps FileName.IsWal h.dir h.withWal.dir :=
  (keeps_perform h _ fun _ hw => ⟨_, hw⟩).trans (keeps_perform _ _ fun _ hw => ⟨_, hw⟩)

theorem WalPrepared.keeps (hw : WalPrepared h h') : Keeps FileName.IsWal h.dir h'.dir := by
  cases hw with
  | start => exact .refl _ _
  | created => exact keeps_perform h _ fun _ hw => ⟨_, hw⟩
  | synced => exact h.keeps_withWal

theorem keeps_rotate {fault : Option RotateFault} {status : Status}
    (hr : h.rotateMemTable fault = (h', status)) : Keeps FileName.IsWal h.dir h'.dir := by
  rcases rotateMemTable_cases hr with ⟨hwal, -⟩ | ⟨rfl, -⟩ | ⟨rfl, -⟩
  · exact hwal.keeps
  · exact h.keeps_withWal.trans (keeps_publish _ _ _)
  · exact h.keeps_withWal.trans (keeps_withManifest _ _ _)

theorem keeps_applyWriteGroup [EntrySize] {group : List WriterRequest} {f : WriteFaults}
    {status : Status} (hr : h.applyWriteGroup o group f = some (h', status)) :
    Keeps FileName.IsWal h.dir h'.dir := by
  refine applyWriteGroup_keeps (fun h₁ => Keeps FileName.IsWal h.dir h₁.dir) ?_
    (fun _ _ _ _ hk => hk)
    (fun _ _ _ _ hrotate hk => hk.trans (keeps_rotate hrotate)) hr (.refl _ _)
  rintro h₁ op (rfl | ⟨bytes, rfl⟩) hk
  · exact hk.trans (keeps_perform h₁ _ fun _ hw => ⟨_, hw⟩)
  · exact hk.trans (keeps_perform h₁ _ fun _ hw => ⟨_, hw⟩)

theorem keeps_commitFlush {job : FlushJob} {out : Output} {fault : Option PublishFault}
    {status : Status} (S : FileName → Prop) (hr : h.commitFlush o job out fault = (h', status)) :
    Keeps S h.dir h'.dir := by
  rcases commitFlush_cases hr with ⟨rfl, -⟩ | ⟨rfl, -⟩ | ⟨rfl, -⟩
  · exact .refl S _
  · exact keeps_publish S h _
  · exact keeps_withManifest S h _

theorem keeps_beginBackgroundCompaction {fault : Option PublishFault}
    {r : Except Status CompactionJob} (S : FileName → Prop)
    (hr : h.beginBackgroundCompaction o fault = (h', r)) : Keeps S h.dir h'.dir := by
  rcases beginBackgroundCompaction_cases hr with ⟨rfl, -⟩ | ⟨status, rfl, -⟩ | ⟨rfl, -⟩
  · exact .refl S _
  · exact keeps_publish S h _
  · exact keeps_withManifest S h _

theorem keeps_commitCompaction {job : CompactionJob} {replacement : Option Output}
    {fault : Option PublishFault} {fails : FileName → Bool} {status : Status} (S : FileName → Prop)
    (hr : h.commitCompaction job replacement fault fails = (h', status)) :
    Keeps S h.dir h'.dir := by
  rcases commitCompaction_cases hr with ⟨rfl, -⟩ | ⟨rfl, -⟩ | ⟨rfl, -⟩
  · exact .refl S _
  · exact keeps_publish S h _
  · exact (keeps_withManifest S h (compactedManifest h.manifest job replacement)).trans
      (keeps_removeAll S _ _ _)

theorem BuildsTo.keeps {checked : Output → Option Status} {number : ℕ}
    {entries : List InternalEntry} {phase phase' : BuildPhase}
    (hb : BuildsTo o checked number entries h phase h' phase') :
    Keeps (FileName.IsTable number) h.dir h'.dir := by
  cases hb with
  | create => exact keeps_perform h _ fun _ hw => .inr hw
  | write =>
    exact (keeps_perform h _ fun _ hw => .inr hw).trans
      (keeps_perform _ _ fun _ hw => .inr hw)
  | verify => exact .refl _ _
  | rename => exact keeps_perform h _ fun _ hw => .inl hw
  | syncDir => exact keeps_perform h _ fun _ hw => hw.elim

theorem keeps_buildOutput {number : ℕ} {entries : List InternalEntry} {f : CompactFaults}
    {r : Except Status Output} (hr : h.buildOutput o number entries f = (h', r)) :
    Keeps (FileName.IsTable number) h.dir h'.dir := by
  have hrule := buildOutput_rule (fun _ h₁ => Keeps (FileName.IsTable number) h.dir h₁.dir)
    (fun h₁ => Keeps (FileName.IsTable number) h.dir h₁.dir) (fun _ _ _ _ hb hk => hk.trans hb.keeps)
    (fun _ _ hk => hk) (fun _ hk => hk.trans (keeps_perform _ _ fun _ hw => .inr hw)) hr
    (.refl _ _)
  cases r with
  | ok out => exact hrule
  | error status => exact hrule.2

/-- An explicit compaction writes the table of the next number only. -/
theorem keeps_compactTablePrefix {inputCount : ℕ} {f : CompactFaults} {status : Status}
    (hr : h.compactTablePrefix o inputCount f = (h', status)) :
    Keeps (FileName.IsTable h.manifest.nextFileNumber) h.dir h'.dir := by
  rcases compactTablePrefix_cases hr with
    ⟨rfl, -⟩ | ⟨-, h₁, rfl, rfl | ⟨_, -, -, hc⟩ | ⟨_, h₂, r, -, -, hbuild, hend⟩⟩
  · exact .refl _ _
  · exact keeps_cleanupObsoleteFiles _ _ _ _
  · exact (keeps_cleanupObsoleteFiles _ _ _ _).trans (keeps_commitCompaction _ hc)
  · obtain ⟨d, t, p, hsweep⟩ := OnlyFiles.cleanupObsoleteFiles h f.sweep.listed f.sweep.fails
    have hnumber : (h.cleanupObsoleteFiles f.sweep.listed f.sweep.fails).manifest.nextFileNumber =
        h.manifest.nextFileNumber := by rw [hsweep]
    have hk := keeps_buildOutput hbuild
    rw [hnumber] at hk
    have hk₂ := (keeps_cleanupObsoleteFiles _ h f.sweep.listed f.sweep.fails).trans hk
    rcases hend with ⟨-, rfl⟩ | ⟨out, -, hc⟩
    · exact hk₂
    · exact hk₂.trans (keeps_commitCompaction _ hc)

end Handle

/-! ## The output of a build -/

/-- The output is the table that the builder wrote for the entries. -/
structure Output.Built (o : Options) (number : ℕ) (entries : List InternalEntry) (out : Output) :
    Prop where
  number_eq : out.table.number = number
  built : (buildTable o.sstableBlockBytes o.sstableRestartInterval entries).2 = .ok out.info
  opened : SSTableReader.open (Handle.tableBytes o entries) number = .ok out.table.reader
  validated : out.table.reader.validateAndGetProperties = .ok out.properties

/-- The file is gone, or holds the bytes and is synced. -/
def Directory.HoldsOrGone (d : Directory) (name : FileName) (bytes : Bytes) : Prop :=
  d.files name = none ∨ d.files name = some ⟨bytes, bytes.length⟩

theorem Directory.HoldsOrGone.keeps {d d' : Directory} {name : FileName} {bytes : Bytes}
    {S : FileName → Prop} (h : d.HoldsOrGone name bytes) (hk : d.Keeps S d') (hname : ¬ S name) :
    d'.HoldsOrGone name bytes := by
  rcases hk name hname with heq | hnone
  · unfold HoldsOrGone
    rw [heq]
    exact h
  · exact .inl hnone

/-- What is known of the output file before a phase. -/
def BuildPhase.Holds (o : Options) (number : ℕ) (entries : List InternalEntry) (d : Directory) :
    BuildPhase → Prop
  | create => True
  | write => d.HoldsOrGone (.sstTmp number) []
  | verify info => (buildTable o.sstableBlockBytes o.sstableRestartInterval entries).2 = .ok info ∧
      d.HoldsOrGone (.sstTmp number) (Handle.tableBytes o entries)
  | rename out => out.Built o number entries ∧
      d.HoldsOrGone (.sstTmp number) (Handle.tableBytes o entries)
  | syncDir out | ready out => out.Built o number entries ∧
      d.HoldsOrGone (.sst number) (Handle.tableBytes o entries)

namespace BuildPhase

variable {o : Options} {number : ℕ} {entries : List InternalEntry} {d d' : Directory}
  {phase phase' : BuildPhase}

/-- What others do leaves the output or removes it. -/
theorem Holds.keeps {S : FileName → Prop} (hk : d.Keeps S d') (htmp : ¬ S (.sstTmp number))
    (hsst : ¬ S (.sst number)) (hp : phase.Holds o number entries d) :
    phase.Holds o number entries d' := by
  cases phase with
  | create => trivial
  | write => exact Directory.HoldsOrGone.keeps hp hk htmp
  | verify info => exact ⟨hp.1, hp.2.keeps hk htmp⟩
  | rename out => exact ⟨hp.1, hp.2.keeps hk htmp⟩
  | syncDir out => exact ⟨hp.1, hp.2.keeps hk hsst⟩
  | ready out => exact ⟨hp.1, hp.2.keeps hk hsst⟩

theorem Holds.step {checked : Output → Option Status} {h h' : Handle}
    (hb : Handle.BuildsTo o checked number entries h phase h' phase')
    (hp : phase.Holds o number entries h.dir) : phase'.Holds o number entries h'.dir := by
  cases hb with
  | create => exact .inr (by simp [DirOp.apply])
  | write hbuild =>
    refine ⟨hbuild, ?_⟩
    rcases hp with hnone | hempty
    · exact .inl (by simp [DirOp.apply, hnone])
    · exact .inr (by simp [DirOp.apply, hempty])
  | @verify info file reader properties hfile hopen hvalidate _ =>
    obtain ⟨hbuild, hnone | hholds⟩ := hp
    · rw [hnone] at hfile
      cases hfile
    · rw [hholds] at hfile
      cases hfile
      exact ⟨⟨rfl, hbuild, hopen, hvalidate⟩, .inr hholds⟩
  | @rename out file hfile =>
    obtain ⟨hbuilt, hnone | hholds⟩ := hp
    · rw [hnone] at hfile
      cases hfile
    · exact ⟨hbuilt, .inr (by simp [DirOp.apply, hholds])⟩
  | syncDir => exact hp

end BuildPhase

/-- What is known of the output file of the worker. -/
def Worker.Builds (o : Options) (d : Directory) : Worker → Prop
  | flushing job phase => phase.Holds o job.tableNumber job.entries d
  | compacting job entries phase => phase.Holds o job.number entries d
  | _ => True

end TinyLsm
