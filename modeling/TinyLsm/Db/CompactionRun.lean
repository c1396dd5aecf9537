import TinyLsm.Db.IteratorSeek
import TinyLsm.Db.SequenceSpace
import TinyLsm.Db.TableVersions

/-!
# Compactions in a run

Between its regions a compaction works on tables that it took with it, under a watermark that it
read once. Whatever happens meanwhile, its output answers every read that can still come as the
inputs do, and the tables it replaces are those it took.
-/

namespace TinyLsm

/-! ## Reads of layered versions -/

section
variable {old new : List InternalEntry} {key value : Bytes} {q : ℕ}

theorem VisibleValue.congr {es es' : List InternalEntry} (h : ∀ e, e ∈ es ↔ e ∈ es') :
    VisibleValue es key q value ↔ VisibleValue es' key q value := by
  simp only [VisibleValue, NewestUpTo.congr h]

/-- A read meets the upper layer first. -/
theorem visibleValue_append (hlt : ∀ a ∈ old, ∀ b ∈ new, a.sequence < b.sequence) :
    VisibleValue (old ++ new) key q value ↔ VisibleValue new key q value ∨
      (∀ b ∈ new, b.userKey = key → q < b.sequence) ∧ VisibleValue old key q value := by
  constructor
  · rintro ⟨e, ⟨hmem, hle, hmax⟩, rfl, htype, hvalue⟩
    rcases List.mem_append.mp hmem with he | he
    · refine .inr ⟨fun b hb hkey => ?_, e, ⟨he, hle, fun e' he' => hmax e' (by simp [he'])⟩, rfl,
        htype, hvalue⟩
      by_contra hq
      have hle' := hmax b (by simp [hb]) hkey (not_lt.mp hq)
      exact hle'.not_gt (hlt e he b hb)
    · exact .inl ⟨e, ⟨he, hle, fun e' he' => hmax e' (by simp [he'])⟩, rfl, htype, hvalue⟩
  · rintro (⟨e, ⟨hmem, hle, hmax⟩, rfl, htype, hvalue⟩ |
      ⟨hnone, e, ⟨hmem, hle, hmax⟩, rfl, htype, hvalue⟩)
    · refine ⟨e, ⟨by simp [hmem], hle, fun e' he' hkey hle' => ?_⟩, rfl, htype, hvalue⟩
      rcases List.mem_append.mp he' with he' | he'
      · exact (hlt e' he' e hmem).le
      · exact hmax e' he' hkey hle'
    · refine ⟨e, ⟨by simp [hmem], hle, fun e' he' hkey hle' => ?_⟩, rfl, htype, hvalue⟩
      rcases List.mem_append.mp he' with he' | he'
      · exact hmax e' he' hkey hle'
      · exact absurd hle' (hnone e' he' hkey).not_ge

/-- Below an upper layer, what answers alike may be exchanged. -/
theorem visibleValue_append_congr {old' : List InternalEntry}
    (hlt : ∀ a ∈ old, ∀ b ∈ new, a.sequence < b.sequence)
    (hlt' : ∀ a ∈ old', ∀ b ∈ new, a.sequence < b.sequence)
    (h : VisibleValue old key q value ↔ VisibleValue old' key q value) :
    VisibleValue (old ++ new) key q value ↔ VisibleValue (old' ++ new) key q value := by
  rw [visibleValue_append hlt, visibleValue_append hlt', h]

end

theorem Layered.prepareForWrite {o : Options} {h h' : Handle} {w : Worker}
    {fault : Option RotateFault} {status : Status} (hl : Layered o h w)
    (hr : h.prepareForWrite o fault = some (h', status)) : Layered o h' w :=
  Handle.prepareForWrite_keeps (Layered o · w) (fun hr => hl.rotate hr) hr hl

theorem Layered.flushed_le {o : Options} {h : Handle} {w : Worker} (hl : Layered o h w)
    {e : InternalEntry} (he : e ∈ h.tables.flatMap Table.entries) :
    e.sequence ≤ h.manifest.lastSequence := by
  obtain ⟨m, hm, hspan⟩ :=
    (Layered.tables_distinct hl.tables (Layered.ranges_pairwise hl.valid)).2 e he
  exact hspan.le_max.trans (hl.valid.tables m hm).max_le

/-- The next sequence is above every version. -/
theorem Layered.versions_lt {o : Options} {h : Handle} {w : Worker} (hl : Layered o h w)
    {e : InternalEntry} (he : e ∈ h.versions) : e.sequence < h.nextSequence := by
  rcases List.mem_append.mp he with he | he
  · exact (hl.flushed_le he).trans_lt hl.next
  · rw [Handle.memtables, List.flatMap_cons] at he
    rcases List.mem_append.mp he with he | he
    · exact (hl.active e he).2
    · obtain ⟨m, hm, he⟩ := List.mem_flatMap.mp he
      exact (hl.sealed m (by simpa using hm) e he).2.1

/-- The tables of increasing sequence ranges hold increasing sequences. -/
theorem Layered.tables_increase {metas : List TableMeta} {tables : List Table}
    (h : List.Forall₂ TableMeta.Describes metas tables)
    (hincreasing : metas.Pairwise fun a b => a.maxSequence < b.minSequence) :
    tables.Pairwise fun t t' => ∀ e ∈ t.entries, ∀ e' ∈ t'.entries, e.sequence < e'.sequence := by
  induction h with
  | nil => exact .nil
  | @cons m t metas tables hdescribes hrest ih =>
    obtain ⟨hless, hincreasing⟩ := List.pairwise_cons.mp hincreasing
    refine List.pairwise_cons.mpr ⟨fun t' ht' e he e' he' => ?_, ih hincreasing⟩
    obtain ⟨-, -, -, hspan⟩ := Layered.entries_of_describes hdescribes
    obtain ⟨m', hm', hspan'⟩ := (Layered.tables_distinct hrest hincreasing).2 e'
      (List.mem_flatMap_of_mem ht' he')
    exact ((hspan e he).le_max.trans_lt (hless m' hm')).trans_le hspan'.min_le

/-- The sequences at which a read can still come: those of the snapshots, and the latest on. -/
def Handle.reads (h : Handle) : Set ℕ := { q | q ∈ h.snapshots ∨ h.nextSequence ≤ q + 1 }

/-! ## What a compaction takes with it -/

namespace CompactionJob

/-- The versions of the inputs. -/
def inputs (job : CompactionJob) : List InternalEntry := job.tables.flatMap Table.entries

/-- The inputs are tables that were live, behind one another, with versions below `next`. -/
structure Selected (readers : Set Table) (next : ℕ) (job : CompactionJob) : Prop where
  number_pos : job.number ≠ 0
  live : ∀ t ∈ job.tables, t ∈ readers
  numbers : job.tables.map Table.number = job.metas.map TableMeta.fileNumber
  described : List.Forall₂ TableMeta.Describes job.metas job.tables
  increasing : job.metas.Pairwise fun a b => a.maxSequence < b.minSequence
  below : ∀ e ∈ job.inputs, e.sequence < next

/-- The kept entries are versions of the inputs and answer the reads as they do. -/
structure Keeps (reads : Set ℕ) (entries : List InternalEntry) (job : CompactionJob) : Prop where
  subset : ∀ e ∈ entries, e ∈ job.inputs
  ordered : Ordered entries
  visible : ∀ key value, ∀ q ∈ reads,
    VisibleValue job.inputs key q value ↔ VisibleValue entries key q value

variable {job : CompactionJob} {readers readers' : Set Table} {next next' : ℕ}
  {reads reads' : Set ℕ} {entries : List InternalEntry}

theorem Selected.mono (hs : job.Selected readers next) (hreaders : readers ⊆ readers')
    (hnext : next ≤ next') : job.Selected readers' next' :=
  ⟨hs.number_pos, fun t ht => hreaders (hs.live t ht), hs.numbers, hs.described, hs.increasing,
    fun e he => (hs.below e he).trans_le hnext⟩

theorem Keeps.mono (hk : job.Keeps reads entries) (hreads : reads' ⊆ reads) :
    job.Keeps reads' entries :=
  ⟨hk.subset, hk.ordered, fun key value q hq => hk.visible key value q (hreads hq)⟩

/-- The inputs hold different versions. -/
theorem Selected.holds (hs : job.Selected readers next) (hnext : next ≤ 2 ^ 64) :
    List.Forall₂ Table.Holds job.tables (job.tables.map Table.entries) ∧ Distinct job.inputs := by
  refine ⟨?_, (Layered.tables_distinct hs.described hs.increasing).1⟩
  rw [List.forall₂_map_right_iff]
  refine List.forall₂_same.mpr fun t ht => ?_
  obtain ⟨m, -, hm⟩ := TableFile.forall₂_exists hs.described.flip ht
  obtain ⟨bss, hvalid, hentries, -⟩ := Layered.entries_of_describes hm
  refine ⟨⟨bss, hvalid, hentries.symm⟩, fun e he => ?_⟩
  exact (hs.below e (List.mem_flatMap_of_mem ht he)).trans_le hnext

/-- The inputs can be read, and the loop keeps what the rules say. -/
theorem Selected.retained {h : Handle} (hs : job.Selected readers h.nextSequence)
    (hnext : h.nextSequence < 2 ^ 64) (hsnapshots : ∀ q ∈ h.snapshots, q < h.nextSequence) :
    ∃ merged, mergedEntries job.tables = .ok merged ∧ Ordered (h.retained job merged) ∧
      (∀ e ∈ h.retained job merged, e ∈ job.inputs) ∧
      ∀ e, e ∈ h.retained job merged ↔ Retained job.coversAll h.snapshots.min? job.inputs e := by
  obtain ⟨hholds, hdistinct⟩ := hs.holds hnext.le
  have hflatten : (job.tables.map Table.entries).flatten = job.inputs := rfl
  obtain ⟨merged, hmerged, hord, hperm⟩ := mergedEntries_eq hholds (hflatten ▸ hdistinct)
  rw [hflatten] at hperm
  have hsmall : ∀ q ∈ h.snapshots, q < noSnapshot := by
    intro q hq
    have hlt := hsnapshots q hq
    simp only [noSnapshot]
    omega
  have hsub := retainEntries_sublist job.coversAll (oldestSnapshot h.snapshots) none false merged
  exact ⟨merged, hmerged, List.Pairwise.sublist hsub hord,
    fun e he => hperm.mem_iff.mp (hsub.subset he), mem_retainEntries hord hperm hsmall job.coversAll⟩

/-- Behind the watermark of the registered snapshots, what the loop keeps answers every read that
can still come. -/
theorem Selected.keeps {h : Handle} (hs : job.Selected readers h.nextSequence)
    (hnext : h.nextSequence < 2 ^ 64) (hsnapshots : ∀ q ∈ h.snapshots, q < h.nextSequence) :
    ∃ merged, mergedEntries job.tables = .ok merged ∧
      job.Keeps h.reads (h.retained job merged) := by
  obtain ⟨merged, hmerged, hord, hsub, hmem⟩ := hs.retained hnext hsnapshots
  refine ⟨merged, hmerged, hsub, hord, fun key value q hq => ?_⟩
  refine visibleValue_retained hmem ?_
  cases hmin : h.snapshots.min? with
  | none =>
    intro e he
    have hlt := hs.below e he
    rcases hq with hq | hq
    · rw [List.min?_eq_none_iff.mp hmin] at hq
      cases hq
    · omega
  | some w =>
    show w ≤ q
    rcases hq with hq | hq
    · exact (List.min?_eq_some_iff.mp hmin).2 q hq
    · have hlt := hsnapshots w (List.min?_mem hmin)
      omega

/-- The tables at the front of the Manifest that have the numbers of the inputs are the inputs. -/
theorem Selected.tables_eq {o : Options} {d₀ : Directory} {h : Handle} {w : Worker}
    (hs : job.Selected readers next) (ha : Allocated o d₀ h w readers)
    (hnumbers : (h.manifest.liveTables.take job.metas.length).map TableMeta.fileNumber =
      job.metas.map TableMeta.fileNumber) : h.tables.take job.metas.length = job.tables := by
  rw [← hs.numbers, List.map_take, ← ha.numbers, ← List.map_take] at hnumbers
  have hlive : ∀ t ∈ h.tables.take job.metas.length, t ∈ readers := fun t ht =>
    ha.live t (List.mem_of_mem_take ht)
  refine List.ext_getElem? fun i => ?_
  have hi := congrArg (·[i]?) hnumbers
  simp only [List.getElem?_map] at hi
  cases ht : (h.tables.take job.metas.length)[i]? with
  | none =>
    rw [ht] at hi
    exact (Option.map_eq_none_iff.mp hi.symm).symm
  | some t =>
    rw [ht] at hi
    obtain ⟨t', ht', hnumber⟩ := Option.map_eq_some_iff.mp hi.symm
    rw [ht', ha.unique t (hlive t (List.mem_of_getElem? ht)) t'
      (hs.live t' (List.mem_of_getElem? ht')) hnumber.symm]

end CompactionJob

/-- What is known of the job of the worker. -/
def Worker.Compacts (readers : Set Table) (next : ℕ) (reads : Set ℕ) : Worker → Prop
  | merging job => job.Selected readers next
  | compacting job entries _ => job.Selected readers next ∧ job.Keeps reads entries
  | dropping job => job.Selected readers next ∧ job.Keeps reads []
  | _ => True

/-- The compactions of a handle, and the sequences that are left for them. -/
structure Compacts (readers : Set Table) (h : Handle) (w : Worker) : Prop where
  space : h.nextSequence < 2 ^ 64
  snapshots : ∀ q ∈ h.snapshots, q < h.nextSequence
  worker : w.Compacts readers h.nextSequence h.reads

namespace Compacts

variable {o : Options} {d₀ : Directory} {readers readers' : Set Table} {h h' : Handle}
  {w w' : Worker}

/-- The reads that can still come get fewer: a new snapshot reads at the latest sequence. -/
theorem reads_subset (hnext : h.nextSequence ≤ h'.nextSequence)
    (hsnapshots : ∀ q ∈ h'.snapshots, q ∈ h.reads) : h'.reads ⊆ h.reads := by
  rintro q (hq | hq)
  · exact hsnapshots q hq
  · exact .inr (by omega)

theorem mono (hc : Compacts readers h w) (hreaders : readers ⊆ readers')
    (hspace : h'.nextSequence < 2 ^ 64) (hnext : h.nextSequence ≤ h'.nextSequence)
    (hsnapshots : ∀ q ∈ h'.snapshots, q ∈ h.reads ∧ q < h'.nextSequence) :
    Compacts readers' h' w := by
  refine ⟨hspace, fun q hq => (hsnapshots q hq).2, ?_⟩
  have hreads := reads_subset hnext fun q hq => (hsnapshots q hq).1
  have hworker := hc.worker
  cases w with
  | merging job => exact hworker.mono hreaders hnext
  | compacting job entries phase => exact ⟨hworker.1.mono hreaders hnext, hworker.2.mono hreads⟩
  | dropping job => exact ⟨hworker.1.mono hreaders hnext, hworker.2.mono hreads⟩
  | _ => trivial

/-- The sequences and the snapshots stay. -/
theorem congr (hc : Compacts readers h w) (hreaders : readers ⊆ readers')
    (hnext : h'.nextSequence = h.nextSequence) (hsnapshots : h'.snapshots = h.snapshots) :
    Compacts readers' h' w :=
  hc.mono hreaders (hnext ▸ hc.space) hnext.ge fun q hq =>
    ⟨.inl (hsnapshots ▸ hq), hnext ▸ hc.snapshots q (hsnapshots ▸ hq)⟩

theorem grown (hc : Compacts readers h w) (hsame : h.SameReads h') :
    Compacts (Allocated.grown readers h') h' w :=
  hc.congr Set.subset_union_left hsame.1 hsame.2

/-- The worker stands outside a compaction. -/
theorem leave (hc : Compacts readers h w) (hsame : h.SameReads h')
    (hw : ∀ readers next reads, w'.Compacts readers next reads) :
    Compacts (Allocated.grown readers h') h' w' :=
  have hidle : Compacts readers h w' := ⟨hc.space, hc.snapshots, hw _ _ _⟩
  hidle.grown hsame

/-- The first region of a compaction selects live tables. -/
theorem selected (ha : Allocated o d₀ h w readers) (hl : Layered o h w) (inputCount : ℕ) :
    (h.selectTables inputCount).Selected readers h.nextSequence := by
  have hdescribed := List.forall₂_take inputCount hl.tables
  have hincreasing := List.Pairwise.sublist (List.take_sublist inputCount h.manifest.liveTables)
    (Layered.ranges_pairwise hl.valid)
  refine ⟨(Nat.zero_le _).trans_lt hl.valid.active_lt |>.ne', fun t ht =>
    ha.live t (List.mem_of_mem_take ht), ?_, hdescribed, hincreasing, fun e he => ?_⟩
  · show (h.tables.take inputCount).map Table.number =
      (h.manifest.liveTables.take inputCount).map TableMeta.fileNumber
    rw [List.map_take, ha.numbers, List.map_take]
  · obtain ⟨m, hm, hspan⟩ := (Layered.tables_distinct hdescribed hincreasing).2 e he
    have hmax := (hl.valid.tables m (List.mem_of_mem_take hm)).max_le
    exact (hspan.le_max.trans hmax).trans_lt hl.next

theorem step [EntrySize] {faultFree : Bool} {s s' : System} (hstep : System.Step o faultFree s s')
    (ha : Allocated o d₀ s.handle s.worker readers) (hl : Layered o s.handle s.worker)
    (hc : Compacts readers s.handle s.worker) :
    Compacts (Allocated.grown readers s'.handle) s'.handle s'.worker := by
  have hgrown : ∀ h, readers ⊆ Allocated.grown readers h := fun _ => Set.subset_union_left
  cases hstep with
  | write f _ happly =>
    obtain ⟨hnext, hspace, hsnapshots⟩ := Handle.applyWriteGroup_reads happly
    refine hc.mono (hgrown _) (hspace hc.space) hnext fun q hq => ?_
    rw [hsnapshots] at hq
    exact ⟨.inl hq, (hc.snapshots q hq).trans_le hnext⟩
  | getSnapshot =>
    refine hc.mono (hgrown _) hc.space le_rfl fun q hq => ?_
    have hpos := hl.next
    rcases List.mem_cons.mp hq with rfl | hq
    · exact ⟨.inr (by omega), by simp only; omega⟩
    · exact ⟨.inl hq, hc.snapshots q hq⟩
  | releaseSnapshot sequence =>
    refine hc.mono (hgrown _) hc.space le_rfl fun q hq => ?_
    have hq := List.mem_of_mem_erase hq
    exact ⟨.inl hq, hc.snapshots q hq⟩
  | workerExit => exact hc.leave ⟨rfl, rfl⟩ fun _ _ _ => trivial
  | workerClaim =>
    refine hc.leave (Handle.OnlyFlags.claim s.handle).sameReads fun _ _ _ => ?_
    simp only [Handle.claim]
    repeat' split
    all_goals trivial
  | flushBegin sweep _ _ hr =>
    refine hc.leave (Handle.beginFlush_cases hr).1.sameReads fun _ _ _ => ?_
    unfold System.continued
    split <;> trivial
  | @flushBuild job phase _ r fault _ hworker hphase hr =>
    refine hc.leave (Handle.OnlyFiles.buildStep (by simp) hphase hr).sameReads fun _ _ _ => ?_
    cases r <;> trivial
  | flushCommit fault _ _ hr =>
    refine hc.leave (Handle.sameReads_commitFlush hr) fun _ _ _ => ?_
    split <;> trivial
  | flushRemove fails =>
    exact hc.leave (Handle.OnlyFiles.bestEffortRemove _ _ _).sameReads fun _ _ _ => trivial
  | @compactBegin h r fault _ hworker hr =>
    have hsame := Handle.sameReads_beginCompaction hr
    rcases Handle.beginBackgroundCompaction_cases hr with
      ⟨-, status, rfl⟩ | ⟨status, -, rfl, -⟩ | ⟨-, rfl, -⟩
    · exact hc.leave hsame fun _ _ _ => trivial
    · exact hc.leave hsame fun _ _ _ => trivial
    · have hmerging : Compacts readers s.handle (.merging _) :=
        ⟨hc.space, hc.snapshots, selected ha hl o.compactionTableTrigger⟩
      exact hmerging.grown hsame
  | @compactMerge job fault _ hworker =>
    rw [hworker] at hc
    obtain ⟨merged, hmerged, hkeeps⟩ := hc.worker.keeps hc.space hc.snapshots
    refine grown ⟨hc.space, hc.snapshots, ?_⟩ ⟨rfl, rfl⟩
    rw [hmerged]
    dsimp only
    split
    · trivial
    · trivial
    · rename_i merged' hok
      obtain rfl := Except.ok.inj hok
      split
      · rename_i hnil
        exact ⟨hc.worker, hnil ▸ hkeeps⟩
      · exact ⟨hc.worker, hkeeps⟩
  | @compactBuild job entries phase _ r fault _ hworker hphase hr =>
    rw [hworker] at hc
    have hsame :=
      (Handle.OnlyFiles.buildStep Handle.compactionChecked_error hphase hr).sameReads
    cases r with
    | ok phase' => exact grown ⟨hc.space, hc.snapshots, hc.worker⟩ hsame
    | error status => exact hc.leave hsame fun _ _ _ => trivial
  | compactCommit fault fails _ _ hr =>
    exact hc.leave (Handle.sameReads_commitCompaction hr) fun _ _ _ => trivial
  | compactDrop fault fails _ _ hr =>
    exact hc.leave (Handle.sameReads_commitCompaction hr) fun _ _ _ => trivial
  | workerException => exact hc.leave ⟨rfl, rfl⟩ fun _ _ _ => trivial
  | workerAccount =>
    exact hc.leave (Handle.OnlyFlags.account _ _ _).sameReads fun _ _ _ => trivial
  | compactCall | compactResume | closeWake | next => exact hc.grown ⟨rfl, rfl⟩
  | compactRun f _ _ hr => exact hc.grown (Handle.sameReads_compactTablePrefix hr)
  | closeCall =>
    split
    · exact hc.grown ⟨rfl, rfl⟩
    · exact hc.grown ⟨rfl, rfl⟩
  | closeRound fault _ _ hr =>
    rcases Handle.closeRound_cases hr with hflags | ⟨h₁, status, hrotate, hflags⟩
    · exact hc.grown hflags.sameReads
    · exact hc.grown ((Handle.sameReads_rotate hrotate).trans hflags.sameReads)
  | closeSync fault _ _ hr =>
    rcases Handle.closeSyncWal_cases hr with hflags | hflags
    · exact hc.grown hflags.sameReads
    · exact hc.grown ((Handle.OnlyFiles.perform s.handle _).sameReads.trans hflags.sameReads)
  | closeJoined fault _ _ _ hr =>
    cases hr
    exact hc.grown ⟨rfl, rfl⟩

end Compacts

/-! ## Lifetimes -/

/-- What every state of a handle keeps. `readers` are the tables that were ever live. -/
structure Kept (o : Options) (d₀ : Directory) (readers : Set Table) (s : System) : Prop where
  allocated : Allocated o d₀ s.handle s.worker readers
  layered : Layered o s.handle s.worker
  compacts : Compacts readers s.handle s.worker

section
variable [EntrySize] {o : Options} {d₀ : Directory} {readers : Set Table} {faultFree : Bool}

theorem Kept.step {s s' : System} (hstep : System.Step o faultFree s s')
    (hk : Kept o d₀ readers s) : Kept o d₀ (Allocated.grown readers s'.handle) s' :=
  ⟨hk.allocated.step hstep, hk.layered.step hstep,
    hk.compacts.step hstep hk.allocated hk.layered⟩

theorem Kept.opened {listing : Listing} {sweep : SweepFaults} {h : Handle} (hd : d₀.Written)
    (hopen : Handle.open o d₀ listing sweep = .ok h) :
    ∃ readers, Kept o d₀ readers (System.started h) := by
  obtain ⟨d, hopened⟩ := Handle.open_opened hopen
  have hspace := (Handle.open_space hopen hd.lastSequence_lt).1
  exact ⟨_, Allocated.opened hopen hd.sound, Layered.opened hopen,
    hspace, by simp [System.started, hopened.snapshots], trivial⟩

theorem Kept.run {s s' : System} (hrun : (System.system o faultFree).Run s s')
    (hk : Kept o d₀ readers s) : ∃ readers', readers ⊆ readers' ∧ Kept o d₀ readers' s' :=
  hrun.keeps (P := fun s' => ∃ readers', readers ⊆ readers' ∧ Kept o d₀ readers' s')
    (fun _ _ hstep ⟨_, hle, hk⟩ => ⟨_, hle.trans Set.subset_union_left, hk.step hstep⟩)
    ⟨readers, subset_rfl, hk⟩

/-- Every state of every run on a directory that the program left. -/
theorem Kept.of_run {listing : Listing} {sweep : SweepFaults} {h : Handle} {s : System}
    (hd : d₀.Written) (hopen : Handle.open o d₀ listing sweep = .ok h)
    (hrun : (System.system o faultFree).Run (System.started h) s) :
    ∃ readers, Kept o d₀ readers s := by
  obtain ⟨readers, hk⟩ := Kept.opened hd hopen
  obtain ⟨readers', -, hk'⟩ := hk.run hrun
  exact ⟨readers', hk'⟩

end

end TinyLsm
