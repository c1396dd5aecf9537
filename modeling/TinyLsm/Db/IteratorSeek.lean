import Mathlib.Data.List.Flatten
import TinyLsm.Db.Layers
import TinyLsm.Db.Schedule

/-!
# Iterator Seek

A public iterator keeps the sources it was created from. Whatever it and the handle did since, a
seek walks the captured versions of the range from the target on.
-/

namespace TinyLsm

open InternalIterator

/-! ## The captured versions -/

/-- No two of the versions share key and sequence. -/
def Distinct (es : List InternalEntry) : Prop :=
  es.Pairwise fun a b => ¬ (a.userKey = b.userKey ∧ a.sequence = b.sequence)

/-- The versions in the tables and the MemTables. -/
def Handle.versions (h : Handle) : List InternalEntry :=
  h.tables.flatMap Table.entries ++ h.memtables.flatMap MemTable.contents

theorem Ordered.distinct {es : List InternalEntry} (h : Ordered es) : Distinct es := by
  refine List.Pairwise.imp (fun {a b} hab hsame => ?_) h
  have := hab.sequence_lt hsame.1
  omega

theorem Distinct.append {as bs : List InternalEntry} (ha : Distinct as) (hb : Distinct bs)
    (h : ∀ a ∈ as, ∀ b ∈ bs, a.sequence ≠ b.sequence) : Distinct (as ++ bs) :=
  List.pairwise_append.mpr ⟨ha, hb, fun a hmem b hmem' hsame => h a hmem b hmem' hsame.2⟩

theorem IsNewest.congr {as bs : List InternalEntry} {key : Bytes} {sequence : ℕ} {e : InternalEntry}
    (h : ∀ e, e.userKey = key → (e ∈ as ↔ e ∈ bs)) (hnew : IsNewest as key sequence e) :
    IsNewest bs key sequence e :=
  ⟨(h e hnew.key_eq).mp hnew.mem, hnew.key_eq, hnew.sequence_le, fun e' he' hkey =>
    hnew.newest e' ((h e' hkey).mpr he') hkey⟩

namespace Layered

theorem entries_of_describes {m : TableMeta} {t : Table} (h : m.Describes t) :
    ∃ bss, t.reader.Valid bss ∧ t.entries = bss.flatten ∧ ∀ e ∈ t.entries, m.Spans e := by
  obtain ⟨bss, hvalid, hspans⟩ := h
  have hall : t.entries = bss.flatten := by
    rw [Table.entries, hvalid.scan (.inl rfl)]
    refine List.filter_eq_self.mpr fun e _ => ?_
    have hnil : [] ≤ e.userKey := not_lt.mp (List.not_lt_nil e.userKey)
    simp [MemTable.inRange, MemTable.belowEnd, hnil]
  exact ⟨bss, hvalid, hall, hall ▸ hspans⟩

/-- The tables of increasing sequence ranges hold different versions. -/
theorem tables_distinct {metas : List TableMeta} {tables : List Table}
    (h : List.Forall₂ TableMeta.Describes metas tables)
    (hincreasing : metas.Pairwise fun a b => a.maxSequence < b.minSequence) :
    Distinct (tables.flatMap Table.entries) ∧
      ∀ e ∈ tables.flatMap Table.entries, ∃ m ∈ metas, m.Spans e := by
  induction h with
  | nil => exact ⟨.nil, by simp⟩
  | @cons m t metas tables hdescribes _ ih =>
    obtain ⟨hless, hrest⟩ := List.pairwise_cons.mp hincreasing
    obtain ⟨hdistinct, hspans⟩ := ih hrest
    obtain ⟨bss, hvalid, hentries, hspan⟩ := entries_of_describes hdescribes
    rw [List.flatMap_cons]
    refine ⟨Distinct.append ?_ hdistinct fun a ha b hb => ?_, fun e he => ?_⟩
    · rw [hentries]
      exact hvalid.ordered.flatten.distinct
    · obtain ⟨m', hm', hb'⟩ := hspans b hb
      have hle := (hspan a ha).le_max
      have hge := hb'.min_le
      have := hless m' hm'
      omega
    · rcases List.mem_append.mp he with he | he
      · exact ⟨m, List.mem_cons_self, hspan e he⟩
      · obtain ⟨m', hm', he'⟩ := hspans e he
        exact ⟨m', List.mem_cons_of_mem _ hm', he'⟩

/-- In a chain of nonempty ranges every earlier one lies below every later one. -/
theorem ranges_pairwise {s : ManifestSnapshot} (h : s.Valid) :
    s.liveTables.Pairwise fun a b => a.maxSequence < b.minSequence := by
  have hle : ∀ t ∈ s.liveTables, t.minSequence ≤ t.maxSequence := fun t ht =>
    (h.tables t ht).sequences_le
  have hchain := h.increasing
  revert hle hchain
  generalize s.liveTables = metas
  intro hle hchain
  induction metas with
  | nil => exact .nil
  | cons m metas ih =>
    have hrest := ih (fun t ht => hle t (List.mem_cons_of_mem _ ht)) hchain.tail
    refine List.pairwise_cons.mpr ⟨fun t ht => ?_, hrest⟩
    cases metas with
    | nil => cases ht
    | cons m' metas =>
      have hfirst : m.maxSequence < m'.minSequence := (List.isChain_cons_cons.mp hchain).1
      rcases List.mem_cons.mp ht with rfl | ht
      · exact hfirst
      · have := hle m' (by simp)
        have := (List.pairwise_cons.mp hrest).1 t ht
        omega

/-- No version lies in two layers. -/
theorem versions_distinct {o : Options} {h : Handle} {w : Worker} (hl : Layered o h w) :
    Distinct h.versions := by
  obtain ⟨htables, hspans⟩ := tables_distinct hl.tables (ranges_pairwise hl.valid)
  have hold : ∀ e ∈ h.tables.flatMap Table.entries, e.sequence ≤ h.manifest.lastSequence := by
    intro e he
    obtain ⟨m, hm, hspan⟩ := hspans e he
    exact hspan.le_max.trans (hl.valid.tables m hm).max_le
  have hactive := hl.memtable.ordered.distinct
  unfold Handle.versions Handle.memtables
  refine htables.append ?_ fun a ha b hb => ?_
  · cases himmutable : h.immutable with
    | none => simpa using hactive
    | some m =>
      simp only [Option.toList_some, List.flatMap_cons, List.flatMap_nil, List.append_nil]
      refine hactive.append (hl.immutable m himmutable).ordered.distinct fun a ha b hb => ?_
      exact ((hl.sealed m himmutable b hb).2.2 a ha).ne'
  · have hle := hold a ha
    rw [List.flatMap_cons] at hb
    rcases List.mem_append.mp hb with hb | hb
    · have := (hl.active b hb).1
      omega
    · obtain ⟨m, hm, hb⟩ := List.mem_flatMap.mp hb
      have := (hl.sealed m (by simpa using hm) b hb).1
      omega

end Layered

/-! ## Sources -/

namespace ReadSource

theorem wraps_table : Wraps table :=
  ⟨fun _ => rfl, fun _ _ => rfl, fun _ => rfl, fun _ => rfl, fun _ => rfl⟩

theorem wraps_memory : Wraps memory :=
  ⟨fun _ => rfl, fun _ _ => rfl, fun _ => rfl, fun _ => rfl, fun _ => rfl⟩

/-- The source reads the entries of a layer, from `start` on those of a MemTable. -/
inductive Reads (start limit : Bytes) : ReadSource → List InternalEntry → Prop
  | table {it : TableIterator} {r : SSTableReader} {bss : List (List InternalEntry)}
      (hvalid : r.Valid bss) (hover : it.Over r limit) : Reads start limit (.table it) bss.flatten
  | memory {it : VectorIterator} {es : List InternalEntry} (hord : Ordered es)
      (hentries : it.entries = es.filter fun e => MemTable.inRange start limit e.userKey)
      (hlimit : it.limit = limit) : Reads start limit (.memory it) es

theorem readBlock_of_valid {r : SSTableReader} {bss : List (List InternalEntry)} (h : r.Valid bss) :
    ∀ m ∈ r.blocks, ∃ bs, r.readBlock m = .ok bs := by
  intro m hm
  obtain ⟨bs, -, hbs, -⟩ := TableFile.forall₂_exists h.blocks hm
  exact ⟨bs, hbs⟩

variable {start limit target : Bytes} {src src' : ReadSource} {es : List InternalEntry}

theorem Reads.ordered (h : Reads start limit src es) : Ordered es := by
  cases h with
  | table hvalid => exact hvalid.ordered.flatten
  | memory hord => exact hord

/-- From any position, a seek reads the layer from the target on. -/
theorem Reads.seekYields (h : Reads start limit src es) (hstart : start ≤ target) :
    SeekYields src target (es.filter fun e => MemTable.inRange target limit e.userKey) := by
  cases h with
  | table hvalid hover =>
    have := TableIterator.seekYields hvalid _ hover.source_eq hover.status_eq target
    rw [hover.limit_eq] at this
    exact wraps_table.seekYields this
  | @memory it _ hord hentries hlimit =>
    have hcaptured : Ordered it.entries := hentries ▸ List.Pairwise.filter _ hord
    have := it.seekYields hcaptured target
    rw [hentries, hlimit, List.filter_filter] at this
    refine wraps_memory.seekYields ?_
    convert this using 1
    refine List.filter_congr fun e _ => ?_
    simp only [MemTable.inRange]
    by_cases hle : target ≤ e.userKey
    · simp [hle, hstart.trans hle]
    · simp [hle]

theorem Reads.moved_seek (h : Reads start limit src es)
    (hmoved : moved (InternalIterator.seek src target) = .ok src') : Reads start limit src' es := by
  obtain ⟨-, rfl, -⟩ := moved_eq_ok hmoved
  cases h with
  | table hvalid hover => exact .table hvalid (hover.seek (readBlock_of_valid hvalid) target)
  | memory hord hentries hlimit => exact .memory hord hentries hlimit

theorem Reads.moved_next (h : Reads start limit src es)
    (hmoved : moved (InternalIterator.next src) = .ok src') : Reads start limit src' es := by
  obtain ⟨-, rfl, -⟩ := moved_eq_ok hmoved
  cases h with
  | table hvalid hover => exact .table hvalid (hover.next (readBlock_of_valid hvalid))
  | @memory it _ hord hentries hlimit =>
    have hnext : it.next.entries = it.entries ∧ it.next.limit = it.limit := by
      unfold VectorIterator.next
      split <;> exact ⟨rfl, rfl⟩
    exact .memory hord (hnext.1.trans hentries) (hnext.2.trans hlimit)

end ReadSource

/-! ## The inputs of a new iterator -/

section
variable {start limit : Bytes} (hrange : limit = [] ∨ start ≤ limit)
include hrange

/-- The tables that are left out hold no version of the range. -/
theorem tableInputs_reads {metas : List TableMeta} {tables : List Table} {inputs : List ReadSource}
    (h : List.Forall₂ TableMeta.Describes metas tables)
    (hinputs : tableInputs start limit metas tables = .ok inputs) :
    ∃ fulls, List.Forall₂ (ReadSource.Reads start limit) inputs fulls ∧
      fulls.Sublist (tables.map Table.entries) ∧
      ∀ e ∈ tables.flatMap Table.entries, MemTable.inRange start limit e.userKey →
        e ∈ fulls.flatten := by
  induction h generalizing inputs with
  | nil =>
    cases hinputs
    exact ⟨[], .nil, .slnil, by simp⟩
  | @cons m t metas tables hdescribes _ ih =>
    obtain ⟨bss, hvalid, hentries, hspans⟩ := Layered.entries_of_describes hdescribes
    simp only [tableInputs] at hinputs
    split at hinputs
    · rename_i hout
      obtain ⟨fulls, hreads, hsub, hmem⟩ := ih hinputs
      refine ⟨fulls, hreads, hsub.cons _, fun e he hin => ?_⟩
      rw [List.flatMap_cons] at he
      rcases List.mem_append.mp he with he | he
      · simp only [MemTable.inRange, MemTable.belowEnd, Bool.and_eq_true, decide_eq_true_eq] at hin
        have hspan := hspans e he
        rcases hout with ⟨hne, hlt⟩ | hlt
        · exact absurd (hspan.smallest_le.trans_lt (hin.2.resolve_left hne)) hlt
        · exact absurd (hin.1.trans hspan.le_largest) (not_le.mpr hlt)
      · exact hmem e he hin
    · obtain ⟨it, hit, hsource, hlimit, hstatus, -⟩ := hvalid.newIterator hrange
      simp only [hit] at hinputs
      split at hinputs
      · cases hinputs
      rename_i inputs' hrest
      cases hinputs
      obtain ⟨fulls, hreads, hsub, hmem⟩ := ih hrest
      have hover : it.Over t.reader limit := by
        have hblank : TableIterator.Over ⟨t.reader, limit, [], [], false, .okay⟩ t.reader limit :=
          ⟨rfl, rfl, rfl, List.nil_subset _⟩
        have hseek := hblank.seek (ReadSource.readBlock_of_valid hvalid) start
        unfold SSTableReader.newIterator at hit
        split at hit
        · cases hit
        · obtain ⟨-, rfl, -⟩ := moved_eq_ok hit
          exact hseek
      refine ⟨bss.flatten :: fulls, .cons (.table hvalid hover) hreads, ?_, fun e he hin => ?_⟩
      · rw [List.map_cons, hentries]
        exact hsub.cons_cons _
      · rw [List.flatMap_cons, hentries] at he
        rw [List.flatten_cons]
        exact (List.mem_append.mp he).elim (List.mem_append_left _)
          fun he => List.mem_append_right _ (hmem e he hin)

omit hrange in
theorem memoryInputs_reads {memtables : List MemTable} {inputs : List ReadSource}
    (h : ∀ m ∈ memtables, m.Inv) (hinputs : memoryInputs start limit memtables = .ok inputs) :
    List.Forall₂ (ReadSource.Reads start limit) inputs (memtables.map MemTable.contents) := by
  induction memtables generalizing inputs with
  | nil =>
    cases hinputs
    exact .nil
  | cons m memtables ih =>
    simp only [memoryInputs] at hinputs
    split at hinputs
    · cases hinputs
    rename_i it hit
    split at hinputs
    · cases hinputs
    rename_i inputs' hrest
    cases hinputs
    refine .cons ?_ (ih (fun m hm => h m (List.mem_cons_of_mem _ hm)) hrest)
    have hinv := h m List.mem_cons_self
    unfold newVectorIterator at hit
    split at hit
    · cases hit
    cases hit
    exact .memory hinv.ordered (hinv.scan_eq start limit) rfl

end

/-! ## The iterator -/

namespace DbIterator

/-- `Next` until the iterator is invalid meets the pairs, and no call fails. -/
def Yields : DbIterator → List (Bytes × Bytes) → Prop
  | it, [] => it.entry? = none ∧ it.status.ok = true
  | it, p :: pairs => it.entry? = some p ∧ it.next.1.ok = true ∧ Yields it.next.2 pairs

theorem yields_of_entries {it : DbIterator} {es : List InternalEntry}
    (h : InternalIterator.Yields it.iterator es) :
    it.Yields (es.map fun e => (e.userKey, e.value)) := by
  induction es generalizing it with
  | nil =>
    have hentry : it.iterator.entry? = none := h.1
    exact ⟨by simp [ entry?, hentry], h.2⟩
  | cons e es ih =>
    obtain ⟨hentry, -, -, iterator, hmoved, hrest⟩ := h
    obtain ⟨hok, rfl, -⟩ := moved_eq_ok hmoved
    refine ⟨?_, hok, ih hrest⟩
    have hentry : it.iterator.entry? = some e := hentry
    simp [ entry?, hentry]

/-- The merge reads the layers, at any position. -/
def ReadsAll (start limit : Bytes) (fulls : List (List InternalEntry))
    (m : MergingIterator ReadSource) : Prop :=
  m.status.ok = true ∧ List.Forall₂ (ReadSource.Reads start limit) m.inputs fulls

/-- The iterator reads the layers from `start` on, as of the sequence. -/
structure Captures (it : DbIterator) (start limit : Bytes) (sequence : ℕ)
    (fulls : List (List InternalEntry)) : Prop where
  start_eq : it.start = start
  sequence_eq : it.iterator.sequence = sequence
  status_ok : it.iterator.status.ok = true
  input : ReadsAll start limit fulls it.iterator.input

section
variable {start limit : Bytes} {fulls : List (List InternalEntry)} {sequence : ℕ}

theorem ReadsAll.seek {m m' : MergingIterator ReadSource} {target : Bytes}
    (hmoved : moved (InternalIterator.seek m target) = .ok m') (h : ReadsAll start limit fulls m) :
    ReadsAll start limit fulls m' := by
  obtain ⟨hok, rfl, -⟩ := moved_eq_ok hmoved
  exact MergingIterator.seek_keeps (fun _ _ _ _ hmoved hreads => hreads.moved_seek hmoved) hok h.2

theorem ReadsAll.next {m m' : MergingIterator ReadSource}
    (hmoved : moved (InternalIterator.next m) = .ok m') (h : ReadsAll start limit fulls m) :
    ReadsAll start limit fulls m' := by
  obtain ⟨hok, rfl, -⟩ := moved_eq_ok hmoved
  exact MergingIterator.next_keeps (fun _ _ _ hmoved hreads => hreads.moved_next hmoved) hok h.2

theorem Captures.seek {it : DbIterator} (h : it.Captures start limit sequence fulls)
    {target : Bytes} (hok : (it.seek target).1.ok = true) :
    (it.seek target).2.Captures start limit sequence fulls := by
  obtain ⟨hstatus, hinput, hsequence, hsame⟩ := VisibilityIterator.seek_keeps
    (fun _ _ _ => ReadsAll.seek) (fun _ _ => ReadsAll.next) h.input hok
  exact ⟨h.start_eq, hsequence.trans h.sequence_eq, (congrArg Status.ok hsame).trans hstatus, hinput⟩

theorem Captures.next {it : DbIterator} (h : it.Captures start limit sequence fulls)
    (hok : it.next.1.ok = true) : it.next.2.Captures start limit sequence fulls := by
  obtain ⟨hstatus, hinput, hsequence, hsame⟩ := VisibilityIterator.next_keeps
    (fun _ _ => ReadsAll.next) h.input hok
  exact ⟨h.start_eq, hsequence.trans h.sequence_eq, (congrArg Status.ok hsame).trans hstatus, hinput⟩

/-- The seek of an iterator walks the layers from the target on. -/
theorem Captures.seek_yields {it : DbIterator} (h : it.Captures start limit sequence fulls)
    (hdistinct : Distinct fulls.flatten) (target : Bytes) :
    (it.seek target).1.ok = true ∧ ∃ es, Ordered es ∧
      (∀ e, e ∈ es ↔ e ∈ fulls.flatten ∧
        MemTable.inRange (if target < start then start else target) limit e.userKey = true) ∧
      InternalIterator.Yields (it.seek target).2.iterator (visibleFrom sequence none es) := by
  unfold DbIterator.seek
  rw [h.start_eq, ← h.sequence_eq]
  have hstart : start ≤ if target < start then start else target := by
    split
    · exact le_rfl
    · exact not_lt.mp ‹_›
  generalize (if target < start then start else target) = target' at hstart
  let inside : InternalEntry → Bool := fun e => MemTable.inRange target' limit e.userKey
  have hseek : List.Forall₂ (fun src es => SeekYields src target' es) it.iterator.input.inputs
      (fulls.map (List.filter inside)) := by
    rw [List.forall₂_map_right_iff]
    exact h.input.2.imp fun src es hreads => hreads.seekYields hstart
  have hord : ∀ rest ∈ fulls.map (List.filter inside), Ordered rest := by
    intro rest hrest
    obtain ⟨es, hes, rfl⟩ := List.mem_map.mp hrest
    obtain ⟨src, -, hreads⟩ := TableFile.forall₂_exists h.input.2.flip hes
    exact List.Pairwise.filter _ hreads.ordered
  have hflatten : (fulls.map (List.filter inside)).flatten = fulls.flatten.filter inside :=
    List.filter_flatten.symm
  obtain ⟨es, hes, hperm⟩ := exists_ordered_perm (List.Pairwise.filter inside hdistinct)
  obtain ⟨m, hmoved, hyields⟩ := MergingIterator.seek_yields h.input.1 hseek hord hes
    (by rw [hflatten]; exact hperm)
  obtain ⟨hok, hyields⟩ := VisibilityIterator.seek_yields h.status_ok ⟨m, hmoved, hyields⟩
  exact ⟨hok, es, hes, fun e => hperm.mem_iff.trans List.mem_filter, hyields⟩

end

end DbIterator

theorem newMergingIterator_readsAll {start limit : Bytes} {fulls : List (List InternalEntry)}
    {inputs : List ReadSource} {m : MergingIterator ReadSource}
    (h : List.Forall₂ (ReadSource.Reads start limit) inputs fulls)
    (hm : newMergingIterator inputs = .ok m) : DbIterator.ReadsAll start limit fulls m := by
  unfold newMergingIterator at hm
  simp only at hm
  split at hm
  · cases hm
  rename_i hok
  cases hm
  exact MergingIterator.seek_keeps (fun _ _ _ _ hmoved hreads => hreads.moved_seek hmoved)
    (by simpa using hok) h

theorem newVisibilityIterator_captures {start limit : Bytes} {fulls : List (List InternalEntry)}
    {m : MergingIterator ReadSource} {sequence : ℕ}
    {v : VisibilityIterator (MergingIterator ReadSource)}
    (h : DbIterator.ReadsAll start limit fulls m) (hv : newVisibilityIterator m sequence = .ok v) :
    DbIterator.Captures ⟨v, start⟩ start limit sequence fulls := by
  unfold newVisibilityIterator at hv
  simp only at hv
  split at hv
  · cases hv
  rename_i hok
  cases hv
  obtain ⟨hinput, hsequence, hstatus⟩ := VisibilityIterator.advanceToVisible_keeps
    (v := ⟨m, sequence, false, .okay⟩) (fun _ _ => DbIterator.ReadsAll.next) h (not_not.mp hok)
  exact ⟨rfl, hsequence, congrArg Status.ok hstatus, hinput⟩

/-- What `NewIterator` returns captures the layers of the handle that meet the range. -/
theorem Layered.newIterator {o : Options} {h : Handle} {w : Worker} (hl : Layered o h w)
    {start limit : Bytes} {snapshot : Option Snapshot} {it : DbIterator}
    (hnew : h.newIterator start limit snapshot = .ok it) :
    ∃ fulls, it.Captures start limit (h.readSequence snapshot) fulls ∧ Distinct fulls.flatten ∧
      ∀ e, MemTable.inRange start limit e.userKey = true →
        (e ∈ fulls.flatten ↔ e ∈ h.versions) := by
  unfold Handle.newIterator at hnew
  split at hnew
  · cases hnew
  split at hnew
  · cases hnew
  rename_i hbounds
  split at hnew
  · cases hnew
  split at hnew
  · cases hnew
  split at hnew
  · cases hnew
  rename_i disk hdisk
  split at hnew
  · cases hnew
  rename_i memory hmemory
  split at hnew
  · cases hnew
  rename_i merged hmerged
  split at hnew
  · cases hnew
  rename_i iterator hvisible
  cases hnew
  have hrange : limit = [] ∨ start ≤ limit := by
    by_contra hcontra
    push Not at hcontra
    exact hbounds hcontra
  obtain ⟨fulls, hreads, hsub, hmem⟩ := tableInputs_reads hrange hl.tables hdisk
  have hall := List.rel_append hreads (memoryInputs_reads hl.memtables_inv hmemory)
  have hlayers : (fulls ++ h.memtables.map MemTable.contents).flatten.Sublist h.versions := by
    rw [List.flatten_append, Handle.versions]
    rw [List.flatMap_def, List.flatMap_def]
    exact hsub.flatten.append (List.Sublist.refl _)
  refine ⟨_, newVisibilityIterator_captures (newMergingIterator_readsAll hall hmerged) hvisible,
    List.Pairwise.sublist hlayers hl.versions_distinct, fun e hin =>
      ⟨fun he => hlayers.subset he, fun he => ?_⟩⟩
  rw [List.flatten_append]
  rcases List.mem_append.mp he with he | he
  · exact List.mem_append_left _ (hmem e he hin)
  · exact List.mem_append_right _ (by rwa [← List.flatMap_def])

/-! ## Runs -/

section
variable [EntrySize] (o : Options) (faultFree : Bool)

/-- The threads of the handle move on, or a call on the iterator succeeds. -/
inductive IteratorStep : System × DbIterator → System × DbIterator → Prop
  | handle {s s' : System} {it : DbIterator} (hstep : System.Step o faultFree s s') :
      IteratorStep (s, it) (s', it)
  | seek {s : System} {it : DbIterator} (target : Bytes) (hok : (it.seek target).1.ok = true) :
      IteratorStep (s, it) (s, (it.seek target).2)
  | next {s : System} {it : DbIterator} (hok : it.next.1.ok = true) :
      IteratorStep (s, it) (s, it.next.2)

end

section
variable [EntrySize] {o : Options} {faultFree : Bool}

theorem IteratorStep.captures {start limit : Bytes} {sequence : ℕ}
    {fulls : List (List InternalEntry)} {a b : System × DbIterator}
    (hstep : IteratorStep o faultFree a b) (h : a.2.Captures start limit sequence fulls) :
    b.2.Captures start limit sequence fulls := by
  cases hstep with
  | handle => exact h
  | seek target hok => exact h.seek hok
  | next hok => exact h.next hok

theorem IteratorStep.run_captures {start limit : Bytes} {sequence : ℕ}
    {fulls : List (List InternalEntry)} {a b : System × DbIterator}
    (hrun : Relation.ReflTransGen (IteratorStep o faultFree) a b)
    (h : a.2.Captures start limit sequence fulls) : b.2.Captures start limit sequence fulls := by
  induction hrun with
  | refl => exact h
  | tail _ hstep ih => exact hstep.captures ih

/-- An iterator over `[start, limit)` of any state of a run, behind any successful calls on it and
any further steps of the handle: a seek succeeds, and `Next` then meets, in the order of the keys,
exactly the pairs from the target on whose newest captured version at the sequence of the iterator
is that value. -/
theorem iterator_seek_is_exact {s s' : System} {it it' : DbIterator} {start limit : Bytes}
    {snapshot : Option Snapshot} (hs : (System.system o faultFree).Reachable s)
    (hnew : s.handle.newIterator start limit snapshot = .ok it)
    (hrun : Relation.ReflTransGen (IteratorStep o faultFree) (s, it) (s', it')) (target : Bytes) :
    (it'.seek target).1.ok = true ∧ ∃ pairs, (it'.seek target).2.Yields pairs ∧
      pairs.Pairwise (fun p q => p.1 < q.1) ∧
      ∀ k v, (k, v) ∈ pairs ↔
        (start ≤ k ∧ target ≤ k) ∧ (limit = [] ∨ k < limit) ∧
          ∃ e, IsNewest s.handle.versions k (s.handle.readSequence snapshot) e ∧
            e.type = .value ∧ e.value = v := by
  obtain ⟨fulls, hcaptures, hdistinct, hversions⟩ := (Layered.of_reachable hs).newIterator hnew
  obtain ⟨hok, es, hord, hmem, hyields⟩ :=
    (IteratorStep.run_captures hrun hcaptures).seek_yields hdistinct target
  refine ⟨hok, _, DbIterator.yields_of_entries hyields, ?_, fun k v => ?_⟩
  · rw [List.pairwise_map]
    exact visible_keys_increase hord
  have hinside : ∀ k : Bytes,
      MemTable.inRange (if target < start then start else target) limit k = true ↔
        (start ≤ k ∧ target ≤ k) ∧ (limit = [] ∨ k < limit) := by
    intro k
    simp only [MemTable.inRange, MemTable.belowEnd, Bool.and_eq_true, decide_eq_true_eq]
    refine and_congr_left fun _ => ?_
    split
    · exact ⟨fun h => ⟨h, (‹target < start›.trans_le h).le⟩, fun h => h.1⟩
    · exact ⟨fun h => ⟨(not_lt.mp ‹_›).trans h, h⟩, fun h => h.2⟩
  -- in the range the merge holds the captured versions of a key
  have hsame : ∀ k, ((start ≤ k ∧ target ≤ k) ∧ (limit = [] ∨ k < limit)) →
      ∀ e : InternalEntry, e.userKey = k → (e ∈ es ↔ e ∈ s.handle.versions) := by
    rintro _ hk e rfl
    have hstart : MemTable.inRange start limit e.userKey = true := by
      simp only [MemTable.inRange, MemTable.belowEnd, Bool.and_eq_true, decide_eq_true_eq]
      exact ⟨hk.1.1, hk.2⟩
    rw [hmem, hinside, ← hversions e hstart]
    exact and_iff_left hk
  rw [List.mem_map]
  constructor
  · rintro ⟨e, he, heq⟩
    obtain ⟨rfl, rfl⟩ := Prod.mk.inj heq
    obtain ⟨hfind, htype⟩ := (mem_visible hord).mp he
    have hnewest := hord.findVersion_eq_some_iff.mp hfind
    have hk := (hinside _).mp ((hmem e).mp hnewest.mem).2
    exact ⟨hk.1, hk.2, e, hnewest.congr (hsame _ hk), htype, rfl⟩
  · rintro ⟨hlow, hhigh, e, hnewest, htype, rfl⟩
    have hes := hnewest.congr fun e he => (hsame k ⟨hlow, hhigh⟩ e he).symm
    obtain rfl := hnewest.key_eq
    exact ⟨e, (mem_visible hord).mpr ⟨hord.findVersion_eq_some_iff.mpr hes, htype⟩, rfl⟩


end

/-- A put that was flushed: an iterator that has met it goes back to it. -/
theorem iterator_seek_is_exact_reseek :
    let _ := entrySize80
    ∃ (s s' : System) (it it' : DbIterator) (e : InternalEntry),
      s.handle.tables.length = 1 ∧ s.handle.versions = [e] ∧
      s.handle.newIterator [1] [] none = .ok it ∧
      Relation.ReflTransGen (IteratorStep { memtableBytes := 1 } false) (s, it) (s', it') ∧
      it'.entry? = none ∧
      ∃ pairs, (it'.seek []).2.Yields pairs ∧ (e.userKey, e.value) ∈ pairs := by
  intro _
  let o : Options := { memtableBytes := 1 }
  let ms : List Move := .write [WriterQueue.firstRequest] :: List.replicate 8 (.worker [])
  let e : InternalEntry := ⟨[1], 1, .value, [2]⟩
  have htests : ((System.openThen o .empty ⟨false, []⟩ ⟨none, fun _ => false⟩ ms).map fun s =>
      (decide (s.handle.tables.length = 1 ∧ s.handle.versions = [e] ∧ s.handle.readSequence none = 1),
        (s.handle.newIterator [1] [] none).toOption.map fun it =>
          (it.next.1.ok, ( DbIterator.entry? it.next.2).isNone))) =
      some (true, some (true, true)) := by
    decide +kernel
  obtain ⟨s, hs, htests⟩ := Option.map_eq_some_iff.mp htests
  simp only [Prod.mk.injEq, decide_eq_true_eq] at htests
  obtain ⟨⟨hlength, hversions, hsequence⟩, hiterator⟩ := htests
  obtain ⟨it, hnew, hit⟩ := Option.map_eq_some_iff.mp hiterator
  obtain ⟨hnext, hend⟩ := Prod.mk.inj hit
  have hnew : s.handle.newIterator [1] [] none = .ok it := by
    cases hr : s.handle.newIterator [1] [] none with
    | error status =>
      rw [hr] at hnew
      cases hnew
    | ok it' =>
      rw [hr] at hnew
      rw [Option.some.inj hnew]
  obtain ⟨h₀, hopen, hmoves⟩ := System.openThen_eq_some hs
  have hreach : (System.system o false).Reachable s :=
    ⟨_, ⟨.empty, ⟨false, []⟩, ⟨none, fun _ => false⟩, h₀, by simp, hopen, rfl⟩,
      System.moves_run hmoves⟩
  have hrun : Relation.ReflTransGen (IteratorStep o false) (s, it) (s, it.next.2) :=
    .single (.next hnext)
  obtain ⟨-, pairs, hyields, -, hpairs⟩ := iterator_seek_is_exact hreach hnew hrun []
  refine ⟨s, s, it, it.next.2, e, hlength, hversions, hnew, hrun,
    Option.isNone_iff_eq_none.mp hend, pairs, hyields, ?_⟩
  refine (hpairs _ _).mpr ⟨by decide, .inl rfl, e, ?_, rfl, rfl⟩
  rw [hversions, hsequence]
  refine ⟨by simp, rfl, le_rfl, fun e' he' _ _ => ?_⟩
  rw [List.mem_singleton.mp he']

end TinyLsm
