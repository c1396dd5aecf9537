import TinyLsm.Db.Compaction
import TinyLsm.Sstable.Version1

/-!
# Both table versions

A v1 table and a v2 table of the same entries, however each is cut into blocks, answer every read
alike, and a compaction makes the same of them.
-/

namespace TinyLsm

/-! ## Readers of the same entries -/

section
variable {r₁ r₂ : SSTableReader} {bss₁ bss₂ : List (List InternalEntry)}

/-- `Scan` depends only on the entries. -/
theorem SSTableReader.Valid.scan_eq_scan (h₁ : r₁.Valid bss₁) (h₂ : r₂.Valid bss₂)
    (hsame : bss₁.flatten = bss₂.flatten) (start limit : Bytes) :
    r₁.scan start limit = r₂.scan start limit := by
  by_cases hrange : limit = [] ∨ start ≤ limit
  · rw [h₁.scan hrange, h₂.scan hrange, hsame]
  · push Not at hrange
    simp only [SSTableReader.scan, SSTableReader.newIterator, if_pos hrange]

end

theorem Table.Holds.entries_eq {t : Table} {es : List InternalEntry} (h : t.Holds es) :
    t.entries = es := by
  obtain ⟨⟨bss, hvalid, rfl⟩, -⟩ := h
  rw [Table.entries, hvalid.scan (.inl rfl)]
  refine List.filter_eq_self.mpr fun e _ => ?_
  have hnil : [] ≤ e.userKey := not_lt.mp (List.not_lt_nil e.userKey)
  simp [MemTable.inRange, MemTable.belowEnd, hnil]

/-- Tables of the same entries merge into the same list. -/
theorem mergedEntries_congr {tables₁ tables₂ : List Table} {inputs : List (List InternalEntry)}
    (h₁ : List.Forall₂ Table.Holds tables₁ inputs) (h₂ : List.Forall₂ Table.Holds tables₂ inputs)
    (hdistinct : inputs.flatten.Pairwise fun a b =>
      ¬ (a.userKey = b.userKey ∧ a.sequence = b.sequence)) :
    ∃ merged, mergedEntries tables₁ = .ok merged ∧ mergedEntries tables₂ = .ok merged ∧
      ∀ e ∈ merged, e.sequence < 2 ^ 64 := by
  obtain ⟨merged₁, hmerged₁, hord₁, hperm₁⟩ := mergedEntries_eq h₁ hdistinct
  obtain ⟨merged₂, hmerged₂, hord₂, hperm₂⟩ := mergedEntries_eq h₂ hdistinct
  have hsame : merged₁ = merged₂ :=
    hord₁.ext hord₂ fun _ => (hperm₁.trans hperm₂.symm).mem_iff
  refine ⟨merged₁, hmerged₁, hsame ▸ hmerged₂, fun e he => ?_⟩
  obtain ⟨es, hes, he⟩ := List.mem_flatten.mp (hperm₁.mem_iff.mp he)
  obtain ⟨t, -, ht⟩ := TableFile.forall₂_exists h₁.flip hes
  exact ht.2 e he

/-! ## A full compaction -/

namespace Handle

/-- The checks of a compaction that returns `OK` for tables to compact. -/
theorem compactionStatus_of_ok {o : Options} {h h' : Handle} {f : CompactFaults}
    (hne : h.tables ≠ []) (hr : h.compactTablePrefix o h.tables.length f = (h', .okay)) :
    h.compactionStatus o h.tables.length false = none := by
  cases hstatus : h.compactionStatus o h.tables.length false with
  | none => rfl
  | some status =>
    unfold compactTablePrefix at hr
    rw [hstatus] at hr
    obtain ⟨-, rfl⟩ := Prod.mk.inj hr
    have hlength : h.tables.length ≠ 0 := by simpa using hne
    unfold compactionStatus at hstatus
    split at hstatus
    · rename_i hopen
      rw [Option.some.inj hstatus] at hopen
      cases hopen
    · rw [if_neg (by omega)] at hstatus
      split at hstatus
      · cases hstatus
      · simp at hstatus

/-- What a full compaction leaves: the retained entries. -/
theorem entries_of_compact {o : Options} {h h' : Handle} {f : CompactFaults}
    {merged : List InternalEntry} (hne : h.tables ≠ []) (hmerged : mergedEntries h.tables = .ok merged)
    (hsequence : ∀ e ∈ merged, e.sequence < 2 ^ 64)
    (hr : h.compactTablePrefix o h.tables.length f = (h', .okay)) :
    h'.tables.flatMap Table.entries =
      retainEntries true (oldestSnapshot h.snapshots) none false merged := by
  have hstatus := compactionStatus_of_ok hne hr
  have hall : (h.selectTables h.tables.length).tables = h.tables := List.take_length
  have hcovers : (h.selectTables h.tables.length).coversAll = true := by
    simp [selectTables, (compactionStatus_eq_none hstatus).2]
  obtain ⟨replacement, htables, hsome, hbuilt⟩ :=
    compactTablePrefix_ok hstatus (by rw [hall]; exact hmerged) hr
  rw [List.drop_length, List.append_nil] at htables
  rw [retained, hcovers] at hsome hbuilt
  rw [htables]
  cases replacement with
  | none => simpa using hsome
  | some out =>
    have hholds := (hbuilt out rfl).holds fun e he => hsequence e
      ((retainEntries_sublist _ _ _ _ _).subset he)
    simpa using hholds.entries_eq

end Handle

/-! ## Interchangeable tables -/

/-- The summaries agree in all but the file size. -/
def SSTableProperties.Agrees (p q : SSTableProperties) : Prop :=
  p.entryCount = q.entryCount ∧ p.smallestKey = q.smallestKey ∧ p.largestKey = q.largestKey ∧
    p.minSequence = q.minSequence ∧ p.maxSequence = q.maxSequence

/-- The v1 file of some blocks and the v2 file that the builder makes of their entries: both are
written and open, their validations agree, and so do all scans and all cached lookups. In a set of
tables without a common version either merges into the same entries, and a full compaction of the
set leaves the same entries. -/
theorem table_versions_are_interchangeable {bss : List (List InternalEntry)} {blockBytes ri : ℕ}
    (h₁ : V1TableFits bss) (h₂ : TableFits blockBytes ri bss.flatten) (number₁ number₂ : ℕ) :
    ∃ file spans info r₁ r₂, buildV1Table bss = .ok file ∧
      buildTable blockBytes ri bss.flatten = (spans, .ok info) ∧
      SSTableReader.open file number₁ = .ok r₁ ∧ r₁.version = kSstableVersionV1 ∧
      SSTableReader.open spans.flatten number₂ = .ok r₂ ∧ r₂.version = kSstableVersion ∧
      (∃ p₁ p₂, r₁.validateAndGetProperties = .ok p₁ ∧ r₂.validateAndGetProperties = .ok p₂ ∧
        p₁.Agrees p₂) ∧
      (∀ start limit, r₁.scan start limit = r₂.scan start limit) ∧
      (∀ key sequence, r₁.get true key sequence = r₂.get true key sequence) ∧
      ∀ (before after : List Table) (as bs : List (List InternalEntry)),
        List.Forall₂ Table.Holds before as → List.Forall₂ Table.Holds after bs →
        ((as ++ bss.flatten :: bs).flatten.Pairwise fun a b =>
          ¬ (a.userKey = b.userKey ∧ a.sequence = b.sequence)) →
        (∃ merged, mergedEntries (before ++ ⟨number₁, r₁⟩ :: after) = .ok merged ∧
          mergedEntries (before ++ ⟨number₂, r₂⟩ :: after) = .ok merged) ∧
        ∀ (o : Options) (h h' k k' : Handle) (f g : Handle.CompactFaults),
          h.tables = before ++ ⟨number₁, r₁⟩ :: after →
          k.tables = before ++ ⟨number₂, r₂⟩ :: after → h.snapshots = k.snapshots →
          h.compactTablePrefix o h.tables.length f = (h', .okay) →
          k.compactTablePrefix o k.tables.length g = (k', .okay) →
          h'.tables.flatMap Table.entries = k'.tables.flatMap Table.entries := by
  have hsequence : ∀ e ∈ bss.flatten, e.sequence < 2 ^ 64 := fun e he =>
    (h₁.storable e he).sequence_lt
  obtain ⟨spans, info, r₂, hbuild, hopen₂, hversion₂, hvalidate₂, hinfo, -, -⟩ :=
    table_round_trip h₂ number₂
  have hvalid₁ := h₁.valid number₁
  have hvalid₂ := buildTable_open_valid hsequence hbuild hopen₂
  have hflat : bss.flatten = (cutBlocks blockBytes [] bss.flatten).flatten := by
    rw [flatten_cutBlocks, List.nil_append]
  refine ⟨_, spans, info, _, r₂, h₁.buildV1Table_ok, hbuild, h₁.open_eq number₁, rfl, hopen₂,
    hversion₂, ⟨_, _, h₁.validate number₁, hvalidate₂, ?_⟩, hvalid₁.scan_eq_scan hvalid₂ hflat, ?_,
    fun before after as bs hbefore hafter hdistinct => ?_⟩
  · rw [hinfo]
    exact ⟨rfl, rfl, rfl, rfl, rfl⟩
  · intro key sequence
    rw [hvalid₁.get_cached_eq, hvalid₂.get_cached_eq, ← hflat]
  · have hholds₁ : Table.Holds ⟨number₁, v1Reader bss (V1TableFits.file bss) number₁⟩ bss.flatten :=
      ⟨⟨_, hvalid₁, rfl⟩, hsequence⟩
    have hholds₂ : Table.Holds ⟨number₂, r₂⟩ bss.flatten := ⟨⟨_, hvalid₂, hflat.symm⟩, hsequence⟩
    obtain ⟨merged, hmerged₁, hmerged₂, hmerged⟩ := mergedEntries_congr
      (List.rel_append hbefore (.cons hholds₁ hafter))
      (List.rel_append hbefore (.cons hholds₂ hafter)) hdistinct
    refine ⟨⟨merged, hmerged₁, hmerged₂⟩, ?_⟩
    intro o h h' k k' f g hh hk hsnapshots hr hr'
    rw [Handle.entries_of_compact (by simp [hh]) (by rw [hh]; exact hmerged₁) hmerged hr,
      Handle.entries_of_compact (by simp [hk]) (by rw [hk]; exact hmerged₂) hmerged hr', hsnapshots]

/-- Two versions of a key and a tombstone, in two v1 blocks and in v2 blocks of one key. -/
theorem table_versions_are_interchangeable_example :
    ∃ file spans info r₁ r₂,
      buildV1Table [roundTripEntries.take 2, roundTripEntries.drop 2] = .ok file ∧
      buildTable 1 1 roundTripEntries = (spans, .ok info) ∧ SSTableReader.open file 3 = .ok r₁ ∧
      SSTableReader.open spans.flatten 4 = .ok r₂ ∧ r₁.version ≠ r₂.version ∧
      r₁.scan [107] [108] = r₂.scan [107] [108] ∧ r₁.get true [107] 1 = r₂.get true [107] 1 ∧
      mergedEntries [⟨3, r₁⟩] = mergedEntries [⟨4, r₂⟩] := by
  have hfits : V1TableFits [roundTripEntries.take 2, roundTripEntries.drop 2] :=
    ⟨by decide, ⟨by decide, by decide, by decide⟩, by decide, by decide +kernel, by decide +kernel⟩
  have hfits₂ : TableFits 1 1 [roundTripEntries.take 2, roundTripEntries.drop 2].flatten :=
    ⟨by decide, by decide, by decide, by decide, by decide, by decide +kernel, by decide +kernel⟩
  obtain ⟨file, spans, info, r₁, r₂, hbuild₁, hbuild₂, hopen₁, hversion₁, hopen₂, hversion₂, -, hscan,
    hget, hcompact⟩ := table_versions_are_interchangeable hfits hfits₂ 3 4
  obtain ⟨⟨merged, hmerged₁, hmerged₂⟩, -⟩ := hcompact [] [] [] [] .nil .nil (by decide)
  exact ⟨file, spans, info, r₁, r₂, hbuild₁, hbuild₂, hopen₁, hopen₂,
    by rw [hversion₁, hversion₂]; decide, hscan _ _, hget _ _, hmerged₁.trans hmerged₂.symm⟩

end TinyLsm
