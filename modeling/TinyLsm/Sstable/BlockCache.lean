import TinyLsm.Library.Interaction
import TinyLsm.Library.LruCache
import TinyLsm.Sstable.TableIterator
import TinyLsm.Sstable.Validation

/-!
# Block cache

`BlockCache` of `sstable/block_cache.cpp`, and the reads of a table as programs that ask for blocks.
The cache knows a block by the number of its table and its offset. In a validated table of version 2
the offset determines the block: the first key stands uncompressed at its start.
-/

namespace TinyLsm

open InternalIterator

/-- `BlockCacheKey`. -/
structure BlockCacheKey where
  tableNumber : ℕ
  blockOffset : ℕ
deriving DecidableEq, Repr

/-- `BlockCache`. -/
abbrev BlockCache := LruCache BlockCacheKey (List InternalEntry)

namespace BlockCache

/-- `BlockCache::Lookup`. -/
def lookupBlock (c : BlockCache) (key : BlockCacheKey) : Option (List InternalEntry × BlockCache) :=
  if c.capacity = 0 then none else c.lookup key

/-- `BlockCache::Insert`. -/
def insertBlock (c : BlockCache) (key : BlockCacheKey) (block : List InternalEntry) (charge : ℕ) :
    BlockCache :=
  if c.capacity = 0 then c else c.insert key block charge

/-- `BlockCache::EraseTable`. -/
def eraseTable (c : BlockCache) (tableNumber : ℕ) : BlockCache :=
  if c.capacity = 0 then c else c.eraseWhere fun key => key.tableNumber = tableNumber

end BlockCache

/-! ## Blocks and offsets -/

/-- The key of the entry at the start of a v2 block. -/
def frontKey (bytes : Bytes) : Bytes := (bytes.drop 21).take ((getFixed32 bytes 4).getD 0)

theorem decodeV2Entry_front {bytes : Bytes} {entriesEnd next : ℕ} {e : InternalEntry}
    (hend : entriesEnd ≤ bytes.length) (h : decodeV2Entry bytes 0 entriesEnd [] = some (e, next))
    (rest : Bytes) : e.userKey = frontKey (bytes ++ rest) := by
  simp only [decodeV2Entry, Option.bind_eq_bind, Option.bind_eq_some_iff] at h
  obtain ⟨shared, -, unshared, hunshared, sequence, -, valueSize, -, h⟩ := h
  split at h
  · cases h
  rename_i hbounds
  obtain ⟨type, -, h⟩ := Option.bind_eq_some_iff.mp h
  split at h
  · cases h
  split at h
  · cases h
  obtain ⟨rfl, -⟩ := Prod.mk.inj (Option.some.inj h)
  have hread : getFixed32 (bytes ++ rest) 4 = some unshared := by
    have : ¬ bytes.length < 4 + 4 := fun hlt => by
      have hnone : getFixed32 bytes 4 = none := LittleEndian.readAt_eq_none_iff.mpr hlt
      rw [Nat.zero_add, hnone] at hunshared
      cases hunshared
    rw [getFixed32, LittleEndian.readAt_append_left (by omega)]
    exact hunshared
  simp only [not_or, not_lt] at hbounds
  rw [frontKey, hread, Option.getD_some, List.take_nil, List.nil_append, Nat.zero_add,
    List.drop_append_of_le_length (by omega), List.take_append_of_le_length]
  rw [List.length_drop]
  omega

theorem parseV2BlockLayout_entriesEnd_le {bytes : Bytes} {layout : V2BlockLayout}
    (h : parseV2BlockLayout bytes = .ok layout) :
    layout.entriesEnd ≤ bytes.length ∧ layout.entryCount ≠ 0 := by
  unfold parseV2BlockLayout at h
  simp only at h
  repeat' split at h
  all_goals try cases h
  simp only [not_or] at *
  exact ⟨by omega, by tauto⟩

theorem decodeV2Entries_extends {bytes : Bytes} {layout : V2BlockLayout} {remaining : ℕ} :
    ∀ {position restartIndex : ℕ} {previous : Bytes} {out out' : List InternalEntry} {p q : ℕ},
      decodeV2Entries bytes layout remaining position restartIndex previous out = .ok (out', p, q) →
      out <+: out' := by
  induction remaining with
  | zero =>
    intro _ _ _ out out' _ _ h
    obtain rfl : out = out' := congrArg Prod.fst (Except.ok.inj h)
    exact List.prefix_rfl
  | succ remaining ih =>
    intro position restartIndex previous out out' p q h
    simp only [decodeV2Entries] at h
    split at h
    · cases h
    · split at h
      · cases h
      · exact (List.prefix_append _ _).trans (ih h)

/-- The first key of a v2 block stands at its start. -/
theorem decodeDataBlock_front {bytes : Bytes} {es : List InternalEntry}
    (h : decodeDataBlock bytes kSstableVersion = .ok es) (rest : Bytes) :
    groupKey es = frontKey (bytes ++ rest) := by
  have hv1 : ¬ kSstableVersion = kSstableVersionV1 := by decide
  rw [decodeDataBlock, if_neg hv1, if_pos rfl, decodeDataBlockV2] at h
  split at h
  · cases h
  rename_i layout hlayout
  obtain ⟨hend, hcount⟩ := parseV2BlockLayout_entriesEnd_le hlayout
  obtain ⟨count, hcount⟩ := Nat.exists_eq_succ_of_ne_zero hcount
  split at h
  · cases h
  rename_i out position restartIndex hdecode
  split at h
  · cases h
  obtain rfl := Except.ok.inj h
  rw [hcount] at hdecode
  simp only [decodeV2Entries, ite_self] at hdecode
  split at hdecode
  · cases hdecode
  rename_i e next hentry
  split at hdecode
  · cases hdecode
  obtain ⟨tail, rfl⟩ := decodeV2Entries_extends hdecode
  exact decodeV2Entry_front hend hentry rest

namespace SSTableReader

variable {r : SSTableReader}

theorem readBlock_firstKey {m : BlockMeta} {es : List InternalEntry} (hv : r.version = kSstableVersion)
    (h : r.readBlock m = .ok es) : m.firstKey = frontKey (r.file.drop m.offset) := by
  rw [(readBlock_eq_ok h).2.2.1]
  obtain ⟨bytes, hbytes, hdecode⟩ := readBlock_decoded h
  rw [hv] at hdecode
  obtain ⟨rest, hrest⟩ : ∃ rest, bytes ++ rest = r.file.drop m.offset := by
    unfold readExactly at hbytes
    split at hbytes
    · exact ⟨_, by rw [← Except.ok.inj hbytes]; rfl⟩
    · split at hbytes
      · exact ⟨_, by rw [← Except.ok.inj hbytes]; exact List.take_append_drop _ _⟩
      · cases hbytes
  rw [← hrest]
  exact decodeDataBlock_front hdecode rest

/-- The offset of a block determines it. -/
theorem block_of_offset {p : SSTableProperties} (hv : r.version = kSstableVersion)
    (h : r.validateAndGetProperties = .ok p) {m m' : BlockMeta} (hm : m ∈ r.blocks)
    (hm' : m' ∈ r.blocks) (hoffset : m.offset = m'.offset) : m = m' := by
  obtain ⟨bss, hvalid, -, -, -⟩ := validate_sound h
  have hread : ∀ m ∈ r.blocks, ∃ bs, r.readBlock m = .ok bs := fun m hm => by
    obtain ⟨bs, -, hbs⟩ := TableFile.forall₂_exists hvalid.blocks hm
    exact ⟨bs, hbs.1⟩
  have hnodup : (r.blocks.map BlockMeta.firstKey).Nodup := by
    have hsep := TableFile.metas_separated (hvalid.blocks.imp fun _ _ hb => hb.2) hvalid.ordered
    refine List.pairwise_map.mpr (hsep.imp_of_mem fun {a b} ha _ hlt => ?_)
    obtain ⟨bs, hbs⟩ := hread a ha
    obtain ⟨hne, hord, hfirst, hlast, -⟩ := readBlock_eq_ok hbs
    obtain ⟨e, he, hkey⟩ := lastKeyOf_mem [] hne
    have hle : a.firstKey ≤ a.lastKey := by
      rw [hfirst, hlast, ← hkey]
      exact groupKey_le_of_mem hord he
    exact (hle.trans_lt hlt).ne
  obtain ⟨bs, hbs⟩ := hread m hm
  obtain ⟨bs', hbs'⟩ := hread m' hm'
  refine List.inj_on_of_nodup_map hnodup hm hm' ?_
  rw [readBlock_firstKey hv hbs, readBlock_firstKey hv hbs', hoffset]

end SSTableReader

/-! ## Reads that ask for blocks -/

/-- A program that asks for blocks of a table. -/
abbrev BlockReads (α : Type) := Interaction BlockMeta (Result (List InternalEntry)) α

/-- `SSTableReader::Get` with an enabled cache. -/
def SSTableReader.getReads (r : SSTableReader) (key : Bytes) (sequence : ℕ) :
    BlockReads (Result InternalEntry) :=
  match r.blocks.dropWhile (·.lastKey < key) with
  | [] => .done (.error (.notFound "key is absent"))
  | m :: _ =>
    if key < m.firstKey then .done (.error (.notFound "key is absent"))
    else
      .ask m fun
        | .error s => .done (.error s)
        | .ok entries => .done (searchDecoded key sequence entries)

namespace TableIterator

/-- `enterBlock`, asking for its block. -/
def enterBlockReads (it : TableIterator) (position : List InternalEntry → List InternalEntry) :
    BlockReads (Status × TableIterator) :=
  match it.blocks with
  | [] => .done (.okay, it.setEof)
  | m :: _ =>
    if ¬ MemTable.belowEnd it.limit m.firstKey then .done (.okay, it.setEof)
    else
      .ask m fun
        | .error s => .done (s, { it with status := s, valid := false, entries := [] })
        | .ok entries =>
          let it := updateValidity { it with entries := position entries }
          .done (it.status, it)

/-- `Iterator::Seek`. -/
def seekReads (it : TableIterator) (start : Bytes) : BlockReads (Status × TableIterator) :=
  enterBlockReads { it with blocks := it.source.blocks.dropWhile (·.lastKey < start) }
    (List.dropWhile (·.userKey < start))

/-- `Iterator::Next`. -/
def nextReads (it : TableIterator) : BlockReads (Status × TableIterator) :=
  if ¬ it.status.ok then .done (it.status, it)
  else if it.valid = false then .done (.okay, it)
  else
    match it.entries.tail with
    | e :: rest =>
      let it := updateValidity { it with entries := e :: rest }
      .done (it.status, it)
    | [] => enterBlockReads { it with blocks := it.blocks.tail } id

/-- The iterator points at blocks of its source. -/
def InSource (it : TableIterator) : Prop := ∀ m ∈ it.blocks, m ∈ it.source.blocks

end TableIterator

/-- `SSTableReader::NewIterator`. -/
def SSTableReader.newIteratorReads (r : SSTableReader) (start limit : Bytes) :
    BlockReads (Result TableIterator) :=
  if limit ≠ [] ∧ limit < start then
    .done (.error (.invalidArgument "iterator begin is greater than end"))
  else (TableIterator.seekReads ⟨r, limit, [], [], false, .okay⟩ start).map moved

/-- A call that reads a table. -/
inductive TableCall where
  | get (reader : SSTableReader) (key : Bytes) (sequence : ℕ)
  | newIterator (reader : SSTableReader) (start limit : Bytes)
  | seek (it : TableIterator) (target : Bytes)
  | next (it : TableIterator)

/-- What a call returns; an iterator comes back with its new position. -/
inductive TableAnswer where
  | entry (result : Result InternalEntry)
  | iterator (result : Result TableIterator)
  | moved (result : Status × TableIterator)

namespace TableCall

/-- The reader whose blocks are read. -/
def source : TableCall → SSTableReader
  | get reader _ _ | newIterator reader _ _ => reader
  | seek it _ | next it => it.source

/-- The iterator of the call stands in its table. -/
def InSource : TableCall → Prop
  | get _ _ _ | newIterator _ _ _ => True
  | seek it _ | next it => it.InSource

/-- The call with `ReadBlock` reading and decoding the file every time. -/
def direct : TableCall → TableAnswer
  | get reader key sequence => .entry (reader.get true key sequence)
  | newIterator reader start limit => .iterator (reader.newIterator start limit)
  | seek it target => .moved (it.seek target)
  | next it => .moved it.next

/-- The call, asking for its blocks. -/
def reads : TableCall → BlockReads TableAnswer
  | get reader key sequence => (reader.getReads key sequence).map .entry
  | newIterator reader start limit => (reader.newIteratorReads start limit).map .iterator
  | seek it target => (it.seekReads target).map .moved
  | next it => it.nextReads.map .moved

end TableCall

/-- Without a cache the programs are the reader's functions. -/
theorem SSTableReader.run_getReads (r : SSTableReader) (key : Bytes) (sequence : ℕ) :
    (r.getReads key sequence).run r.readBlock = r.get true key sequence := by
  unfold getReads get
  cases r.blocks.dropWhile (·.lastKey < key) with
  | nil => rfl
  | cons m ms =>
    by_cases hkey : key < m.firstKey
    · simp [hkey]
    · have hpath : ¬ (r.version = kSstableVersion ∧ true = false) := by simp
      simp only [hkey, hpath, if_false, Interaction.run_ask]
      cases r.readBlock m <;> rfl

theorem SSTableReader.asks_getReads (r : SSTableReader) (key : Bytes) (sequence : ℕ) :
    (r.getReads key sequence).Asks (· ∈ r.blocks) := by
  unfold getReads
  cases hdrop : r.blocks.dropWhile (·.lastKey < key) with
  | nil => trivial
  | cons m ms =>
    by_cases hkey : key < m.firstKey
    · simp [hkey, Interaction.Asks]
    · simp only [hkey, if_false]
      refine ⟨(List.dropWhile_sublist _).subset (hdrop ▸ List.mem_cons_self), fun a => ?_⟩
      cases a <;> trivial

namespace TableIterator

theorem run_enterBlockReads (it : TableIterator)
    (position : List InternalEntry → List InternalEntry) :
    (it.enterBlockReads position).run it.source.readBlock = it.enterBlock position := by
  unfold enterBlockReads enterBlock
  cases it.blocks with
  | nil => rfl
  | cons m ms =>
    by_cases hlimit : MemTable.belowEnd it.limit m.firstKey = true
    · simp only [hlimit, not_true, if_false, Interaction.run_ask]
      cases it.source.readBlock m <;> rfl
    · simp [hlimit]

theorem asks_enterBlockReads {it : TableIterator} (h : it.InSource)
    (position : List InternalEntry → List InternalEntry) :
    (it.enterBlockReads position).Asks (· ∈ it.source.blocks) := by
  unfold enterBlockReads
  cases hblocks : it.blocks with
  | nil => trivial
  | cons m ms =>
    by_cases hlimit : MemTable.belowEnd it.limit m.firstKey = true
    · simp only [hlimit, not_true, if_false]
      refine ⟨h m (hblocks ▸ List.mem_cons_self), fun a => ?_⟩
      cases a <;> trivial
    · simp [hlimit, Interaction.Asks]

theorem inSource_dropWhile (it : TableIterator) (start : Bytes) :
    InSource { it with blocks := it.source.blocks.dropWhile (·.lastKey < start) } :=
  fun _ hm => (List.dropWhile_sublist _).subset hm

theorem InSource.tail {it : TableIterator} (h : it.InSource) :
    InSource { it with blocks := it.blocks.tail } :=
  fun m hm => h m (List.mem_of_mem_tail hm)

theorem run_seekReads (it : TableIterator) (start : Bytes) :
    (it.seekReads start).run it.source.readBlock = it.seek start :=
  run_enterBlockReads { it with blocks := it.source.blocks.dropWhile (·.lastKey < start) } _

theorem asks_seekReads (it : TableIterator) (start : Bytes) :
    (it.seekReads start).Asks (· ∈ it.source.blocks) :=
  asks_enterBlockReads (inSource_dropWhile it start) _

theorem run_nextReads (it : TableIterator) : it.nextReads.run it.source.readBlock = it.next := by
  unfold nextReads next
  split
  · rfl
  split
  · rfl
  cases it.entries.tail with
  | cons e rest => rfl
  | nil => exact run_enterBlockReads { it with blocks := it.blocks.tail } id

theorem asks_nextReads {it : TableIterator} (h : it.InSource) :
    it.nextReads.Asks (· ∈ it.source.blocks) := by
  unfold nextReads
  split
  · trivial
  split
  · trivial
  cases it.entries.tail with
  | cons e rest => trivial
  | nil => exact asks_enterBlockReads h.tail id

end TableIterator

namespace TableCall

theorem run_reads (c : TableCall) : c.reads.run c.source.readBlock = c.direct := by
  cases c with
  | get reader key sequence =>
    simp only [reads, source, direct, Interaction.run_map, SSTableReader.run_getReads]
  | newIterator reader start limit =>
    simp only [reads, source, direct, Interaction.run_map, SSTableReader.newIteratorReads,
      SSTableReader.newIterator]
    split
    · rfl
    · rw [Interaction.run_map]
      exact congrArg (fun result => TableAnswer.iterator (moved result))
        (TableIterator.run_seekReads ⟨reader, limit, [], [], false, .okay⟩ start)
  | seek it target => simp only [reads, source, direct, Interaction.run_map, TableIterator.run_seekReads]
  | next it => simp only [reads, source, direct, Interaction.run_map, TableIterator.run_nextReads]

theorem asks_reads {c : TableCall} (h : c.InSource) : c.reads.Asks (· ∈ c.source.blocks) := by
  cases c with
  | get reader key sequence => exact Interaction.asks_map (reader.asks_getReads key sequence)
  | newIterator reader start limit =>
    refine Interaction.asks_map ?_
    unfold SSTableReader.newIteratorReads
    split
    · trivial
    · exact Interaction.asks_map
        (TableIterator.asks_seekReads ⟨reader, limit, [], [], false, .okay⟩ start)
  | seek it target => exact Interaction.asks_map (it.asks_seekReads target)
  | next it => exact Interaction.asks_map (TableIterator.asks_nextReads h)

end TableCall

end TinyLsm
