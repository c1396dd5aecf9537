import TinyLsm.Iterator.InternalIterator
import TinyLsm.Memtable.Batches
import TinyLsm.Sstable.RoundTrip

/-!
# What a MemTable holds

Whatever calls led to a `MemTable`, it holds the versions that were applied since it was cleared:
lookups, scans and its iterator read these, in the order that a flush and a captured slice need.
-/

namespace TinyLsm

open InternalIterator

/-! ## The iterator -/

/-- `MemTable::Iterator`: `current` is the map from `current_` on. -/
structure MemTableIterator where
  source : MemTable
  current : List (Bytes × List InternalEntry)
  versionIndex : ℕ
  limit : Bytes

namespace MemTableIterator

/-- `Seek`; `lower_bound` in the map. -/
def seek (it : MemTableIterator) (target : Bytes) : MemTableIterator :=
  { it with current := it.source.entries.dropWhile (·.1 < target), versionIndex := 0 }

/-- `Valid` and `entry`. -/
def entry? (it : MemTableIterator) : Option InternalEntry :=
  match it.current with
  | [] => none
  | (key, versions) :: _ =>
    if MemTable.belowEnd it.limit key then versions[it.versionIndex]? else none

/-- `Next`. -/
def next (it : MemTableIterator) : MemTableIterator :=
  match it.current with
  | [] => it
  | (key, versions) :: rest =>
    if MemTable.belowEnd it.limit key then
      if it.versionIndex + 1 = versions.length then { it with current := rest, versionIndex := 0 }
      else { it with versionIndex := it.versionIndex + 1 }
    else it

instance : InternalIterator MemTableIterator where
  entry? := entry?
  seek it target := (.okay, it.seek target)
  next it := (.okay, it.next)
  status _ := .okay
  remaining it := (it.current.flatMap (·.2)).length - it.versionIndex

end MemTableIterator

/-- `MemTable::NewIterator`. -/
def MemTable.newIterator (m : MemTable) (start limit : Bytes) : Result MemTableIterator :=
  if limit ≠ [] ∧ limit < start then
    .error (.invalidArgument "iterator begin is greater than end")
  else .ok (MemTableIterator.seek ⟨m, m.entries, 0, limit⟩ start)

namespace MemTableIterator

/-- The iterator stands on the first of the versions `es`. -/
structure At (it : MemTableIterator) (es : List InternalEntry) : Prop where
  versions : ∀ p ∈ it.current, MemTable.VersionsOk p.1 p.2
  inside : ∀ p ∈ it.current.head?, it.versionIndex < p.2.length
  outside : it.current = [] → it.versionIndex = 0
  ahead : es = (it.current.flatMap (·.2)).drop it.versionIndex

theorem At.yields {it : MemTableIterator} {es : List InternalEntry} (h : it.At es) :
    Yields it (es.takeWhile fun e => MemTable.belowEnd it.limit e.userKey) := by
  obtain ⟨source, current, i, limit⟩ := it
  induction es generalizing current i with
  | nil =>
    refine ⟨?_, rfl⟩
    cases current with
    | nil => rfl
    | cons p rest =>
      have hinside : i < p.2.length := h.inside p rfl
      have hahead := congrArg List.length h.ahead
      simp only [List.flatMap_cons, List.length_nil, List.length_drop, List.length_append] at hahead
      omega
  | cons e es ih =>
    cases current with
    | nil =>
      have hahead := h.ahead
      simp at hahead
    | cons p rest =>
      obtain ⟨key, versions⟩ := p
      have hok := h.versions (key, versions) List.mem_cons_self
      have hinside : i < versions.length := h.inside (key, versions) rfl
      have hahead : e :: es = versions.drop i ++ rest.flatMap (·.2) := by
        rw [h.ahead, List.flatMap_cons, List.drop_append_of_le_length hinside.le]
      rw [List.drop_eq_getElem_cons hinside, List.cons_append, List.cons.injEq] at hahead
      obtain ⟨rfl, hes⟩ := hahead
      have hkey : versions[i].userKey = key := hok.key_eq _ (List.getElem_mem _)
      rw [List.takeWhile_cons, hkey]
      by_cases hin : MemTable.belowEnd limit key = true
      · rw [if_pos hin]
        have hentry : entry? ⟨source, (key, versions) :: rest, i, limit⟩ = some versions[i] := by
          simp [MemTableIterator.entry?, hin, hinside]
        -- the last version of a key leads to the next key
        have hnext : ∃ current' i', MemTableIterator.next ⟨source, (key, versions) :: rest, i, limit⟩ =
            ⟨source, current', i', limit⟩ ∧ At ⟨source, current', i', limit⟩ es := by
          simp only [MemTableIterator.next, hin, if_true]
          split
          · rename_i hlast
            refine ⟨rest, 0, rfl, fun q hq => h.versions q (List.mem_cons_of_mem _ hq),
              fun q hq => ?_, fun _ => rfl, ?_⟩
            · exact List.length_pos_of_ne_nil
                (h.versions q (List.mem_cons_of_mem _ (List.mem_of_head? hq))).nonempty
            · rw [hes, List.drop_eq_nil_of_le hlast.ge]
              rfl
          · rename_i hmore
            refine ⟨_, _, rfl, h.versions, fun q hq => ?_, by simp, ?_⟩
            · obtain rfl := Option.some.inj hq
              show i + 1 < versions.length
              omega
            · rw [hes, List.flatMap_cons, List.drop_append_of_le_length hinside]
        obtain ⟨current', i', hmove, hat⟩ := hnext
        refine ⟨hentry, rfl, ?_, _, ?_, ih current' i' hat⟩
        · have hle := List.Sublist.length_le
            (List.takeWhile_sublist (fun e => MemTable.belowEnd limit e.userKey) (l := es))
          have hlength := congrArg List.length h.ahead
          rw [List.length_cons, List.length_drop] at hlength
          show (es.takeWhile fun e => MemTable.belowEnd limit e.userKey).length <
            (((key, versions) :: rest).flatMap (·.2)).length - i
          dsimp only at hlength
          omega
        · simp only [moved, InternalIterator.next, InternalIterator.status]
          rw [hmove]
          rfl
      · rw [if_neg hin]
        refine ⟨?_, rfl⟩
        simp [InternalIterator.entry?, MemTableIterator.entry?, hin]

/-- The versions of a key are all below the end or none is. -/
theorem takeWhile_flatMap {m : MemTable} (h : m.Inv) {start limit : Bytes} :
    ((m.entries.dropWhile (·.1 < start)).flatMap (·.2)).takeWhile
      (fun e => MemTable.belowEnd limit e.userKey) = m.scan start limit := by
  have hversions : ∀ p ∈ m.entries.dropWhile (·.1 < start), MemTable.VersionsOk p.1 p.2 :=
    fun p hp => h.versions p ((List.dropWhile_sublist _).subset hp)
  rw [MemTable.scan]
  generalize m.entries.dropWhile (·.1 < start) = entries at hversions
  induction entries with
  | nil => rfl
  | cons p entries ih =>
    obtain ⟨hok, hrest⟩ := List.forall_mem_cons.mp hversions
    rw [List.flatMap_cons]
    by_cases hin : MemTable.belowEnd limit p.1 = true
    · rw [List.takeWhile_append_of_pos fun e he => by rw [hok.key_eq e he]; exact hin, ih hrest,
        List.takeWhile_cons, if_pos hin, List.flatMap_cons]
    · obtain ⟨e, es, hes⟩ := List.exists_cons_of_ne_nil hok.nonempty
      have hkey : e.userKey = p.1 := hok.key_eq e (by rw [hes]; exact List.mem_cons_self)
      rw [hes, List.cons_append, List.takeWhile_cons_of_neg (by rwa [hkey]),
        List.takeWhile_cons, if_neg hin]
      rfl

/-- A new iterator walks what `Scan` lists. -/
theorem yields_newIterator {m : MemTable} (h : m.Inv) {start limit : Bytes}
    (hrange : limit = [] ∨ start ≤ limit) :
    ∃ it, m.newIterator start limit = .ok it ∧ Yields it (m.scan start limit) := by
  refine ⟨MemTableIterator.seek ⟨m, m.entries, 0, limit⟩ start, ?_, ?_⟩
  · rw [MemTable.newIterator, if_neg]
    rintro ⟨hne, hlt⟩
    exact hrange.elim hne fun hle => hle.not_gt hlt
  · have hat : At (MemTableIterator.seek ⟨m, m.entries, 0, limit⟩ start)
        ((m.entries.dropWhile (·.1 < start)).flatMap (·.2)) := by
      have hversions : ∀ p ∈ m.entries.dropWhile (·.1 < start), MemTable.VersionsOk p.1 p.2 :=
        fun p hp => h.versions p ((List.dropWhile_sublist _).subset hp)
      exact ⟨hversions, fun p hp => List.length_pos_of_ne_nil
        (hversions p (List.mem_of_head? hp)).nonempty, fun _ => rfl, rfl⟩
    have hyields := hat.yields
    rwa [show MemTableIterator.limit (MemTableIterator.seek ⟨m, m.entries, 0, limit⟩ start) = limit
      from rfl, takeWhile_flatMap h] at hyields

end MemTableIterator

/-! ## The applied versions -/

namespace MemTable

section
variable [EntrySize]

/-- One more call on a table, with the entries that were applied to it. -/
def record (s : MemTable × List InternalEntry) (c : Call) : MemTable × List InternalEntry :=
  let r := s.1.run c
  (r.1,
    match c with
    | .apply e => if r.2.ok then s.2 ++ [e] else s.2
    | .applyBatch es => if r.2.ok then s.2 ++ es else s.2
    | .clear => [])

/-- The entries that some calls on a new table applied since the last `Clear`. -/
def applied (calls : List Call) : List InternalEntry := (calls.foldl record (empty, [])).2

theorem foldl_record (calls : List Call) (s : MemTable × List InternalEntry) :
    (calls.foldl record s).1 = calls.foldl (fun m c => (m.run c).1) s.1 := by
  induction calls generalizing s with
  | nil => rfl
  | cons c calls ih => exact ih (record s c)

theorem mem_insertAll {m : MemTable} {es : List InternalEntry} (ha : m.Accepts es)
    (h : m.Accounted) {e : InternalEntry} :
    e ∈ (m.insertAll es).contents ↔ e ∈ m.contents ∨ e ∈ es := by
  obtain ⟨m', happly⟩ := ha.applyBatch_ok
  obtain ⟨-, rfl⟩ := h.applyBatch_eq happly
  exact (h.inv.applyBatch happly).2.1 e

/-- The table holds the applied entries. -/
theorem mem_contents_after (calls : List Call) (e : InternalEntry) :
    e ∈ (after calls).contents ↔ e ∈ applied calls := by
  have hstep : ∀ s : MemTable × List InternalEntry, s.1.Accounted →
      (∀ e, e ∈ s.1.contents ↔ e ∈ s.2) → ∀ c e, e ∈ (record s c).1.contents ↔ e ∈ (record s c).2 := by
    intro s h hsame c e
    rcases h.run_cases c with ⟨es, hc, ha, hrun⟩ | ⟨rfl, hrun⟩ | ⟨hclear, hstays, hfail⟩
    · have happlied : (record s c).2 = s.2 ++ es := by
        rcases hc with rfl | ⟨e, rfl, rfl⟩ <;> simp [record, hrun]
      rw [happlied, List.mem_append, ← hsame]
      show e ∈ (s.1.run c).1.contents ↔ _
      rw [hrun]
      exact mem_insertAll ha h
    · simp [record, hrun, empty, contents]
    · have happlied : (record s c).2 = s.2 := by
        cases c with
        | apply e => simp [record, hfail]
        | applyBatch es => simp [record, hfail]
        | clear => exact absurd rfl hclear
      rw [happlied, ← hsame]
      show e ∈ (s.1.run c).1.contents ↔ _
      rw [hstays]
  have hrun : ∀ (calls : List Call) (s : MemTable × List InternalEntry), s.1.Accounted →
      (∀ e, e ∈ s.1.contents ↔ e ∈ s.2) →
      ∀ e, e ∈ (calls.foldl record s).1.contents ↔ e ∈ (calls.foldl record s).2 := by
    intro calls
    induction calls with
    | nil => exact fun s _ hsame => hsame
    | cons c calls ih => exact fun s h hsame => ih (record s c) (h.run c) (hstep s h hsame c)
  have hall := hrun calls (empty, []) accounted_empty (by simp [empty, contents]) e
  rwa [foldl_record] at hall

end

end MemTable

/-! ## The representation -/

/-- What a table is for: `applied` are the versions it was given. -/
structure MemTable.Represents [EntrySize] (m : MemTable) (applied : List InternalEntry) : Prop where
  keys : OrderedMap.Sorted m.entries
  versions : ∀ p ∈ m.entries, p.2 ≠ [] ∧ (∀ e ∈ p.2, e.userKey = p.1 ∧ 0 < e.sequence) ∧
    p.2.Pairwise fun a b => b.sequence < a.sequence
  bytes_eq : m.bytes = (m.contents.map entryBytes).sum
  get : ∀ key sequence, IsLookup applied key sequence (m.get key sequence)
  scan : ∀ start limit, Ordered (m.scan start limit) ∧
    ∀ e, e ∈ m.scan start limit ↔
      e ∈ applied ∧ start ≤ e.userKey ∧ (limit = [] ∨ e.userKey < limit)
  iterator : ∀ start limit, (limit = [] ∨ start ≤ limit) →
    ∃ it, m.newIterator start limit = .ok it ∧ drain (remaining it) it = .ok (m.scan start limit)
  captured : ∀ start limit, ∃ it, newVectorIterator (m.scan start limit) start limit = .ok it
  /-- `Add` never rejects the order of a flush. -/
  flush : ∀ (blockBytes ri : ℕ) before e rest b, 1 ≤ ri → m.scan [] [] = before ++ e :: rest →
    SSTableBuilder.addAll (.new blockBytes ri) before = (b, none) →
    b.add e = if b.startsBlock e then b.flushBlock.bind (fun b => b.push e) else b.push e
  /-- `Add` accepts a flush of entries that the data blocks can store. -/
  stored : ∀ (blockBytes ri : ℕ), 1 ≤ ri → (∀ e ∈ applied, EntryStorable e) →
    (∀ bs ∈ cutBlocks blockBytes [] (m.scan [] []), (blockEncoding ri bs).length < 2 ^ 32) →
    dataBytes ri (cutBlocks blockBytes [] (m.scan [] [])) < 2 ^ 60 →
    ∃ b, SSTableBuilder.addAll (.new blockBytes ri) (m.scan [] []) = (b, none)

/-- Every `MemTable` represents the versions that were applied to it since the last `Clear`, whatever
calls on it succeeded or failed. -/
theorem memtable_represents_applied [EntrySize] (calls : List MemTable.Call) :
    (MemTable.after calls).Represents (MemTable.applied calls) := by
  have h := MemTable.accounted_after calls
  have hmem := MemTable.mem_contents_after calls
  generalize MemTable.after calls = m at h hmem
  have hscan : ∀ start limit, Ordered (m.scan start limit) := fun start limit => by
    rw [h.inv.scan_eq]
    exact List.Pairwise.filter _ h.inv.ordered
  refine ⟨h.inv.sorted, fun p hp => ?_, h.bytes_eq, fun key sequence => ?_, fun start limit => ?_,
    fun start limit hrange => ?_, fun start limit => ?_, ?_, ?_⟩
  · have hok := h.inv.versions p hp
    refine ⟨hok.nonempty, fun e he => ⟨hok.key_eq e he, h.positive e ?_⟩, hok.newest_first⟩
    exact List.mem_flatMap.mpr ⟨p, hp, he⟩
  · exact (h.inv.isLookup_get key sequence).congr_key fun e _ => hmem e
  · refine ⟨hscan start limit, fun e => ?_⟩
    rw [h.inv.scan_eq, List.mem_filter, hmem]
    simp [MemTable.inRange, MemTable.belowEnd]
  · obtain ⟨it, hit, hyields⟩ := MemTableIterator.yields_newIterator h.inv hrange
    exact ⟨it, hit, hyields.drain hyields.length_le⟩
  · rw [newVectorIterator, if_neg (not_not.mpr (hscan start limit).isSorted)]
    exact ⟨_, rfl⟩
  · intro blockBytes ri before e rest b hri heq hadd
    exact SSTableBuilder.added_of_ordered (hscan [] []) hri heq hadd
  · intro blockBytes ri hri hstorable hblocks hdata
    have hall : ∀ e ∈ m.scan [] [], EntryStorable e := fun e he =>
      hstorable e ((hmem e).mp (m.scan_all ▸ he))
    exact SSTableBuilder.addAll_ok hri (SSTableBuilder.inv_new blockBytes ri)
      (by simpa [SSTableBuilder.new] using hscan [] []) (by simpa [SSTableBuilder.new] using hall)
      hblocks (by simpa [SSTableBuilder.new] using hdata)

/-- `Apply` takes a tombstone with a value, and the block of a flush that ends with it is not
encoded: the next `Add` fails. -/
theorem flush_rejects_tombstone_with_value :
    ∃ calls, ((@MemTable.after entrySize80 calls).scan [] []) =
        [⟨[97], 1, .tombstone, [120]⟩, ⟨[98], 2, .value, []⟩] ∧
      (SSTableBuilder.addAll (.new 1 1) ((@MemTable.after entrySize80 calls).scan [] [])).2 =
        some (.invalidArgument "SSTable entries are not strictly ordered") :=
  ⟨[.apply ⟨[97], 1, .tombstone, [120]⟩, .apply ⟨[98], 2, .value, []⟩], by decide, by decide⟩

end TinyLsm
