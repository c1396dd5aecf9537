import TinyLsm.Db.Answers

/-!
# Range reads

What `Next` meets from the creation of an iterator on, and what `Scan` returns. The merge moves its
inputs to the empty key when it is created. What was captured of a MemTable has nothing below the
range; a table has, and its keys below the range are met first. In the range the pairs are those that
`Get` answers with, where its lookups reach what is visible.
-/

namespace TinyLsm

open InternalIterator

/-- The entries of the tables that `NewIterator` takes: their metadata meets the range. -/
def rangeEntries (start limit : Bytes) : List TableMeta → List Table → List InternalEntry
  | m :: metas, t :: tables =>
    if (limit ≠ [] ∧ ¬ m.smallestKey < limit) ∨ m.largestKey < start then
      rangeEntries start limit metas tables
    else t.entries ++ rangeEntries start limit metas tables
  | _, _ => []

/-- The entries of the live tables that `NewIterator` takes. -/
def Handle.rangeEntries (h : Handle) (start limit : Bytes) : List InternalEntry :=
  TinyLsm.rangeEntries start limit h.manifest.liveTables h.tables

/-- The pairs of a range at a sequence: in key order, each key of the range whose newest version is
a value. -/
def RangeExact (es : List InternalEntry) (start limit : Bytes) (sequence : ℕ)
    (pairs : List (Bytes × Bytes)) : Prop :=
  pairs.Pairwise (fun p q => p.1 < q.1) ∧
    ∀ k v, (k, v) ∈ pairs ↔ start ≤ k ∧ (limit = [] ∨ k < limit) ∧
      ∃ e, IsNewest es k sequence e ∧ e.type = .value ∧ e.value = v

/-- What the pairs of a range say of a key, as an answer of `Get`. -/
def answerOf (pairs : List (Bytes × Bytes)) (key : Bytes) : Result Bytes :=
  match pairs.lookup key with
  | some value => .ok value
  | none => .error (.notFound "key is absent or deleted")

/-- The pairs agree with `Get` on every key of the range. -/
def Handle.AgreesWithGet (o : Options) (h : Handle) (start limit : Bytes)
    (snapshot : Option Snapshot) (pairs : List (Bytes × Bytes)) : Prop :=
  ∀ key, start ≤ key → (limit = [] ∨ key < limit) → h.get o key snapshot = answerOf pairs key

/-! ## The inputs -/

section
variable {start limit : Bytes}

theorem rangeEntries_sublist (metas : List TableMeta) (tables : List Table) :
    (rangeEntries start limit metas tables).Sublist (tables.flatMap Table.entries) := by
  induction metas generalizing tables with
  | nil => exact List.nil_sublist _
  | cons m metas ih =>
    cases tables with
    | nil => exact .slnil
    | cons t tables =>
      rw [rangeEntries, List.flatMap_cons]
      split
      · exact (ih tables).trans (List.sublist_append_right _ _)
      · exact (List.Sublist.refl _).append (ih tables)

/-- The tables that are left out hold no version of the range. -/
theorem mem_rangeEntries {metas : List TableMeta} {tables : List Table}
    (h : List.Forall₂ TableMeta.Describes metas tables) {e : InternalEntry}
    (he : e ∈ tables.flatMap Table.entries) (hstart : start ≤ e.userKey)
    (hlimit : limit = [] ∨ e.userKey < limit) : e ∈ rangeEntries start limit metas tables := by
  induction h with
  | nil => exact he
  | @cons m t metas tables hdescribes _ ih =>
    obtain ⟨-, -, -, hspans⟩ := Layered.entries_of_describes hdescribes
    rw [List.flatMap_cons] at he
    rw [rangeEntries]
    split
    · rename_i hout
      refine (List.mem_append.mp he).elim (fun he => ?_) ih
      have hspan := hspans e he
      rcases hout with ⟨hne, hlt⟩ | hlt
      · exact absurd (hspan.smallest_le.trans_lt (hlimit.resolve_left hne)) hlt
      · exact absurd (hstart.trans hspan.le_largest) (not_le.mpr hlt)
    · exact (List.mem_append.mp he).elim (List.mem_append_left _)
        fun he => List.mem_append_right _ (ih he)

/-- Moved to the empty key, the tables yield what they hold below the end of the range. -/
theorem tableInputs_yields (hrange : limit = [] ∨ start ≤ limit) {metas : List TableMeta}
    {tables : List Table} (h : List.Forall₂ TableMeta.Describes metas tables) :
    ∃ inputs rests, tableInputs start limit metas tables = .ok inputs ∧
      List.Forall₂ (fun src es => SeekYields src [] es) inputs rests ∧
      (∀ rest ∈ rests, Ordered rest) ∧
      rests.flatten = (rangeEntries start limit metas tables).filter fun e =>
        MemTable.inRange [] limit e.userKey := by
  induction h with
  | nil => exact ⟨[], [], rfl, .nil, by simp, rfl⟩
  | @cons m t metas tables hdescribes _ ih =>
    obtain ⟨inputs, rests, hinputs, hyields, hord, hflatten⟩ := ih
    obtain ⟨bss, hvalid, hentries, -⟩ := Layered.entries_of_describes hdescribes
    simp only [tableInputs, rangeEntries]
    split
    · exact ⟨inputs, rests, hinputs, hyields, hord, hflatten⟩
    · obtain ⟨it, hit, hsource, hlimit, hstatus, -⟩ := hvalid.newIterator hrange
      have hseek := TableIterator.seekYields hvalid it hsource hstatus []
      rw [hlimit, ← hentries] at hseek
      refine ⟨.table it :: inputs, _ :: rests, by rw [hit, hinputs],
        .cons (ReadSource.wraps_table.seekYields hseek) hyields, ?_, ?_⟩
      · intro rest hrest
        rcases List.mem_cons.mp hrest with rfl | hrest
        · rw [hentries]
          exact List.Pairwise.filter _ hvalid.ordered.flatten
        · exact hord rest hrest
      · rw [List.flatten_cons, hflatten, List.filter_append]

/-- What was captured of the MemTables lies in the range. -/
theorem memoryInputs_yields (start limit : Bytes) {memtables : List MemTable}
    (h : ∀ m ∈ memtables, m.Inv) :
    ∃ inputs rests, memoryInputs start limit memtables = .ok inputs ∧
      List.Forall₂ (fun src es => SeekYields src [] es) inputs rests ∧
      (∀ rest ∈ rests, Ordered rest) ∧
      rests.flatten = (memtables.flatMap MemTable.contents).filter fun e =>
        MemTable.inRange start limit e.userKey := by
  induction memtables with
  | nil => exact ⟨[], [], rfl, .nil, by simp, rfl⟩
  | cons m memtables ih =>
    obtain ⟨inputs, rests, hinputs, hyields, hord, hflatten⟩ :=
      ih fun m hm => h m (List.mem_cons_of_mem _ hm)
    have hinv := h m List.mem_cons_self
    have hscan := hinv.scan_eq start limit
    have hordered : Ordered (m.scan start limit) := hscan ▸ List.Pairwise.filter _ hinv.ordered
    have hseek := (VectorIterator.seek ⟨m.scan start limit, limit, m.scan start limit⟩
      start).seekYields hordered []
    have hcaptured : ((m.scan start limit).filter fun e => MemTable.inRange [] limit e.userKey) =
        m.contents.filter fun e => MemTable.inRange start limit e.userKey := by
      rw [hscan, List.filter_filter]
      refine List.filter_congr fun e _ => ?_
      have hnil : ([] : Bytes) ≤ e.userKey := not_lt.mp (List.not_lt_nil _)
      simp [MemTable.inRange, hnil]
    refine ⟨_ :: inputs, _ :: rests, ?_, .cons (ReadSource.wraps_memory.seekYields hseek) hyields,
      ?_, ?_⟩
    · rw [memoryInputs, newVectorIterator, if_neg (not_not.mpr hordered.isSorted), hinputs]
    · intro rest hrest
      rcases List.mem_cons.mp hrest with rfl | hrest
      · exact List.Pairwise.filter _ hordered
      · exact hord rest hrest
    · rw [List.flatten_cons, hflatten, List.flatMap_cons, List.filter_append]
      exact congrArg (· ++ _) hcaptured

end

/-! ## What is met -/

section
variable {o : Options} {h : Handle} {w : Worker} {start limit : Bytes} {snapshot : Option Snapshot}

/-- `NewIterator` succeeds, and its iterator walks the tables from their first key on and the
MemTables from the start of the range on. -/
theorem Layered.newIterator_yields (hl : Layered o h w) (hopen : h.checkOpen.ok = true)
    (hrange : limit = [] ∨ start ≤ limit) (hown : ∀ s ∈ snapshot, s.own = true) :
    ∃ it es, h.newIterator start limit snapshot = .ok it ∧ Ordered es ∧
      (∀ e, e ∈ es ↔ (limit = [] ∨ e.userKey < limit) ∧ (e ∈ h.rangeEntries start limit ∨
        start ≤ e.userKey ∧ e ∈ h.memtables.flatMap MemTable.contents)) ∧
      Yields it.iterator (visibleFrom (h.readSequence snapshot) none es) := by
  obtain ⟨disk, drests, hdisk, hdyields, hdord, hdflatten⟩ := tableInputs_yields hrange hl.tables
  obtain ⟨memory, mrests, hmemory, hmyields, hmord, hmflatten⟩ :=
    memoryInputs_yields start limit hl.memtables_inv
  have hflatten : (drests ++ mrests).flatten.Sublist h.versions := by
    rw [List.flatten_append, hdflatten, hmflatten]
    refine (List.filter_sublist.trans (rangeEntries_sublist _ _)).append ?_
    exact List.filter_sublist
  have hord : ∀ rest ∈ drests ++ mrests, Ordered rest := fun rest hrest =>
    (List.mem_append.mp hrest).elim (hdord rest) (hmord rest)
  obtain ⟨es, merged, hes, hperm, hmerged, hyields⟩ := newMergingIterator_distinct
    (List.rel_append hdyields hmyields) hord (List.Pairwise.sublist hflatten hl.versions_distinct)
  obtain ⟨v, hv, hvisible⟩ := newVisibilityIterator_yields hyields (h.readSequence snapshot)
  refine ⟨⟨v, start⟩, es, ?_, hes, fun e => ?_, hvisible⟩
  · have hbounds : ¬ (limit ≠ [] ∧ limit < start) := by
      rintro ⟨hne, hlt⟩
      exact (hrange.resolve_left hne).not_gt hlt
    rw [Handle.newIterator, if_neg (by simp [hopen]), if_neg hbounds,
      if_neg (Snapshot.not_foreign hown), if_neg (not_not.mpr hl.tables.length_eq), hdisk]
    dsimp only
    rw [hmemory]
    dsimp only
    rw [hmerged]
    dsimp only
    rw [hv]
  · have hnil : ([] : Bytes) ≤ e.userKey := not_lt.mp (List.not_lt_nil _)
    rw [hperm.mem_iff, List.flatten_append, hdflatten, hmflatten, List.mem_append, List.mem_filter,
      List.mem_filter]
    simp only [MemTable.inRange, MemTable.belowEnd, Bool.and_eq_true, decide_eq_true_eq, hnil,
      true_and, Handle.rangeEntries]
    tauto

/-- The pairs that are met: those of the range, and before them the keys below it whose newest
version in the tables of the range is a value. -/
theorem Layered.range_pairs (hl : Layered o h w) (hopen : h.checkOpen.ok = true)
    (hrange : limit = [] ∨ start ≤ limit) (hown : ∀ s ∈ snapshot, s.own = true) :
    ∃ it es pairs, h.newIterator start limit snapshot = .ok it ∧
      Yields it.iterator es ∧ pairs = es.map (fun e => (e.userKey, e.value)) ∧
      pairs.Pairwise (fun p q => p.1 < q.1) ∧
      ∀ k v, (k, v) ∈ pairs ↔
        (start ≤ k ∧ (limit = [] ∨ k < limit) ∧
          ∃ e, IsNewest h.versions k (h.readSequence snapshot) e ∧ e.type = .value ∧ e.value = v) ∨
        k < start ∧ ∃ e, IsNewest (h.rangeEntries start limit) k (h.readSequence snapshot) e ∧
          e.type = .value ∧ e.value = v := by
  obtain ⟨it, es, hit, hord, hmem, hyields⟩ := hl.newIterator_yields hopen hrange hown
  refine ⟨it, _, _, hit, hyields, rfl, ?_, fun k v => ?_⟩
  · rw [List.pairwise_map]
    exact visible_keys_increase hord
  have hiff : (k, v) ∈ (visibleFrom (h.readSequence snapshot) none es).map
      (fun e => (e.userKey, e.value)) ↔
      ∃ e, IsNewest es k (h.readSequence snapshot) e ∧ e.type = .value ∧ e.value = v := by
    rw [List.mem_map]
    constructor
    · rintro ⟨e, he, heq⟩
      obtain ⟨rfl, rfl⟩ := Prod.mk.inj heq
      obtain ⟨hfind, htype⟩ := (mem_visible hord).mp he
      exact ⟨e, hord.findVersion_eq_some_iff.mp hfind, htype, rfl⟩
    · rintro ⟨e, hnewest, htype, rfl⟩
      obtain rfl := hnewest.key_eq
      exact ⟨e, (mem_visible hord).mpr ⟨hord.findVersion_eq_some_iff.mpr hnewest, htype⟩, rfl⟩
  rw [hiff]
  by_cases hstart : start ≤ k
  · -- in the range the merge holds every version of a key
    have hsame : (limit = [] ∨ k < limit) → ∀ e : InternalEntry, e.userKey = k →
        (e ∈ es ↔ e ∈ h.versions) := by
      rintro hlimit e rfl
      rw [hmem, Handle.versions, List.mem_append]
      constructor
      · rintro ⟨-, he | ⟨-, he⟩⟩
        · exact .inl ((rangeEntries_sublist _ _).subset he)
        · exact .inr he
      · rintro (he | he)
        · exact ⟨hlimit, .inl (mem_rangeEntries hl.tables he hstart hlimit)⟩
        · exact ⟨hlimit, .inr ⟨hstart, he⟩⟩
    constructor
    · rintro ⟨e, hnewest, htype, hvalue⟩
      have hlimit := ((hmem e).mp hnewest.mem).1
      rw [hnewest.key_eq] at hlimit
      exact .inl ⟨hstart, hlimit, e, hnewest.congr (hsame hlimit), htype, hvalue⟩
    · rintro (⟨-, hlimit, e, hnewest, htype, hvalue⟩ | ⟨hlt, -⟩)
      · exact ⟨e, hnewest.congr fun e he => (hsame hlimit e he).symm, htype, hvalue⟩
      · exact absurd hstart (not_le.mpr hlt)
  · -- below it only the tables are read
    have hlt := not_le.mp hstart
    have hsame : ∀ e : InternalEntry, e.userKey = k →
        (e ∈ es ↔ e ∈ h.rangeEntries start limit) := by
      rintro e rfl
      rw [hmem]
      constructor
      · rintro ⟨-, he | ⟨hle, -⟩⟩
        · exact he
        · exact absurd hle hstart
      · exact fun he => ⟨hrange.imp id hlt.trans_le, .inl he⟩
    constructor
    · rintro ⟨e, hnewest, htype, hvalue⟩
      exact .inr ⟨hlt, e, hnewest.congr hsame, htype, hvalue⟩
    · rintro (⟨hle, -⟩ | ⟨-, e, hnewest, htype, hvalue⟩)
      · exact absurd hle hstart
      · exact ⟨e, hnewest.congr fun e he => (hsame e he).symm, htype, hvalue⟩

end

/-- What is met is determined. -/
theorem DbIterator.Yields.unique {it : DbIterator} {pairs pairs' : List (Bytes × Bytes)}
    (h : it.Yields pairs) (h' : it.Yields pairs') : pairs = pairs' := by
  induction pairs generalizing it pairs' with
  | nil =>
    cases pairs' with
    | nil => rfl
    | cons p pairs' => exact absurd (h.1.symm.trans h'.1) (by simp)
  | cons p pairs ih =>
    cases pairs' with
    | nil => exact absurd (h.1.symm.trans h'.1) (by simp)
    | cons p' pairs' =>
      rw [Option.some.inj (h.1.symm.trans h'.1), ih h.2.2 h'.2.2]

/-- No key below the range is visible in the tables of the range. -/
def Handle.NothingBelow (h : Handle) (start limit : Bytes) (sequence : ℕ) : Prop :=
  ∀ k < start, ∀ e, IsNewest (h.rangeEntries start limit) k sequence e → e.type = .tombstone

/-- The pairs are those of the range where nothing below it is visible in its tables. -/
theorem rangeExact_iff {h : Handle} {start limit : Bytes} {sequence : ℕ}
    {pairs : List (Bytes × Bytes)} (hsorted : pairs.Pairwise fun p q => p.1 < q.1)
    (hpairs : ∀ k v, (k, v) ∈ pairs ↔
      (start ≤ k ∧ (limit = [] ∨ k < limit) ∧
        ∃ e, IsNewest h.versions k sequence e ∧ e.type = .value ∧ e.value = v) ∨
      k < start ∧ ∃ e, IsNewest (h.rangeEntries start limit) k sequence e ∧
        e.type = .value ∧ e.value = v) :
    RangeExact h.versions start limit sequence pairs ↔ h.NothingBelow start limit sequence := by
  constructor
  · rintro ⟨-, hexact⟩ k hk e hnewest
    cases htype : e.type with
    | tombstone => rfl
    | value =>
      have hmem := (hpairs k e.value).mpr (.inr ⟨hk, e, hnewest, htype, rfl⟩)
      exact absurd ((hexact k e.value).mp hmem).1 (not_le.mpr hk)
  · intro hnothing
    refine ⟨hsorted, fun k v => (hpairs k v).trans (or_iff_left ?_)⟩
    rintro ⟨hk, e, hnewest, htype, -⟩
    rw [hnothing k hk e hnewest] at htype
    cases htype

/-! ## Agreement with `Get` -/

/-- For every key of the range, what is visible among all versions is visible among those that the
lookups of `Get` reach. -/
def Handle.LookupsReach (o : Options) (h : Handle) (start limit : Bytes) (sequence : ℕ) : Prop :=
  ∀ key, start ≤ key → (limit = [] ∨ key < limit) → ∀ value,
    VisibleValue h.versions key sequence value ↔ VisibleValue (h.searched o) key sequence value

theorem Handle.lookupsReach_of_eq {o : Options} {h : Handle} (heq : h.searched o = h.versions)
    (start limit : Bytes) (sequence : ℕ) : h.LookupsReach o start limit sequence :=
  fun _ _ _ _ => by rw [heq]

theorem visibleValue_iff_isNewest {es : List InternalEntry} {key value : Bytes} {sequence : ℕ} :
    VisibleValue es key sequence value ↔
      ∃ e, IsNewest es key sequence e ∧ e.type = .value ∧ e.value = value := by
  constructor
  · rintro ⟨e, ⟨hmem, hle, hnewest⟩, rfl, htype, hvalue⟩
    exact ⟨e, ⟨hmem, rfl, hle, hnewest⟩, htype, hvalue⟩
  · rintro ⟨e, hnewest, htype, hvalue⟩
    obtain rfl := hnewest.key_eq
    exact ⟨e, ⟨hnewest.mem, hnewest.sequence_le, hnewest.newest⟩, rfl, htype, hvalue⟩

theorem lookup_eq_some_iff {pairs : List (Bytes × Bytes)} {key value : Bytes}
    (hsorted : pairs.Pairwise fun p q => p.1 < q.1) :
    pairs.lookup key = some value ↔ (key, value) ∈ pairs := by
  induction pairs with
  | nil => simp
  | cons p pairs ih =>
    obtain ⟨hless, hrest⟩ := List.pairwise_cons.mp hsorted
    obtain ⟨k, v⟩ := p
    by_cases hkey : key = k
    · subst hkey
      have hnot : (key, value) ∉ pairs := fun hmem => lt_irrefl key (hless _ hmem)
      simp [hnot, eq_comm]
    · have hne : (key == k) = false := by simpa using hkey
      rw [List.lookup_cons, hne]
      simp [ih hrest, hkey]

/-- Exact pairs agree with `Get` exactly where its lookups reach what is visible in the range. -/
theorem Layered.agreesWithGet_iff {o : Options} {h : Handle} {w : Worker} {start limit : Bytes}
    {snapshot : Option Snapshot} {pairs : List (Bytes × Bytes)} (hl : Layered o h w)
    (hopen : h.checkOpen.ok = true) (hown : ∀ s ∈ snapshot, s.own = true)
    (hexact : RangeExact h.versions start limit (h.readSequence snapshot) pairs) :
    h.AgreesWithGet o start limit snapshot pairs ↔
      h.LookupsReach o start limit (h.readSequence snapshot) := by
  refine forall_congr' fun key => forall_congr' fun hstart => forall_congr' fun hlimit => ?_
  obtain ⟨newest, hfound, hget⟩ := hl.get_searched hopen key hown
  have hdistinct : Distinct (h.searched o) :=
    List.Pairwise.sublist (h.searched_sublist o) hl.versions_distinct
  have hanswer : ∀ value, answerOf pairs key = .ok value ↔
      VisibleValue h.versions key (h.readSequence snapshot) value := by
    intro value
    have hpair := (hexact.2 key value).trans
      ⟨fun hin => hin.2.2, fun hnewest => ⟨hstart, hlimit, hnewest⟩⟩
    rw [visibleValue_iff_isNewest, ← hpair, ← lookup_eq_some_iff hexact.1, answerOf]
    cases pairs.lookup key <;> simp
  have hcases : (∃ value, answerOf pairs key = .ok value) ∨
      answerOf pairs key = .error (.notFound "key is absent or deleted") := by
    rw [answerOf]
    cases pairs.lookup key with
    | none => exact .inr rfl
    | some value => exact .inl ⟨value, rfl⟩
  rw [hget, result_eq_iff (readResult_cases newest) hcases]
  refine forall_congr' fun value => ?_
  rw [← hfound.visibleValue_iff hdistinct, hanswer]
  exact ⟨Iff.symm, Iff.symm⟩

/-- For the pairs that are met, both parts are equivalences. -/
theorem Layered.exact_and_agrees_iff {o : Options} {h : Handle} {w : Worker} {start limit : Bytes}
    {snapshot : Option Snapshot} {pairs : List (Bytes × Bytes)} (hl : Layered o h w)
    (hopen : h.checkOpen.ok = true) (hown : ∀ s ∈ snapshot, s.own = true)
    (hexact : RangeExact h.versions start limit (h.readSequence snapshot) pairs ↔
      h.NothingBelow start limit (h.readSequence snapshot)) :
    RangeExact h.versions start limit (h.readSequence snapshot) pairs ∧
        h.AgreesWithGet o start limit snapshot pairs ↔
      h.NothingBelow start limit (h.readSequence snapshot) ∧
        h.LookupsReach o start limit (h.readSequence snapshot) := by
  rw [← hexact]
  exact and_congr_right (hl.agreesWithGet_iff hopen hown)

section
variable [EntrySize] {o : Options} {faultFree : Bool} {s : System} {start limit : Bytes}
  {snapshot : Option Snapshot}

/-- In every state of every run, `NewIterator` and `Scan` return exactly the pairs of the range, and
`Get` agrees with them, where no key below it is visible in the tables whose key ranges meet it and
the lookups of `Get` reach what is visible in the range. -/
theorem range_reads_exact_iff (hs : (System.system o faultFree).Reachable s)
    (hopen : s.handle.checkOpen.ok = true) (hrange : limit = [] ∨ start ≤ limit)
    (hown : ∀ s ∈ snapshot, s.own = true) :
    (∃ it, s.handle.newIterator start limit snapshot = .ok it ∧
      ((∃ pairs, it.Yields pairs ∧
          RangeExact s.handle.versions start limit (s.handle.readSequence snapshot) pairs ∧
          s.handle.AgreesWithGet o start limit snapshot pairs) ↔
        s.handle.NothingBelow start limit (s.handle.readSequence snapshot) ∧
          s.handle.LookupsReach o start limit (s.handle.readSequence snapshot))) ∧
    ((∃ pairs, s.handle.scan start limit = .ok pairs ∧
        RangeExact s.handle.versions start limit (s.handle.readSequence none) pairs ∧
        s.handle.AgreesWithGet o start limit none pairs) ↔
      s.handle.NothingBelow start limit (s.handle.readSequence none) ∧
        s.handle.LookupsReach o start limit (s.handle.readSequence none)) := by
  have hl := Layered.of_reachable hs
  have hnone : ∀ s ∈ (none : Option Snapshot), s.own = true := by simp
  constructor
  · obtain ⟨it, es, pairs, hit, hyields, rfl, hsorted, hpairs⟩ := hl.range_pairs hopen hrange hown
    have hmet := DbIterator.yields_of_entries hyields
    refine ⟨it, hit, ?_⟩
    rw [← hl.exact_and_agrees_iff hopen hown (rangeExact_iff hsorted hpairs)]
    constructor
    · rintro ⟨pairs, hyields', hexact⟩
      rwa [hmet.unique hyields']
    · intro hexact
      exact ⟨_, hmet, hexact⟩
  · obtain ⟨it, es, pairs, hit, hyields, rfl, hsorted, hpairs⟩ := hl.range_pairs hopen hrange hnone
    have hscan : s.handle.scan start limit = .ok (es.map fun e => (e.userKey, e.value)) := by
      rw [Handle.scan, hit]
      dsimp only
      rw [hyields.drain hyields.length_le]
    rw [← hl.exact_and_agrees_iff hopen hnone (rangeExact_iff hsorted hpairs), hscan]
    constructor
    · rintro ⟨pairs, hok, hexact⟩
      rwa [Except.ok.inj hok]
    · intro hexact
      exact ⟨_, rfl, hexact⟩

end

/-- Options under which every write is flushed, with and without a cache. -/
def flushedPairOptions : List Options :=
  [{ memtableBytes := 1 }, { memtableBytes := 1, blockCacheBytes := 0 }]

/-- A run that flushes the puts of two keys into one table. -/
theorem exists_flushed_pair {o : Options} (ho : o ∈ flushedPairOptions) :
    let _ := entrySize80
    ∃ s : System, (System.system o true).Reachable s ∧ s.handle.checkOpen.ok = true ∧
      s.handle.tables.length = 1 ∧
      s.handle.rangeEntries [1] [] = [⟨[1], 1, .value, [2]⟩, ⟨[3], 2, .value, [4]⟩] ∧
      s.handle.searched o = s.handle.versions ∧
      s.handle.scan [3] [] = .ok [([1], [2]), ([3], [4])] := by
  intro _
  let ms : List Move := .write [⟨0, [.put [1] [2], .put [3] [4]], 164⟩] ::
    List.replicate 8 (.worker [])
  have htests : ∀ o ∈ flushedPairOptions,
      ((System.openThen o .empty ⟨false, []⟩ ⟨none, fun _ => false⟩ ms).map fun s =>
        decide (s.handle.checkOpen.ok = true ∧ s.handle.tables.length = 1 ∧
          s.handle.rangeEntries [1] [] = [⟨[1], 1, .value, [2]⟩, ⟨[3], 2, .value, [4]⟩] ∧
          s.handle.searched o = s.handle.versions ∧
          s.handle.scan [3] [] = .ok [([1], [2]), ([3], [4])])) = some true := by
    decide +kernel
  obtain ⟨s, hs, htests⟩ := Option.map_eq_some_iff.mp (htests o ho)
  obtain ⟨h₀, hopen, hmoves⟩ := System.openThen_eq_some hs
  refine ⟨s, ⟨_, ⟨.empty, ⟨false, []⟩, ⟨none, fun _ => false⟩, h₀, by simp, hopen, rfl⟩,
    System.moves_run hmoves⟩, of_decide_eq_true htests⟩

/-- From the first of two flushed keys on there is nothing below and no cache is needed: the reads
are exact and agree with `Get`. -/
theorem range_reads_exact_iff_first_key :
    let _ := entrySize80
    let o : Options := { memtableBytes := 1, blockCacheBytes := 0 }
    ∃ s : System, (System.system o true).Reachable s ∧ s.handle.tables.length = 1 ∧
      s.handle.NothingBelow [1] [] (s.handle.readSequence none) ∧
      s.handle.LookupsReach o [1] [] (s.handle.readSequence none) ∧
      ∃ pairs, s.handle.scan [1] [] = .ok pairs ∧
        RangeExact s.handle.versions [1] [] (s.handle.readSequence none) pairs ∧
        s.handle.AgreesWithGet o [1] [] none pairs := by
  intro _ o
  obtain ⟨s, hs, hopen, htables, hentries, hsearched, -⟩ :=
    exists_flushed_pair (o := o) (by decide)
  have hnothing : s.handle.NothingBelow [1] [] (s.handle.readSequence none) := by
    intro k hk e hnewest
    have hmem := hnewest.mem
    rw [hentries, List.mem_cons, List.mem_singleton] at hmem
    rw [← hnewest.key_eq] at hk
    rcases hmem with rfl | rfl
    · exact absurd hk (by decide)
    · exact absurd hk (by decide)
  have hreach := Handle.lookupsReach_of_eq hsearched [1] [] (s.handle.readSequence none)
  have hexact := (range_reads_exact_iff hs hopen (.inl rfl)
    (show ∀ s ∈ (none : Option Snapshot), s.own = true by simp)).2.mpr ⟨hnothing, hreach⟩
  exact ⟨s, hs, htables, hnothing, hreach, hexact⟩

/-- From the second key on, the reads begin with the first. -/
theorem range_reads_meet_key_below :
    let _ := entrySize80
    ∃ s : System, (System.system { memtableBytes := 1 } true).Reachable s ∧
      s.handle.checkOpen.ok = true ∧ s.handle.scan [3] [] = .ok [([1], [2]), ([3], [4])] ∧
      (∃ it, s.handle.newIterator [3] [] none = .ok it ∧ it.Yields [([1], [2]), ([3], [4])]) ∧
      ¬ RangeExact s.handle.versions [3] [] (s.handle.readSequence none)
        [([1], [2]), ([3], [4])] := by
  intro _
  obtain ⟨s, hs, hopen, -, -, -, hscan⟩ :=
    exists_flushed_pair (o := { memtableBytes := 1 }) (by decide)
  refine ⟨s, hs, hopen, hscan, ?_, fun hexact => ?_⟩
  · obtain ⟨it, es, pairs, hit, hyields, -⟩ := (Layered.of_reachable hs).range_pairs hopen
      (.inl rfl) (show ∀ s ∈ (none : Option Snapshot), s.own = true by simp)
    have hpairs := DbIterator.yields_of_entries hyields
    refine ⟨it, hit, ?_⟩
    rw [Handle.scan, hit] at hscan
    dsimp only at hscan
    rw [hyields.drain hyields.length_le] at hscan
    rwa [Except.ok.inj hscan] at hpairs
  · exact absurd ((hexact.2 [1] [2]).mp (by simp)).1 (by decide)

end TinyLsm
