import TinyLsm.Sstable.Lookup
import TinyLsm.Iterator.InternalIterator

/-!
# Table iterator

`SSTableReader::Iterator` of `sstable/sstable_reader.cpp`. `block_index_` and `entry_index_` are
kept as the suffixes they point at.
-/

namespace TinyLsm

open InternalIterator

/-- `SSTableReader::Iterator`. -/
structure TableIterator where
  source : SSTableReader
  limit : Bytes
  blocks : List BlockMeta
  entries : List InternalEntry
  valid : Bool
  status : Status

namespace TableIterator

/-- `SetEof`. -/
def setEof (it : TableIterator) : TableIterator :=
  { it with valid := false, entries := [], blocks := [] }

/-- `UpdateValidity`. -/
def updateValidity (it : TableIterator) : TableIterator :=
  match it.entries with
  | e :: _ => if MemTable.belowEnd it.limit e.userKey then { it with valid := true } else it.setEof
  | [] => it.setEof

/-- `LoadBlock` at the block the iterator points at, then `position` in its entries. The iterator
is at its end when there is no block or the block starts behind the range. -/
def enterBlock (it : TableIterator) (position : List InternalEntry → List InternalEntry) :
    Status × TableIterator :=
  match it.blocks with
  | [] => (.okay, it.setEof)
  | m :: _ =>
    if ¬ MemTable.belowEnd it.limit m.firstKey then (.okay, it.setEof)
    else
      match it.source.readBlock m with
      | .error s => (s, { it with status := s, valid := false, entries := [] })
      | .ok entries =>
        let it := updateValidity { it with entries := position entries }
        (it.status, it)

/-- `Iterator::Seek`. -/
def seek (it : TableIterator) (start : Bytes) : Status × TableIterator :=
  enterBlock { it with blocks := it.source.blocks.dropWhile (·.lastKey < start) }
    (List.dropWhile (·.userKey < start))

/-- `Iterator::Next`. -/
def next (it : TableIterator) : Status × TableIterator :=
  if ¬ it.status.ok then (it.status, it)
  else if it.valid = false then (.okay, it)
  else
    match it.entries.tail with
    | e :: rest =>
      let it := updateValidity { it with entries := e :: rest }
      (it.status, it)
    | [] => enterBlock { it with blocks := it.blocks.tail } id

/-- `Iterator::Valid` and `entry`. -/
def entry? (it : TableIterator) : Option InternalEntry :=
  if it.status.ok && it.valid then it.entries.head? else none

/-- The number of entries of a block, for the bound on `Next` calls. -/
def blockCount (r : SSTableReader) (m : BlockMeta) : ℕ :=
  match r.readBlock m with
  | .ok entries => entries.length
  | .error _ => 0

instance : InternalIterator TableIterator where
  entry? := entry?
  seek := seek
  next := next
  status := TableIterator.status
  remaining it := it.entries.length + (it.blocks.tail.map (blockCount it.source)).sum

end TableIterator

/-- `SSTableReader::NewIterator`. -/
def SSTableReader.newIterator (r : SSTableReader) (start limit : Bytes) : Result TableIterator :=
  if limit ≠ [] ∧ limit < start then
    .error (.invalidArgument "iterator begin is greater than end")
  else moved (TableIterator.seek ⟨r, limit, [], [], false, .okay⟩ start)

/-- `SSTableReader::Scan`. -/
def SSTableReader.scan (r : SSTableReader) (start limit : Bytes) : Result (List InternalEntry) :=
  match r.newIterator start limit with
  | .error s => .error s
  | .ok it => drain (remaining it) it

namespace TableIterator

/-- The blocks still to come and the entries in them. -/
structure Ahead (r : SSTableReader) (ms : List BlockMeta) (bss : List (List InternalEntry)) :
    Prop where
  blocks : List.Forall₂ (fun m bs => r.readBlock m = .ok bs ∧ m.firstKey = groupKey bs ∧
    m.lastKey = lastKeyOf [] bs) ms bss
  nonempty : ∀ bs ∈ bss, bs ≠ []
  ordered : Ordered bss.flatten

theorem Ahead.tail {r : SSTableReader} {m : BlockMeta} {ms : List BlockMeta}
    {bs : List InternalEntry} {bss : List (List InternalEntry)} (h : Ahead r (m :: ms) (bs :: bss)) :
    Ahead r ms bss where
  blocks := (List.forall₂_cons.mp h.blocks).2
  nonempty bs hbs := h.nonempty bs (List.mem_cons_of_mem _ hbs)
  ordered := (List.pairwise_append.mp h.ordered).2.1

theorem Ahead.sum_blockCount {r : SSTableReader} {ms : List BlockMeta}
    {bss : List (List InternalEntry)} (h : Ahead r ms bss) :
    (ms.map (blockCount r)).sum = bss.flatten.length := by
  have := h.blocks
  clear h
  induction this with
  | nil => rfl
  | cons hm _ ih =>
    rw [List.map_cons, List.sum_cons, List.flatten_cons, List.length_append, ih, blockCount, hm.1]

/-- A key bound that an ordered list starts behind excludes all of it. -/
theorem takeWhile_belowEnd_eq_nil {es : List InternalEntry} {limit : Bytes}
    (h : ∀ e ∈ es.head?, MemTable.belowEnd limit e.userKey = false) :
    es.takeWhile (fun e => MemTable.belowEnd limit e.userKey) = [] := by
  cases es with
  | nil => rfl
  | cons e es => rw [List.takeWhile_cons, if_neg (by rw [h e rfl]; simp)]

theorem moved_okay {it : TableIterator} (h : it.status.ok = true) :
    moved (it.status, it) = .ok it := by
  have : (InternalIterator.status it).ok = true := h
  simp [moved, h, this]

@[simp] theorem status_updateValidity (it : TableIterator) :
    (updateValidity it).status = it.status := by
  unfold updateValidity
  split
  · split <;> rfl
  · rfl

section
variable {r : SSTableReader} {limit : Bytes} {m : BlockMeta} {ms : List BlockMeta}

/-- Inside a block: if `Next` on the last entry goes on with `rest`, the iterator yields the block's
entries and then `rest`. -/
theorem yields_block {rest : List InternalEntry} {bss : List (List InternalEntry)}
    (hahead : Ahead r ms bss) (hrest : rest.length ≤ bss.flatten.length)
    (hlast : ∀ e, ∃ it', moved (enterBlock ⟨r, limit, ms, [e], true, .okay⟩ id) = .ok it' ∧
      Yields it' (rest.takeWhile fun e => MemTable.belowEnd limit e.userKey)) :
    ∀ (entries : List InternalEntry) (valid : Bool), entries ≠ [] →
      Yields (updateValidity ⟨r, limit, m :: ms, entries, valid, .okay⟩)
        ((entries ++ rest).takeWhile fun e => MemTable.belowEnd limit e.userKey) := by
  intro entries
  induction entries with
  | nil => intro _ h; exact absurd rfl h
  | cons e es ih =>
    intro valid _
    rw [List.cons_append, List.takeWhile_cons]
    by_cases hin : MemTable.belowEnd limit e.userKey = true
    · rw [if_pos hin]
      have hup : updateValidity ⟨r, limit, m :: ms, e :: es, valid, .okay⟩ =
          ⟨r, limit, m :: ms, e :: es, true, .okay⟩ := by simp [updateValidity, hin]
      rw [hup]
      refine ⟨rfl, rfl, ?_, ?_⟩
      · change _ < (e :: es).length + (ms.map (blockCount r)).sum
        rw [hahead.sum_blockCount]
        have := List.Sublist.length_le (List.takeWhile_sublist (l := es ++ rest)
          fun e => MemTable.belowEnd limit e.userKey)
        rw [List.length_append] at this
        rw [List.length_cons]
        omega
      · cases es with
        | nil => exact hlast e
        | cons e' es =>
          refine ⟨_, ?_, ih true (by simp)⟩
          exact moved_okay (by simp)
    · rw [if_neg hin]
      have hup : updateValidity ⟨r, limit, m :: ms, e :: es, valid, .okay⟩ =
          setEof ⟨r, limit, m :: ms, e :: es, valid, .okay⟩ := by simp [updateValidity, hin]
      rw [hup]
      exact ⟨rfl, rfl⟩

/-- Entering the first of the blocks ahead, at `position` in it. -/
theorem enterBlock_yields {bss : List (List InternalEntry)} (hahead : Ahead r ms bss)
    {entries : List InternalEntry} {valid : Bool}
    (position : List InternalEntry → List InternalEntry)
    (hposition : ∀ bs ∈ bss.head?, position bs ≠ [] ∧ (position bs).Sublist bs) :
    ∃ it', moved (enterBlock ⟨r, limit, ms, entries, valid, .okay⟩ position) = .ok it' ∧
      Yields it' (((bss.head?.map position).getD [] ++ bss.tail.flatten).takeWhile
        fun e => MemTable.belowEnd limit e.userKey) := by
  -- on the blocks ahead; `Next` at the end of a block enters the next one at its front
  induction bss generalizing ms entries valid position with
  | nil =>
    obtain rfl : ms = [] := by
      cases ms with
      | nil => rfl
      | cons m ms => exact absurd hahead.blocks (by simp)
    exact ⟨setEof _, rfl, rfl, rfl⟩
  | cons bs bss ih =>
    obtain ⟨m, ms', rfl⟩ : ∃ m ms', ms = m :: ms' := by
      cases ms with
      | nil => exact absurd hahead.blocks (by simp)
      | cons m ms' => exact ⟨m, ms', rfl⟩
    obtain ⟨hread, hfirst, -⟩ := (List.forall₂_cons.mp hahead.blocks).1
    obtain ⟨hne, hsub⟩ := hposition bs rfl
    have hord := hahead.ordered
    rw [List.flatten_cons] at hord
    simp only [List.head?_cons, Option.map_some, Option.getD_some, List.tail_cons]
    by_cases hin : MemTable.belowEnd limit m.firstKey = true
    · have hlast : ∀ e, ∃ it', moved (enterBlock ⟨r, limit, ms', [e], true, .okay⟩ id) = .ok it' ∧
          Yields it' (bss.flatten.takeWhile fun e => MemTable.belowEnd limit e.userKey) := by
        intro e
        obtain ⟨it', hmoved, hy⟩ := ih hahead.tail id fun bs' hbs' =>
            ⟨hahead.tail.nonempty bs' (List.mem_of_mem_head? hbs'), List.Sublist.refl _⟩
        refine ⟨it', hmoved, ?_⟩
        cases bss with
        | nil => exact hy
        | cons bs' bss => exact hy
      refine ⟨_, ?_, yields_block (m := m) hahead.tail le_rfl hlast (position bs) valid hne⟩
      simp only [enterBlock, hin, not_true_eq_false, if_false, hread]
      exact moved_okay (by simp)
    · refine ⟨setEof ⟨r, limit, m :: ms', entries, valid, .okay⟩, ?_, ?_⟩
      · simp only [enterBlock, hin]
        rfl
      · rw [takeWhile_belowEnd_eq_nil]
        · exact ⟨rfl, rfl⟩
        · -- the block's keys are at or behind its first key
          intro e he
          cases hp : position bs with
          | nil => exact absurd hp hne
          | cons a as =>
            rw [hp] at he hsub
            obtain rfl := Option.some.inj he
            have hmem : a ∈ bs := hsub.subset List.mem_cons_self
            have hle := groupKey_le_of_mem (List.pairwise_append.mp hord).1 hmem
            simp only [MemTable.belowEnd, decide_eq_true_eq, not_or, not_lt] at hin
            simp only [MemTable.belowEnd, decide_eq_false_iff_not, not_or, not_lt]
            exact ⟨hin.1, hin.2.trans (hfirst ▸ hle)⟩

end

theorem ahead_of_valid {r : SSTableReader} {bss : List (List InternalEntry)} (h : r.Valid bss) :
    Ahead r r.blocks bss := ⟨h.blocks, h.ordered.nonempty, h.ordered.flatten⟩

theorem Ahead.dropWhile {r : SSTableReader} {ms : List BlockMeta}
    {bss : List (List InternalEntry)} (h : Ahead r ms bss) (start : Bytes) :
    ∃ bss', Ahead r (ms.dropWhile (·.lastKey < start)) bss' ∧
      (∀ bs ∈ bss'.head?, ∃ e ∈ bs, ¬ e.userKey < start) ∧
      bss'.flatten.dropWhile (fun e => decide (e.userKey < start)) =
        bss.flatten.dropWhile (fun e => decide (e.userKey < start)) := by
  induction bss generalizing ms with
  | nil =>
    obtain rfl : ms = [] := by
      cases ms with
      | nil => rfl
      | cons m ms => exact absurd h.blocks (by simp)
    exact ⟨[], h, by simp, rfl⟩
  | cons bs bss ih =>
    obtain ⟨m, ms', rfl⟩ : ∃ m ms', ms = m :: ms' := by
      cases ms with
      | nil => exact absurd h.blocks (by simp)
      | cons m ms' => exact ⟨m, ms', rfl⟩
    obtain ⟨-, -, hlast⟩ := (List.forall₂_cons.mp h.blocks).1
    have hord := h.ordered
    rw [List.flatten_cons] at hord
    rw [List.dropWhile_cons]
    by_cases hlt : m.lastKey < start
    · rw [if_pos (by simpa using hlt)]
      obtain ⟨bss', hahead, hhead, heq⟩ := ih h.tail
      refine ⟨bss', hahead, hhead, ?_⟩
      have hall : ∀ e ∈ bs, decide (e.userKey < start) = true := fun e he => by
        have := le_lastKeyOf_of_mem [] (List.pairwise_append.mp hord).1 he
        simp only [decide_eq_true_eq]
        exact this.trans_lt (hlast ▸ hlt)
      rw [heq, List.flatten_cons, List.dropWhile_append, List.dropWhile_eq_nil_iff.mpr hall]
      rfl
    · rw [if_neg (by simpa using hlt)]
      refine ⟨bs :: bss, h, ?_, rfl⟩
      intro bs' hbs'
      obtain rfl := Option.some.inj hbs'
      obtain ⟨e, he, hkey⟩ := lastKeyOf_mem [] (h.nonempty bs List.mem_cons_self)
      exact ⟨e, he, by rwa [hkey, ← hlast]⟩

/-- Seeking a table of ordered blocks walks its entries of the range. -/
theorem seekYields {r : SSTableReader} {bss : List (List InternalEntry)} (h : r.Valid bss)
    (it : TableIterator) (hsource : it.source = r) (hstatus : it.status = .okay) (target : Bytes) :
    SeekYields it target
      (bss.flatten.filter fun e => MemTable.inRange target it.limit e.userKey) := by
  obtain ⟨source, limit, blocks, entries, valid, status⟩ := it
  obtain rfl : source = r := hsource
  obtain rfl : status = .okay := hstatus
  obtain ⟨bss', hahead, hhead, heq⟩ := (ahead_of_valid h).dropWhile target
  obtain ⟨it', hmoved, hy⟩ := enterBlock_yields hahead
    (List.dropWhile fun e => decide (e.userKey < target)) fun bs hbs => by
      obtain ⟨e, he, hkey⟩ := hhead bs hbs
      refine ⟨fun hnil => ?_, List.dropWhile_sublist _⟩
      rw [List.dropWhile_eq_nil_iff] at hnil
      exact hkey (by simpa using hnil e he)
  refine ⟨it', hmoved, ?_⟩
  rw [← h.ordered.flatten.dropWhile_takeWhile, ← heq]
  cases hb : bss' with
  | nil =>
    rw [hb] at hy
    exact hy
  | cons bs bss'' =>
    rw [hb] at hy hhead
    have hne : bs.dropWhile (fun e => decide (e.userKey < target)) ≠ [] := by
      obtain ⟨e, he, hkey⟩ := hhead bs rfl
      intro hnil
      rw [List.dropWhile_eq_nil_iff] at hnil
      exact hkey (by simpa using hnil e he)
    rw [List.flatten_cons, List.dropWhile_append, if_neg (by simpa using hne)]
    exact hy

theorem enterBlock_fields (it : TableIterator)
    (position : List InternalEntry → List InternalEntry)
    (h : ∀ m ∈ it.blocks, ∃ bs, it.source.readBlock m = .ok bs) :
    (enterBlock it position).2.source = it.source ∧ (enterBlock it position).2.limit = it.limit ∧
      (enterBlock it position).2.status = it.status := by
  have hup : ∀ it : TableIterator, (updateValidity it).source = it.source ∧
      (updateValidity it).limit = it.limit ∧ (updateValidity it).status = it.status := by
    intro it
    unfold updateValidity
    split
    · split <;> exact ⟨rfl, rfl, rfl⟩
    · exact ⟨rfl, rfl, rfl⟩
  unfold enterBlock
  split
  · exact ⟨rfl, rfl, rfl⟩
  · rename_i m _ hblocks
    obtain ⟨bs, hbs⟩ := h m (hblocks ▸ List.mem_cons_self)
    split
    · exact ⟨rfl, rfl, rfl⟩
    · rw [hbs]
      exact hup _

theorem blocks_enterBlock (it : TableIterator)
    (position : List InternalEntry → List InternalEntry) :
    (enterBlock it position).2.blocks ⊆ it.blocks := by
  have hup : ∀ it : TableIterator, (updateValidity it).blocks ⊆ it.blocks := by
    intro it
    unfold updateValidity
    split
    · split
      · exact List.Subset.refl _
      · exact List.nil_subset _
    · exact List.nil_subset _
  unfold enterBlock
  split
  · exact List.nil_subset _
  · split
    · exact List.nil_subset _
    · split
      · exact List.Subset.refl _
      · exact hup _

/-- An iterator over a reader, at any position. -/
structure Over (it : TableIterator) (r : SSTableReader) (limit : Bytes) : Prop where
  source_eq : it.source = r
  limit_eq : it.limit = limit
  status_eq : it.status = .okay
  blocks : it.blocks ⊆ r.blocks

section
variable {it : TableIterator} {r : SSTableReader} {limit : Bytes}
  (hread : ∀ m ∈ r.blocks, ∃ bs, r.readBlock m = .ok bs)
include hread

theorem Over.enterBlock (h : it.Over r limit) (position : List InternalEntry → List InternalEntry) :
    (it.enterBlock position).2.Over r limit := by
  obtain ⟨hsource, hlimit, hstatus⟩ := enterBlock_fields it position fun m hm => by
    rw [h.source_eq]
    exact hread m (h.blocks hm)
  exact ⟨hsource.trans h.source_eq, hlimit.trans h.limit_eq, hstatus.trans h.status_eq,
    List.Subset.trans (blocks_enterBlock it position) h.blocks⟩

theorem Over.seek (h : it.Over r limit) (target : Bytes) : (it.seek target).2.Over r limit := by
  have hreset : Over { it with blocks := it.source.blocks.dropWhile (·.lastKey < target) } r
      limit := by
    refine ⟨h.source_eq, h.limit_eq, h.status_eq, ?_⟩
    rw [h.source_eq]
    exact (List.dropWhile_sublist _).subset
  exact hreset.enterBlock hread _

theorem Over.next (h : it.Over r limit) : it.next.2.Over r limit := by
  unfold TableIterator.next
  split
  · exact h
  split
  · exact h
  split
  · unfold updateValidity
    dsimp only
    split
    · exact ⟨h.source_eq, h.limit_eq, h.status_eq, h.blocks⟩
    · exact ⟨h.source_eq, h.limit_eq, h.status_eq, List.nil_subset _⟩
  · have hbehind : Over { it with blocks := it.blocks.tail } r limit :=
      ⟨h.source_eq, h.limit_eq, h.status_eq,
        List.Subset.trans (List.tail_sublist _).subset h.blocks⟩
    exact hbehind.enterBlock hread _

end

end TableIterator

/-- `NewIterator` on a table of ordered blocks succeeds. -/
theorem SSTableReader.Valid.newIterator {r : SSTableReader} {bss : List (List InternalEntry)}
    (h : r.Valid bss) {start limit : Bytes} (hrange : limit = [] ∨ start ≤ limit) :
    ∃ it, r.newIterator start limit = .ok it ∧ it.source = r ∧ it.limit = limit ∧
      it.status = .okay ∧
      Yields it (bss.flatten.filter fun e => MemTable.inRange start limit e.userKey) := by
  obtain ⟨it, hmoved, hyields⟩ := TableIterator.seekYields h
    ⟨r, limit, [], [], false, .okay⟩ rfl rfl start
  have hcheck : ¬ (limit ≠ [] ∧ limit < start) := by
    rintro ⟨hne, hlt⟩
    exact absurd hlt (not_lt.mpr (hrange.resolve_left hne))
  refine ⟨it, by rw [SSTableReader.newIterator, if_neg hcheck]; exact hmoved, ?_⟩
  have hread : ∀ m ∈ r.blocks.dropWhile (·.lastKey < start), ∃ bs, r.readBlock m = .ok bs := by
    intro m hm
    obtain ⟨bs, -, hbs, -⟩ := TableFile.forall₂_exists h.blocks
      ((List.dropWhile_sublist _).subset hm)
    exact ⟨bs, hbs⟩
  have hfields := TableIterator.enterBlock_fields
    ⟨r, limit, r.blocks.dropWhile (·.lastKey < start), [], false, .okay⟩
    (List.dropWhile (·.userKey < start)) hread
  unfold moved at hmoved
  split at hmoved
  · cases hmoved
  · split at hmoved
    · cases hmoved
    · obtain rfl := Except.ok.inj hmoved
      exact ⟨hfields.1, hfields.2.1, hfields.2.2, hyields⟩

/-- `Scan` on a table of ordered blocks returns its entries of the range. -/
theorem SSTableReader.Valid.scan {r : SSTableReader} {bss : List (List InternalEntry)}
    (h : r.Valid bss) {start limit : Bytes} (hrange : limit = [] ∨ start ≤ limit) :
    r.scan start limit = .ok (bss.flatten.filter fun e => MemTable.inRange start limit e.userKey) := by
  obtain ⟨it, hit, -, -, -, hyields⟩ := h.newIterator hrange
  rw [SSTableReader.scan, hit]
  exact hyields.drain hyields.length_le

end TinyLsm
