import TinyLsm.Wal.Codec

/-!
# Paging through a log

`StorageInspector::WalRecords` of `tools/lab/storage_inspector.cpp`: one page of the records of a log
file, from a cursor that the page before returned. The name of the file and its path are checked
before; here the file is its contents.
-/

namespace TinyLsm

namespace StorageInspector

/-- `StorageInspector::kMaxPageItems`. -/
def kMaxPageItems : ℕ := 100

/-- `InspectedEntry`. -/
structure InspectedEntry where
  key : Bytes
  value : Bytes
  sequence : ℕ
  tombstone : Bool
deriving DecidableEq, Repr

/-- `CopyEntry`. -/
def copyEntry (e : InternalEntry) : InspectedEntry :=
  ⟨e.userKey, e.value, e.sequence, decide (e.type = .tombstone)⟩

/-- `WalRecordPageItem`. -/
structure WalRecordPageItem where
  offset : ℕ
  encodedBytes : ℕ
  entry : Option InspectedEntry
  validationError : Option Status
deriving DecidableEq, Repr

/-- `PagedResult<WalRecordPageItem>`. -/
structure WalPage where
  items : List WalRecordPageItem
  nextCursor : Option ℕ
  hasMore : Bool
deriving DecidableEq, Repr

/-- The default `DecodeLimits`. -/
def defaultLimits : DecodeLimits := ⟨4 * 1024 * 1024, 64 * 1024 * 1024⟩

/-- `ReadFileRange` on a file that can be read. -/
def readFileRange (file : Bytes) (offset length : ℕ) : Result Bytes :=
  if file.length < offset ∨ file.length - offset < length then
    .error (.invalidArgument "requested byte range is outside the file")
  else .ok ((file.drop offset).take length)

/-- The item of a record that lies inside the file: its first entry, or what is wrong with it. -/
def recordItem (offset encoded : ℕ) (record : Result Bytes) : WalRecordPageItem :=
  match record with
  | .error s => ⟨offset, encoded, none, some s⟩
  | .ok record =>
    match decodeWalRecord record defaultLimits with
    | .ok e => ⟨offset, encoded, some (copyEntry e), none⟩
    | .error _ =>
      match decodeWalBatch record defaultLimits with
      | .error s => ⟨offset, encoded, none, some s⟩
      | .ok [] => ⟨offset, encoded, none, some (.corruption "WAL batch is empty")⟩
      | .ok (e :: _) => ⟨offset, encoded, some (copyEntry e), none⟩

/-- The item of a header that the file ends in. -/
def tornItem (offset : ℕ) : WalRecordPageItem :=
  ⟨offset, 0, none, some (.invalidArgument "requested byte range is outside the file")⟩

/-- The item of a record that is longer than the rest of the file. -/
def longItem (offset rest : ℕ) : WalRecordPageItem :=
  ⟨offset, rest, none, some (.corruption "WAL payload length extends beyond the file")⟩

/-- The loop of `WalRecords`, with room for `room` more items: the items and the offset behind it. -/
def walRecordsLoop (file : Bytes) : ℕ → ℕ → List WalRecordPageItem → List WalRecordPageItem × ℕ
  | 0, offset, items => (items, offset)
  | room + 1, offset, items =>
    if offset < file.length then
      match readFileRange file offset kWalHeaderSize with
      | .error s => (items ++ [⟨offset, 0, none, some s⟩], offset)
      | .ok header =>
        let payloadSize := (getFixed32 header 8).getD 0
        if file.length - offset - kWalHeaderSize < payloadSize then
          (items ++ [longItem offset (file.length - offset)], file.length)
        else
          let encoded := kWalHeaderSize + payloadSize
          walRecordsLoop file room (offset + encoded)
            (items ++ [recordItem offset encoded (readFileRange file offset encoded)])
    else (items, offset)

/-- `StorageInspector::WalRecords`. -/
def walRecords (file : Bytes) (cursor limit : ℕ) : Result WalPage :=
  if limit = 0 ∨ kMaxPageItems < limit then
    .error (.invalidArgument "WAL page limit is outside the server bound")
  else if file.length < cursor then .error (.invalidArgument "WAL cursor is outside the file")
  else
    let (items, offset) := walRecordsLoop file limit cursor []
    let hasMore := decide (offset < file.length)
    .ok ⟨items, if hasMore then some offset else none, hasMore⟩

/-- Following `next_cursor` from a cursor on while `has_more`. -/
inductive Pages (file : Bytes) (limit : ℕ) : ℕ → List (List WalRecordPageItem) → Prop
  | last {cursor : ℕ} {page : WalPage} : walRecords file cursor limit = .ok page →
      page.hasMore = false → Pages file limit cursor [page.items]
  | more {cursor next : ℕ} {page : WalPage} {pages : List (List WalRecordPageItem)} :
      walRecords file cursor limit = .ok page → page.hasMore = true → page.nextCursor = some next →
      Pages file limit next pages → Pages file limit cursor (page.items :: pages)

/-! ## Complete records and the rest -/

/-- A complete record, sound or damaged: a header and the number of bytes it promises. -/
def IsRecord (record : Bytes) : Prop :=
  kWalHeaderSize ≤ record.length ∧
    (getFixed32 record 8).getD 0 = record.length - kWalHeaderSize

/-- A rest of the file whose header is complete and promises more than there is. -/
def TooLong (rest : Bytes) : Prop :=
  kWalHeaderSize ≤ rest.length ∧ rest.length - kWalHeaderSize < (getFixed32 rest 8).getD 0

/-- A rest of the file that ends inside a header. -/
def TornHeader (rest : Bytes) : Prop := 0 < rest.length ∧ rest.length < kWalHeaderSize
deriving Decidable

/-- The items of complete records from an offset on. -/
def recordItems : ℕ → List Bytes → List WalRecordPageItem
  | _, [] => []
  | offset, record :: records =>
    recordItem offset record.length (.ok record) :: recordItems (offset + record.length) records

/-- The file is made of complete records and a rest without one. -/
structure Split (file : Bytes) (records : List Bytes) (rest : Bytes) : Prop where
  file_eq : file = records.flatten ++ rest
  records : ∀ record ∈ records, IsRecord record
  rest : rest = [] ∨ TornHeader rest ∨ TooLong rest

variable {file pre behind record rest : Bytes} {records : List Bytes} {room limit : ℕ}
  {items : List WalRecordPageItem}

/-- Every file is complete records and a rest. -/
theorem exists_split (file : Bytes) : ∃ records rest, Split file records rest := by
  induction hn : file.length using Nat.strong_induction_on generalizing file with
  | _ n ih =>
    subst hn
    have hend : ∀ hrest : file = [] ∨ TornHeader file ∨ TooLong file,
        ∃ records rest, Split file records rest := fun hrest =>
      ⟨[], file, rfl, by simp, hrest⟩
    by_cases hnil : file = []
    · exact hend (.inl hnil)
    have hpos : 0 < file.length := List.length_pos_of_ne_nil hnil
    by_cases hshort : file.length < kWalHeaderSize
    · exact hend (.inr (.inl ⟨hpos, hshort⟩))
    by_cases hlong : file.length - kWalHeaderSize < (getFixed32 file 8).getD 0
    · exact hend (.inr (.inr ⟨not_lt.mp hshort, hlong⟩))
    simp only [kWalHeaderSize] at hshort hlong
    -- the first record, and the rest of the file
    set size := 16 + (getFixed32 file 8).getD 0 with hsize
    have hlength : (file.take size).length = size := by
      rw [List.length_take]
      omega
    have hrecord : IsRecord (file.take size) := by
      have hread : getFixed32 (file.take size) 8 = getFixed32 file 8 := by
        conv_rhs => rw [← List.take_append_drop size file]
        exact (LittleEndian.readAt_append_left (by rw [hlength]; omega) _).symm
      refine ⟨by rw [hlength]; exact Nat.le_add_right _ _, ?_⟩
      rw [hread, hlength, kWalHeaderSize]
      omega
    obtain ⟨records, rest, hsplit⟩ := ih (file.drop size).length (by rw [List.length_drop]; omega)
      (file.drop size) rfl
    refine ⟨file.take size :: records, rest, ?_, ?_, hsplit.rest⟩
    · rw [List.flatten_cons, List.append_assoc, ← hsplit.file_eq, List.take_append_drop]
    · intro r hr
      rcases List.mem_cons.mp hr with rfl | hr
      · exact hrecord
      · exact hsplit.records r hr

/-! ## The loop -/

theorem readFileRange_middle (hfile : file = pre ++ (record ++ behind)) {length : ℕ}
    (hle : length ≤ record.length) :
    readFileRange file pre.length length = .ok (record.take length) := by
  have hlen := congrArg List.length hfile
  simp only [List.length_append] at hlen
  rw [readFileRange, if_neg (by omega), hfile, List.drop_left, List.take_append_of_le_length hle]

theorem getFixed32_header (h : kWalHeaderSize ≤ record.length) :
    getFixed32 (record.take kWalHeaderSize) 8 = getFixed32 record 8 := by
  simp only [kWalHeaderSize] at h ⊢
  conv_rhs => rw [← List.take_append_drop 16 record]
  exact (LittleEndian.readAt_append_left (by rw [List.length_take]; omega) _).symm

/-- The loop passes over a complete record. -/
theorem walRecordsLoop_record (hfile : file = pre ++ (record ++ behind)) (hrecord : IsRecord record) :
    walRecordsLoop file (room + 1) pre.length items =
      walRecordsLoop file room (pre.length + record.length)
        (items ++ [recordItem pre.length record.length (.ok record)]) := by
  obtain ⟨hheader, hsize⟩ := hrecord
  have hlen := congrArg List.length hfile
  simp only [List.length_append] at hlen
  have hencoded : kWalHeaderSize + (record.length - kWalHeaderSize) = record.length := by omega
  have hpos : 0 < kWalHeaderSize := by decide
  rw [walRecordsLoop, if_pos (by omega), readFileRange_middle hfile hheader]
  dsimp only
  rw [getFixed32_header hheader, hsize, if_neg (by omega), hencoded,
    readFileRange_middle hfile le_rfl, List.take_length]

/-- The loop passes over complete records. -/
theorem walRecordsLoop_records (hfile : file = pre ++ (records.flatten ++ behind))
    (hrecords : ∀ record ∈ records, IsRecord record) :
    walRecordsLoop file (records.length + room) pre.length items =
      walRecordsLoop file room (pre.length + records.flatten.length)
        (items ++ recordItems pre.length records) := by
  induction records generalizing pre items with
  | nil => simp [recordItems]
  | cons record records ih =>
    have hfirst : file = pre ++ (record ++ (records.flatten ++ behind)) := by
      rw [hfile, List.flatten_cons, List.append_assoc]
    have hrest : file = (pre ++ record) ++ (records.flatten ++ behind) := by
      rw [hfirst, List.append_assoc]
    have hrec := @ih (pre ++ record) (items ++ [recordItem pre.length record.length (.ok record)]) hrest
      fun r hr => hrecords r (List.mem_cons_of_mem _ hr)
    rw [List.length_append] at hrec
    rw [List.length_cons, Nat.add_right_comm,
      walRecordsLoop_record hfirst (hrecords record List.mem_cons_self), hrec, List.flatten_cons,
      List.length_append, Nat.add_assoc, List.append_assoc]
    rfl

theorem walRecordsLoop_end (hfile : file = pre) :
    walRecordsLoop file room pre.length items = (items, pre.length) := by
  cases room with
  | zero => rfl
  | succ room => rw [walRecordsLoop, if_neg (by rw [hfile]; exact lt_irrefl _)]

/-- The loop stops at a header that is cut off, and stays there. -/
theorem walRecordsLoop_torn (hfile : file = pre ++ rest) (h : TornHeader rest) :
    walRecordsLoop file (room + 1) pre.length items =
      (items ++ [tornItem pre.length], pre.length) := by
  obtain ⟨hpos, hshort⟩ := h
  have hlen := congrArg List.length hfile
  simp only [List.length_append] at hlen
  rw [walRecordsLoop, if_pos (by omega), readFileRange, if_pos (by omega)]
  rfl

/-- The loop goes to the end of the file at a record that is too long. -/
theorem walRecordsLoop_long (hfile : file = pre ++ rest) (h : TooLong rest) :
    walRecordsLoop file (room + 1) pre.length items =
      (items ++ [longItem pre.length rest.length], file.length) := by
  obtain ⟨hheader, hlong⟩ := h
  have hpos : 0 < kWalHeaderSize := by decide
  have hlen := congrArg List.length hfile
  simp only [List.length_append] at hlen
  have hrest : file.length - pre.length = rest.length := by omega
  have hmiddle : file = pre ++ (rest ++ []) := by rw [List.append_nil, hfile]
  rw [walRecordsLoop, if_pos (by omega), readFileRange_middle hmiddle hheader]
  dsimp only
  rw [getFixed32_header hheader, hrest, if_pos hlong]

/-! ## Pages -/

/-- A limit the server accepts. -/
def LimitAccepted (limit : ℕ) : Prop := 1 ≤ limit ∧ limit ≤ kMaxPageItems
deriving Decidable

/-- The page behind a run of the loop. -/
theorem walRecords_eq (hlimit : LimitAccepted limit) (hcursor : pre.length ≤ file.length)
    {stop : ℕ} (hloop : walRecordsLoop file limit pre.length [] = (items, stop)) :
    walRecords file pre.length limit = .ok ⟨items,
      if stop < file.length then some stop else none, decide (stop < file.length)⟩ := by
  obtain ⟨hlow, hhigh⟩ := hlimit
  rw [walRecords, if_neg (by omega), if_neg (by omega), hloop]
  simp

/-- What is left of the file is reported once. -/
def restItems (offset : ℕ) (rest : Bytes) : List WalRecordPageItem :=
  if rest = [] then [] else [longItem offset rest.length]

theorem recordItems_append (offset : ℕ) (front back : List Bytes) :
    recordItems offset (front ++ back) =
      recordItems offset front ++ recordItems (offset + front.flatten.length) back := by
  induction front generalizing offset with
  | nil => rfl
  | cons record front ih =>
    simp only [List.cons_append, recordItems, ih, List.flatten_cons, List.length_append,
      Nat.add_assoc]

/-- Without a torn header, following the cursor goes through the whole file, whatever the limit. -/
theorem exists_pages (hlimit : LimitAccepted limit)
    (hfile : file = pre ++ (records.flatten ++ rest)) (hrecords : ∀ record ∈ records, IsRecord record)
    (hrest : rest = [] ∨ TooLong rest) :
    ∃ pages, Pages file limit pre.length pages ∧
      pages.flatten = recordItems pre.length records ++
        restItems (pre.length + records.flatten.length) rest := by
  induction hn : records.length using Nat.strong_induction_on generalizing pre records with
  | _ n ih =>
    subst hn
    have hlen := congrArg List.length hfile
    simp only [List.length_append] at hlen
    by_cases hfull : limit ≤ records.length
    · -- the page is full: it ends behind `limit` records
      set front := records.take limit with hfront
      set back := records.drop limit with hback
      have hsplit : records = front ++ back := (List.take_append_drop limit records).symm
      have hfrontlen : front.length = limit := by
        rw [hfront, List.length_take]
        omega
      have hfile' : file = pre ++ (front.flatten ++ (back.flatten ++ rest)) := by
        rw [hfile, hsplit, List.flatten_append, List.append_assoc]
      have hloop := @walRecordsLoop_records file pre _ front 0 [] hfile'
        fun r hr => hrecords r (List.mem_of_mem_take hr)
      rw [hfrontlen, Nat.add_zero, List.nil_append] at hloop
      have hpage := walRecords_eq hlimit (by omega) hloop
      have hlen' := congrArg List.length hfile'
      simp only [List.length_append] at hlen'
      rw [hsplit, recordItems_append]
      by_cases hmore : pre.length + front.flatten.length < file.length
      · have hnext : file = (pre ++ front.flatten) ++ (back.flatten ++ rest) := by
          rw [hfile', List.append_assoc]
        have hless : back.length < records.length := by
          have h1 := hlimit.1
          rw [hback, List.length_drop]
          omega
        obtain ⟨pages, hpages, hflat⟩ := ih back.length hless hnext
          (fun r hr => hrecords r (List.mem_of_mem_drop hr)) rfl
        rw [List.length_append] at hpages hflat
        refine ⟨_ :: pages, .more hpage (by simpa using hmore) (if_pos hmore) hpages, ?_⟩
        rw [List.flatten_cons, hflat, List.flatten_append, List.length_append, List.append_assoc,
          Nat.add_assoc]
      · have hbacknil : back = [] := by
          rcases hcase : back with _ | ⟨r, back'⟩
          · rfl
          have hmem : r ∈ back := by
            rw [hcase]
            exact List.mem_cons_self
          have hsize := (hrecords r (List.mem_of_mem_drop hmem)).1
          rw [hcase, List.flatten_cons, List.length_append] at hlen'
          simp only [kWalHeaderSize] at hsize
          omega
        have hrestnil : rest = [] := List.length_eq_zero_iff.mp (by omega)
        refine ⟨[_], .last hpage (by simpa using hmore), ?_⟩
        rw [hbacknil, hrestnil]
        simp [recordItems, restItems]
    · -- the page holds what is left
      obtain ⟨room, hroom⟩ := Nat.exists_eq_add_of_lt (not_le.mp hfull)
      have hloop := @walRecordsLoop_records file pre rest records (room + 1) [] hfile hrecords
      rw [← Nat.add_assoc, ← hroom, List.nil_append, ← List.length_append] at hloop
      have hend : file = (pre ++ records.flatten) ++ rest := by rw [hfile, List.append_assoc]
      rcases hrest with rfl | hlong
      · have hstop := @walRecordsLoop_end file (pre ++ records.flatten) (room + 1)
          (recordItems pre.length records) (by rw [hend, List.append_nil])
        rw [hstop] at hloop
        have hpage := walRecords_eq hlimit (by omega) hloop
        refine ⟨[_], .last hpage ?_, by simp [restItems]⟩
        rw [hend]
        simp
      · rw [walRecordsLoop_long hend hlong, List.length_append] at hloop
        have hpage := walRecords_eq hlimit (by omega) hloop
        refine ⟨[_], .last hpage (by simp), ?_⟩
        have hne : rest ≠ [] := by
          rintro rfl
          exact absurd hlong.1 (by decide)
        rw [List.flatten_singleton, restItems, if_neg hne]

/-- In a file with a torn header the loop always ends before it. -/
theorem walRecordsLoop_before_torn (hfile : file = pre ++ (records.flatten ++ rest))
    (hrecords : ∀ record ∈ records, IsRecord record) (hrest : TornHeader rest) (room : ℕ) :
    ∃ items front back, records = front ++ back ∧
      walRecordsLoop file room pre.length [] = (items, pre.length + front.flatten.length) := by
  by_cases hfull : room ≤ records.length
  · have hfile' : file = pre ++ ((records.take room).flatten ++ ((records.drop room).flatten ++ rest)) := by
      rw [hfile, ← List.append_assoc (records.take room).flatten, ← List.flatten_append,
        List.take_append_drop]
    have hloop := @walRecordsLoop_records file pre _ (records.take room) 0 [] hfile'
      fun r hr => hrecords r (List.mem_of_mem_take hr)
    rw [List.length_take, Nat.min_eq_left hfull, Nat.add_zero] at hloop
    exact ⟨_, _, _, (List.take_append_drop room records).symm, hloop⟩
  · obtain ⟨more, hmore⟩ := Nat.exists_eq_add_of_lt (not_le.mp hfull)
    have hloop := @walRecordsLoop_records file pre rest records (more + 1) [] hfile hrecords
    have hend : file = (pre ++ records.flatten) ++ rest := by rw [hfile, List.append_assoc]
    rw [← Nat.add_assoc, ← hmore, ← List.length_append, walRecordsLoop_torn hend hrest,
      List.length_append] at hloop
    exact ⟨_, records, [], (List.append_nil _).symm, hloop⟩

/-- In a file with a torn header following the cursor never ends. -/
theorem not_pages_of_torn {cursor : ℕ} {pages : List (List WalRecordPageItem)}
    (hlimit : LimitAccepted limit) (hpages : Pages file limit cursor pages) :
    ∀ {pre rest : Bytes} {records : List Bytes}, cursor = pre.length →
      file = pre ++ (records.flatten ++ rest) → (∀ record ∈ records, IsRecord record) →
      ¬ TornHeader rest := by
  induction hpages with
  | last hpage hdone =>
    intro pre rest records hcursor hfile hrecords htorn
    obtain ⟨items, front, back, hsplit, hloop⟩ :=
      walRecordsLoop_before_torn hfile hrecords htorn limit
    have hlen := congrArg List.length hfile
    rw [hsplit, List.flatten_append] at hlen
    simp only [List.length_append] at hlen
    rw [hcursor, walRecords_eq hlimit (by omega) hloop] at hpage
    obtain rfl := Except.ok.inj hpage
    -- the page ends before the torn header, so there is more
    have hend : ¬ pre.length + front.flatten.length < file.length := by simpa using hdone
    have hpos := htorn.1
    omega
  | more hpage hmore hnext _ ih =>
    intro pre rest records hcursor hfile hrecords htorn
    obtain ⟨items, front, back, hsplit, hloop⟩ :=
      walRecordsLoop_before_torn hfile hrecords htorn limit
    have hlen := congrArg List.length hfile
    rw [hsplit, List.flatten_append] at hlen
    simp only [List.length_append] at hlen
    rw [hcursor, walRecords_eq hlimit (by omega) hloop] at hpage
    obtain rfl := Except.ok.inj hpage
    have hpos := htorn.1
    rw [if_pos (by omega)] at hnext
    -- the next page starts at a boundary, before the same torn header
    refine @ih (pre ++ front.flatten) rest back ?_ ?_ ?_ htorn
    · rw [List.length_append]
      exact (Option.some.inj hnext).symm
    · rw [hfile, hsplit, List.flatten_append]
      simp only [List.append_assoc]
    · exact fun r hr => hrecords r (by rw [hsplit]; exact List.mem_append_right _ hr)

/-! ## Coverage -/

/-- The items of a log: its complete records tile it from offset 0, and what is left of it is
reported once, with an error. -/
structure Covers (file : Bytes) (items : List WalRecordPageItem) : Prop where
  start : ∀ item ∈ items.head?, item.offset = 0
  increasing : items.Pairwise fun a b => a.offset < b.offset
  tiles : ∃ records rest tail, Split file records rest ∧ items = recordItems 0 records ++ tail ∧
    tail.length ≤ 1 ∧ (tail = [] ↔ rest = []) ∧
    ∀ item ∈ tail, item.offset = records.flatten.length ∧ item.entry = none ∧
      item.validationError ≠ none

/-- Following the cursor from 0 on ends for every limit, with the same items, which cover the log. -/
def PagingCovers (file : Bytes) : Prop :=
  ∃ items, Covers file items ∧ ∀ limit, LimitAccepted limit →
    ∃ pages, Pages file limit 0 pages ∧ pages.flatten = items

/-- The offset of a record's item is the record's. -/
@[simp]
theorem recordItem_offset (offset encoded : ℕ) (record : Result Bytes) :
    (recordItem offset encoded record).offset = offset := by
  unfold recordItem
  split
  · rfl
  · split
    · rfl
    · split <;> rfl

/-- The items of records lie inside them. -/
theorem mem_recordItems {item : WalRecordPageItem} (hrecords : ∀ record ∈ records, IsRecord record)
    {offset : ℕ} (h : item ∈ recordItems offset records) :
    offset ≤ item.offset ∧ item.offset < offset + records.flatten.length := by
  induction records generalizing offset with
  | nil => cases h
  | cons record records ih =>
    have hsize := (hrecords record List.mem_cons_self).1
    simp only [kWalHeaderSize] at hsize
    rw [List.flatten_cons, List.length_append]
    rcases List.mem_cons.mp h with rfl | h
    · rw [recordItem_offset]
      omega
    · have := ih (fun r hr => hrecords r (List.mem_cons_of_mem _ hr)) h
      omega

theorem recordItems_increasing (hrecords : ∀ record ∈ records, IsRecord record) (offset : ℕ) :
    (recordItems offset records).Pairwise fun a b => a.offset < b.offset := by
  induction records generalizing offset with
  | nil => exact List.Pairwise.nil
  | cons record records ih =>
    have hrest : ∀ r ∈ records, IsRecord r := fun r hr => hrecords r (List.mem_cons_of_mem _ hr)
    have hsize := (hrecords record List.mem_cons_self).1
    simp only [kWalHeaderSize] at hsize
    refine List.Pairwise.cons (fun item hitem => ?_) (ih hrest _)
    have := mem_recordItems hrest hitem
    rw [recordItem_offset]
    omega

/-- The items of a log without a torn header cover it. -/
theorem Split.covers (h : Split file records rest) :
    Covers file (recordItems 0 records ++ restItems records.flatten.length rest) where
  start := by
    intro item hitem
    rcases records with _ | ⟨record, records⟩
    · rw [restItems] at hitem
      split at hitem
      · cases hitem
      · obtain rfl : longItem 0 rest.length = item := by simpa [recordItems] using hitem
        rfl
    · obtain rfl : recordItem 0 record.length (.ok record) = item := by
        simpa [recordItems] using hitem
      exact recordItem_offset ..
  increasing := by
    refine List.pairwise_append.mpr ⟨recordItems_increasing h.records 0, ?_, ?_⟩
    · rw [restItems]
      split
      · exact List.Pairwise.nil
      · exact List.pairwise_singleton _ _
    · intro item hitem last hlast
      have hbound := (mem_recordItems h.records hitem).2
      rw [restItems] at hlast
      split at hlast
      · cases hlast
      · obtain rfl := List.mem_singleton.mp hlast
        rw [Nat.zero_add] at hbound
        exact hbound
  tiles := by
    refine ⟨records, rest, _, h, rfl, ?_, ?_, ?_⟩ <;> rw [restItems] <;> split
    · exact Nat.zero_le 1
    · exact le_rfl
    · next hrest => exact ⟨fun _ => hrest, fun _ => rfl⟩
    · next hrest => exact ⟨fun hnil => absurd hnil (List.cons_ne_nil _ _), fun hnil => absurd hnil hrest⟩
    · intro item hitem
      cases hitem
    · intro item hitem
      obtain rfl := List.mem_singleton.mp hitem
      exact ⟨rfl, rfl, by simp [longItem]⟩

/-- Paging goes through a log once exactly when the log does not end inside the header of a
record. -/
theorem wal_paging_covers_iff (file : Bytes) :
    PagingCovers file ↔ ¬ ∃ records rest, Split file records rest ∧ TornHeader rest := by
  constructor
  · rintro ⟨items, _, hall⟩ ⟨records, rest, hsplit, htorn⟩
    have hlimit : LimitAccepted 1 := by decide
    obtain ⟨pages, hpages, _⟩ := hall 1 hlimit
    exact @not_pages_of_torn file 1 0 pages hlimit hpages [] rest records rfl hsplit.file_eq
      hsplit.records htorn
  · intro hnot
    obtain ⟨records, rest, hsplit⟩ := exists_split file
    have hrest : rest = [] ∨ TooLong rest := by
      rcases hsplit.rest with hnil | htorn | hlong
      · exact .inl hnil
      · exact absurd ⟨records, rest, hsplit, htorn⟩ hnot
      · exact .inr hlong
    refine ⟨_, hsplit.covers, fun limit hlimit => ?_⟩
    obtain ⟨pages, hpages, hflat⟩ := @exists_pages file [] rest records limit hlimit
      hsplit.file_eq hsplit.records hrest
    refine ⟨pages, hpages, ?_⟩
    rw [hflat, List.length_nil, Nat.zero_add]

/-- A log of one byte: its page comes back with the cursor it was asked for. -/
theorem wal_paging_stays_at_torn_header : ¬ PagingCovers [0x57] := by
  rintro ⟨items, _, hall⟩
  have hlimit : LimitAccepted 1 := by decide
  obtain ⟨pages, hpages, _⟩ := hall 1 hlimit
  exact @not_pages_of_torn [0x57] 1 0 pages hlimit hpages [] [0x57] [] rfl rfl (by simp) (by decide)

end StorageInspector

end TinyLsm
