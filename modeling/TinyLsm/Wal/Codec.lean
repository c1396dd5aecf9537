import TinyLsm.Model.InternalEntry
import TinyLsm.Util.Status
import TinyLsm.Util.Crc32c

/-!
# WAL records

The record codec of `wal/wal_record_codec.cpp`. A record is a 16-byte header (magic, version, type,
zero byte, payload length, checksum of type and payload) and its payload. Version 1 records hold one
entry; version 2 records hold the operations of a write group with consecutive sequences.
-/

namespace TinyLsm

/-- `kWalMagic`. -/
def kWalMagic : ℕ := 0x314c4157

/-- `kWalVersion`. -/
def kWalVersion : ℕ := 1

/-- `kWalBatchVersion`. -/
def kWalBatchVersion : ℕ := 2

/-- `kWalBatchRecordType`. -/
def kWalBatchRecordType : UInt8 := 3

/-- `kWalHeaderSize`. -/
def kWalHeaderSize : ℕ := 16

/-- `kWalPayloadHeaderSize`. -/
def kWalPayloadHeaderSize : ℕ := 16

/-- `kWalBatchPayloadHeaderSize`. -/
def kWalBatchPayloadHeaderSize : ℕ := 4

/-- `kWalBatchEntryHeaderSize`. -/
def kWalBatchEntryHeaderSize : ℕ := 20

/-- `kMaxWalBatchBytes`. -/
def kMaxWalBatchBytes : ℕ := 128 * 1024 * 1024

/-- `kMaxWalBatchOperations`. -/
def kMaxWalBatchOperations : ℕ := 1000000

/-- `DecodeLimits`: the allocation limits applied before field lengths are trusted. -/
structure DecodeLimits where
  maxKeyBytes : ℕ
  maxValueBytes : ℕ
deriving DecidableEq, Repr

/-- A record: header and payload. -/
def walFrame (version : ℕ) (type : UInt8) (payload : Bytes) : Bytes :=
  putFixed32 kWalMagic ++ (putFixed16 version ++ ([type, 0] ++ (putFixed32 payload.length ++
    (putFixed32 (crc32c (type :: payload)) ++ payload))))

/-! ## Single entries (version 1) -/

/-- The payload of a version 1 record. -/
def walRecordPayload (e : InternalEntry) : Bytes :=
  putFixed64 e.sequence ++ (putFixed32 e.userKey.length ++ (putFixed32 e.value.length ++
    (e.userKey ++ e.value)))

/-- `EncodeWalRecord`. -/
def encodeWalRecord (e : InternalEntry) (limits : DecodeLimits) : Result Bytes :=
  if limits.maxKeyBytes < e.userKey.length ∨ limits.maxValueBytes < e.value.length ∨
      2 ^ 32 - 1 < e.userKey.length ∨ 2 ^ 32 - 1 < e.value.length then
    .error (.invalidArgument "WAL key or value exceeds decode limits")
  else if e.type = .tombstone ∧ e.value ≠ [] then
    .error (.invalidArgument "tombstone WAL record has a value")
  else .ok (walFrame kWalVersion e.type.toByte (walRecordPayload e))

/-- `DecodeWalRecord`. -/
def decodeWalRecord (record : Bytes) (limits : DecodeLimits) : Result InternalEntry :=
  if record.length < kWalHeaderSize + kWalPayloadHeaderSize then
    .error (.corruption "WAL record is truncated")
  else
    let magic := (getFixed32 record 0).getD 0
    let version := (getFixed16 record 4).getD 0
    let payloadSize := (getFixed32 record 8).getD 0
    let expectedCrc := (getFixed32 record 12).getD 0
    if magic ≠ kWalMagic ∨ version ≠ kWalVersion ∨ record.getD 7 0 ≠ 0 then
      .error (.corruption "WAL header is invalid")
    else if payloadSize ≠ record.length - kWalHeaderSize then
      .error (.corruption "WAL payload length is invalid")
    else
      match ValueType.ofByte? (record.getD 6 0) with
      | none => .error (.corruption "WAL value type is invalid")
      | some type =>
        if crc32c (record.getD 6 0 :: record.drop kWalHeaderSize) ≠ expectedCrc then
          .error (.corruption "WAL checksum mismatch")
        else
          let sequence := (getFixed64 record 16).getD 0
          let keySize := (getFixed32 record 24).getD 0
          let valueSize := (getFixed32 record 28).getD 0
          if limits.maxKeyBytes < keySize ∨ limits.maxValueBytes < valueSize ∨
              keySize + valueSize + kWalPayloadHeaderSize ≠ payloadSize then
            .error (.corruption "WAL field length is invalid")
          else
            let e : InternalEntry := ⟨(record.drop 32).take keySize, sequence, type,
              (record.drop (32 + keySize)).take valueSize⟩
            if e.type = .tombstone ∧ e.value ≠ [] then
              .error (.corruption "WAL tombstone has a value")
            else .ok e

/-! ## Write groups (version 2) -/

/-- One operation of a version 2 payload. -/
def walBatchEntry (e : InternalEntry) : Bytes :=
  putFixed64 e.sequence ++ ([e.type.toByte, 0, 0, 0] ++ (putFixed32 e.userKey.length ++
    (putFixed32 e.value.length ++ (e.userKey ++ e.value))))

/-- The payload of a version 2 record. -/
def walBatchPayload (entries : List InternalEntry) : Bytes :=
  putFixed32 entries.length ++ entries.flatMap walBatchEntry

/-- The check loop of `EncodeWalBatch`, behind `previousSequence` and with `payloadSize` bytes
counted. -/
def checkWalBatch (limits : DecodeLimits) : ℕ → ℕ → List InternalEntry → Result Unit
  | _, _, [] => .ok ()
  | previousSequence, payloadSize, e :: rest =>
    if e.sequence = 0 ∨ (previousSequence ≠ 0 ∧ e.sequence ≠ previousSequence + 1) then
      .error (.invalidArgument "WAL batch sequences are not consecutive")
    else if limits.maxKeyBytes < e.userKey.length ∨ limits.maxValueBytes < e.value.length ∨
        2 ^ 32 - 1 < e.userKey.length ∨ 2 ^ 32 - 1 < e.value.length then
      .error (.invalidArgument "WAL batch key or value exceeds decode limits")
    else if e.type = .tombstone ∧ e.value ≠ [] then
      .error (.invalidArgument "WAL batch tombstone has a value")
    else
      let payloadSize :=
        payloadSize + (kWalBatchEntryHeaderSize + e.userKey.length + e.value.length)
      if kMaxWalBatchBytes < payloadSize ∨ 2 ^ 32 - 1 < payloadSize then
        .error (.invalidArgument "WAL batch exceeds encoded size limit")
      else checkWalBatch limits e.sequence payloadSize rest

/-- `EncodeWalBatch`. -/
def encodeWalBatch (entries : List InternalEntry) (limits : DecodeLimits) : Result Bytes :=
  if entries = [] then .error (.invalidArgument "WAL batch is empty")
  else if kMaxWalBatchOperations < entries.length then
    .error (.invalidArgument "WAL batch has too many operations")
  else
    match checkWalBatch limits 0 kWalBatchPayloadHeaderSize entries with
    | .error s => .error s
    | .ok _ => .ok (walFrame kWalBatchVersion kWalBatchRecordType (walBatchPayload entries))

/-- The entry loop of `DecodeWalBatch` with `remaining` operations to read at `offset`. -/
def decodeWalBatchEntries (record : Bytes) (limits : DecodeLimits) :
    ℕ → ℕ → ℕ → List InternalEntry → Result (List InternalEntry × ℕ)
  | 0, offset, _, entries => .ok (entries, offset)
  | remaining + 1, offset, previousSequence, entries =>
    if record.length - offset < kWalBatchEntryHeaderSize then
      .error (.corruption "WAL batch entry header is truncated")
    else
      let sequence := (getFixed64 record offset).getD 0
      if record.getD (offset + 9) 0 ≠ 0 ∨ record.getD (offset + 10) 0 ≠ 0 ∨
          record.getD (offset + 11) 0 ≠ 0 then
        .error (.corruption "WAL batch entry flags are invalid")
      else
        let keySize := (getFixed32 record (offset + 12)).getD 0
        let valueSize := (getFixed32 record (offset + 16)).getD 0
        let body := offset + kWalBatchEntryHeaderSize
        if sequence = 0 ∨ (previousSequence ≠ 0 ∧
            (previousSequence = 2 ^ 64 - 1 ∨ sequence ≠ previousSequence + 1)) then
          .error (.corruption "WAL batch sequences are not consecutive")
        else
          match ValueType.ofByte? (record.getD (offset + 8) 0) with
          | none => .error (.corruption "WAL batch value type is invalid")
          | some type =>
            if limits.maxKeyBytes < keySize ∨ limits.maxValueBytes < valueSize ∨
                record.length - body < keySize + valueSize then
              .error (.corruption "WAL batch field length is invalid")
            else
              let e : InternalEntry := ⟨(record.drop body).take keySize, sequence, type,
                (record.drop (body + keySize)).take valueSize⟩
              if e.type = .tombstone ∧ e.value ≠ [] then
                .error (.corruption "WAL batch tombstone has a value")
              else
                decodeWalBatchEntries record limits remaining (body + keySize + valueSize) sequence
                  (entries ++ [e])

/-- `DecodeWalBatch`. -/
def decodeWalBatch (record : Bytes) (limits : DecodeLimits) : Result (List InternalEntry) :=
  if record.length < kWalHeaderSize + kWalBatchPayloadHeaderSize then
    .error (.corruption "WAL batch is truncated")
  else
    let magic := (getFixed32 record 0).getD 0
    let version := (getFixed16 record 4).getD 0
    let payloadSize := (getFixed32 record 8).getD 0
    let expectedCrc := (getFixed32 record 12).getD 0
    if magic ≠ kWalMagic ∨ version ≠ kWalBatchVersion ∨ record.getD 6 0 ≠ kWalBatchRecordType ∨
        record.getD 7 0 ≠ 0 then
      .error (.corruption "WAL batch header is invalid")
    else if payloadSize ≠ record.length - kWalHeaderSize ∨ kMaxWalBatchBytes < payloadSize then
      .error (.corruption "WAL batch payload length is invalid")
    else if crc32c (kWalBatchRecordType :: record.drop kWalHeaderSize) ≠ expectedCrc then
      .error (.corruption "WAL batch checksum mismatch")
    else
      let count := (getFixed32 record kWalHeaderSize).getD 0
      if count = 0 ∨ kMaxWalBatchOperations < count ∨
          payloadSize - kWalBatchPayloadHeaderSize < count * kWalBatchEntryHeaderSize then
        .error (.corruption "WAL batch operation count is invalid")
      else
        match decodeWalBatchEntries record limits count
            (kWalHeaderSize + kWalBatchPayloadHeaderSize) 0 [] with
        | .error s => .error s
        | .ok (entries, offset) =>
          if offset ≠ record.length then .error (.corruption "WAL batch contains trailing bytes")
          else .ok entries

/-! ## What the encoder checks -/

/-- The operations `EncodeWalBatch` accepts behind `previousSequence` (0 at the start). -/
def BatchFits (limits : DecodeLimits) : ℕ → List InternalEntry → Prop
  | _, [] => True
  | previousSequence, e :: rest =>
    e.sequence ≠ 0 ∧ (previousSequence ≠ 0 → e.sequence = previousSequence + 1) ∧
    e.userKey.length ≤ limits.maxKeyBytes ∧ e.value.length ≤ limits.maxValueBytes ∧
    e.userKey.length < 2 ^ 32 ∧ e.value.length < 2 ^ 32 ∧ (e.type = .tombstone → e.value = []) ∧
    BatchFits limits e.sequence rest

@[simp] theorem length_walBatchEntry (e : InternalEntry) :
    (walBatchEntry e).length = 20 + e.userKey.length + e.value.length := by
  simp only [walBatchEntry, List.length_append, length_putFixed32, length_putFixed64,
    List.length_cons, List.length_nil]
  omega

@[simp] theorem length_walFrame (version : ℕ) (type : UInt8) (payload : Bytes) :
    (walFrame version type payload).length = 16 + payload.length := by
  simp only [walFrame, List.length_append, length_putFixed32, length_putFixed16, List.length_cons,
    List.length_nil]
  omega

theorem checkWalBatch_eq_ok {limits : DecodeLimits} {previous size : ℕ} {es : List InternalEntry}
    {u : Unit} (h : checkWalBatch limits previous size es = .ok u) :
    BatchFits limits previous es ∧ (es ≠ [] →
      size + (es.flatMap walBatchEntry).length ≤ kMaxWalBatchBytes) := by
  induction es generalizing previous size with
  | nil => exact ⟨trivial, by simp⟩
  | cons e es ih =>
    simp only [checkWalBatch] at h
    split at h
    · cases h
    rename_i hseq
    split at h
    · cases h
    rename_i hlimits
    split at h
    · cases h
    rename_i htomb
    split at h
    · cases h
    rename_i hsize
    obtain ⟨hfits, hlen⟩ := ih h
    simp only [not_or, not_and, not_lt, not_not, ne_eq] at hseq hlimits htomb hsize
    refine ⟨⟨hseq.1, hseq.2, hlimits.1, hlimits.2.1, by omega, by omega, htomb, hfits⟩, ?_⟩
    intro _
    rw [List.flatMap_cons, List.length_append, length_walBatchEntry]
    simp only [kWalBatchEntryHeaderSize] at hsize hlen
    by_cases hes : es = []
    · simp only [hes, List.flatMap_nil, List.length_nil]
      omega
    · have := hlen hes
      omega

/-- What `EncodeWalBatch` wrote, and what it relies on. -/
structure EncodedBatch (limits : DecodeLimits) (es : List InternalEntry) (bytes : Bytes) : Prop where
  ne_nil : es ≠ []
  count_le : es.length ≤ kMaxWalBatchOperations
  fits : BatchFits limits 0 es
  size_le : (walBatchPayload es).length ≤ kMaxWalBatchBytes
  bytes_eq : bytes = walFrame kWalBatchVersion kWalBatchRecordType (walBatchPayload es)

theorem encodeWalBatch_eq_ok {limits : DecodeLimits} {es : List InternalEntry} {bytes : Bytes}
    (h : encodeWalBatch es limits = .ok bytes) : EncodedBatch limits es bytes := by
  unfold encodeWalBatch at h
  split at h
  · cases h
  rename_i hne
  split at h
  · cases h
  rename_i hcount
  split at h
  · cases h
  rename_i hcheck
  obtain ⟨hfits, hsize⟩ := checkWalBatch_eq_ok hcheck
  refine ⟨hne, not_lt.mp hcount, hfits, ?_, (Except.ok.inj h).symm⟩
  have := hsize hne
  simpa [walBatchPayload, kWalBatchPayloadHeaderSize] using this

theorem checkWalBatch_error {limits : DecodeLimits} {previous size : ℕ} {es : List InternalEntry}
    {status : Status} (h : checkWalBatch limits previous size es = .error status) :
    status.ok = false := by
  induction es generalizing previous size with
  | nil => cases h
  | cons e es ih =>
    simp only [checkWalBatch] at h
    split at h
    · obtain rfl := Except.error.inj h
      rfl
    split at h
    · obtain rfl := Except.error.inj h
      rfl
    split at h
    · obtain rfl := Except.error.inj h
      rfl
    split at h
    · obtain rfl := Except.error.inj h
      rfl
    exact ih h

theorem encodeWalBatch_error {limits : DecodeLimits} {es : List InternalEntry} {status : Status}
    (h : encodeWalBatch es limits = .error status) : status.ok = false := by
  unfold encodeWalBatch at h
  split at h
  · obtain rfl := Except.error.inj h
    rfl
  split at h
  · obtain rfl := Except.error.inj h
    rfl
  split at h
  · rename_i hcheck
    obtain rfl := Except.error.inj h
    exact checkWalBatch_error hcheck
  · cases h

/-! ## Reading a batch back -/

/-- The header fields of a frame inside a longer span. -/
theorem walFrame_fields {version : ℕ} (type : UInt8) (payload : Bytes) (hversion : version < 2 ^ 16)
    (tail : Bytes) :
    getFixed32 (walFrame version type payload ++ tail) 0 = some kWalMagic ∧
    getFixed16 (walFrame version type payload ++ tail) 4 = some version ∧
    getFixed32 (walFrame version type payload ++ tail) 8 = some (payload.length % 2 ^ 32) ∧
    getFixed32 (walFrame version type payload ++ tail) 12 = some (crc32c (type :: payload)) ∧
    (walFrame version type payload ++ tail).getD 6 0 = type ∧
    (walFrame version type payload ++ tail).getD 7 0 = 0 ∧
    (walFrame version type payload ++ tail).drop 16 = payload ++ tail := by
  have hlay : walFrame version type payload ++ tail = putFixed32 kWalMagic ++ (putFixed16 version ++
      ([type, 0] ++ (putFixed32 payload.length ++ (putFixed32 (crc32c (type :: payload)) ++
        (payload ++ tail))))) := by
    simp [walFrame]
  rw [hlay]
  refine ⟨getFixed32_zero _ (by decide) _, getFixed16_append _ hversion (putFixed32 kWalMagic) _
    (by simp), ?_, ?_, ?_, ?_, ?_⟩
  · rw [← List.append_assoc (putFixed32 kWalMagic), ← List.append_assoc _ [type, 0]]
    have hread := LittleEndian.readAt_append_encode 4 payload.length
      (putFixed32 kWalMagic ++ putFixed16 version ++ [type, 0])
      (putFixed32 (crc32c (type :: payload)) ++ (payload ++ tail))
    simpa [getFixed32, putFixed32] using hread
  · rw [← List.append_assoc (putFixed32 kWalMagic), ← List.append_assoc _ [type, 0],
      ← List.append_assoc _ (putFixed32 _)]
    exact getFixed32_append _ (crc32c_lt _) _ _ (by simp)
  · rw [← List.append_assoc (putFixed32 kWalMagic), List.getD_eq_getElem?_getD,
      List.getElem?_append_right (by simp)]
    simp
  · rw [← List.append_assoc (putFixed32 kWalMagic), List.getD_eq_getElem?_getD,
      List.getElem?_append_right (by simp)]
    simp
  · rw [← List.append_assoc (putFixed32 kWalMagic), ← List.append_assoc _ [type, 0],
      ← List.append_assoc _ (putFixed32 _), ← List.append_assoc _ (putFixed32 _)]
    exact List.drop_left' (by simp)

/-- The header fields of a frame whose payload length fits its field. -/
theorem walFrame_header {version : ℕ} (type : UInt8) {payload : Bytes} (hversion : version < 2 ^ 16)
    (hsize : payload.length < 2 ^ 32) (tail : Bytes) :
    getFixed32 (walFrame version type payload ++ tail) 0 = some kWalMagic ∧
    getFixed16 (walFrame version type payload ++ tail) 4 = some version ∧
    getFixed32 (walFrame version type payload ++ tail) 8 = some payload.length ∧
    getFixed32 (walFrame version type payload ++ tail) 12 = some (crc32c (type :: payload)) ∧
    (walFrame version type payload ++ tail).getD 6 0 = type ∧
    (walFrame version type payload ++ tail).getD 7 0 = 0 ∧
    (walFrame version type payload ++ tail).drop 16 = payload ++ tail := by
  have h := walFrame_fields type payload hversion tail
  rwa [Nat.mod_eq_of_lt hsize] at h

/-- What `EncodeWalRecord` wrote, and what it relies on. -/
structure EncodedRecord (limits : DecodeLimits) (e : InternalEntry) (bytes : Bytes) : Prop where
  key_le : e.userKey.length ≤ limits.maxKeyBytes
  value_le : e.value.length ≤ limits.maxValueBytes
  key_lt : e.userKey.length < 2 ^ 32
  value_lt : e.value.length < 2 ^ 32
  tombstone : e.type = .tombstone → e.value = []
  bytes_eq : bytes = walFrame kWalVersion e.type.toByte (walRecordPayload e)

theorem encodeWalRecord_eq_ok {limits : DecodeLimits} {e : InternalEntry} {bytes : Bytes}
    (h : encodeWalRecord e limits = .ok bytes) : EncodedRecord limits e bytes := by
  unfold encodeWalRecord at h
  split at h
  · cases h
  rename_i hsizes
  split at h
  · cases h
  rename_i htomb
  simp only [not_or, not_lt] at hsizes
  simp only [not_and, not_not, ne_eq] at htomb
  exact ⟨hsizes.1, hsizes.2.1, by omega, by omega, htomb, (Except.ok.inj h).symm⟩

@[simp] theorem length_walRecordPayload (e : InternalEntry) :
    (walRecordPayload e).length = 16 + e.userKey.length + e.value.length := by
  simp only [walRecordPayload, List.length_append, length_putFixed32, length_putFixed64]
  omega

/-- `DecodeWalRecord` reads back what `EncodeWalRecord` wrote, when the payload length fits its
32-bit field. -/
theorem EncodedRecord.decode {limits : DecodeLimits} {e : InternalEntry} {bytes : Bytes}
    (h : EncodedRecord limits e bytes) (hsize : (walRecordPayload e).length < 2 ^ 32)
    (hseq : e.sequence < 2 ^ 64) : decodeWalRecord bytes limits = .ok e := by
  have hkey := h.key_le
  have hvalue := h.value_le
  have hpayload := length_walRecordPayload e
  obtain ⟨f1, f2, f3, f4, f5, f6, f7⟩ := walFrame_header e.type.toByte
    (by decide : kWalVersion < 2 ^ 16) hsize []
  simp only [List.append_nil, ← h.bytes_eq] at f1 f2 f3 f4 f5 f6 f7
  have hlen : bytes.length = 16 + (walRecordPayload e).length := by
    rw [h.bytes_eq, length_walFrame]
  have hsplit : bytes = bytes.take 16 ++ (putFixed64 e.sequence ++ (putFixed32 e.userKey.length ++
      (putFixed32 e.value.length ++ (e.userKey ++ e.value)))) := by
    conv_lhs => rw [← List.take_append_drop 16 bytes, f7]
    rfl
  have htake : (bytes.take 16).length = 16 := by rw [List.length_take]; omega
  have g1 : getFixed64 bytes 16 = some e.sequence := by
    rw [hsplit]
    exact getFixed64_append _ hseq _ _ htake.symm
  have g2 : getFixed32 bytes 24 = some e.userKey.length := by
    rw [hsplit, ← List.append_assoc]
    exact getFixed32_append _ h.key_lt _ _ (by simp [htake])
  have g3 : getFixed32 bytes 28 = some e.value.length := by
    rw [hsplit, ← List.append_assoc, ← List.append_assoc _ (putFixed32 _)]
    exact getFixed32_append _ h.value_lt _ _ (by simp [htake])
  have hdrop : bytes.drop 32 = e.userKey ++ e.value := by
    conv_lhs => rw [hsplit, ← List.append_assoc, ← List.append_assoc _ (putFixed32 _),
      ← List.append_assoc _ (putFixed32 _)]
    exact List.drop_left' (by simp [htake])
  have hdrop' : bytes.drop (32 + e.userKey.length) = e.value := by
    rw [← List.drop_drop, hdrop]
    exact List.drop_left' rfl
  unfold decodeWalRecord
  simp only [f1, f2, f3, f4, f5, f6, f7, g1, g2, g3, Option.getD_some, kWalHeaderSize,
    kWalPayloadHeaderSize, ValueType.ofByte?_toByte, hdrop, hdrop', List.take_left, List.take_length]
  rw [if_neg (by omega), if_neg (by simp), if_neg (by omega), if_neg (by simp), if_neg (by omega),
    if_neg (by rintro ⟨ht, hv⟩; exact hv (h.tombstone ht))]

/-- The entry loop reads encoded operations back. -/
theorem decodeWalBatchEntries_eq_ok {record : Bytes} {limits : DecodeLimits}
    (es : List InternalEntry) :
    ∀ (pre : Bytes) (previous : ℕ) (done : List InternalEntry),
      record = pre ++ es.flatMap walBatchEntry → BatchFits limits previous es →
      (∀ e ∈ es, e.sequence < 2 ^ 64) →
      decodeWalBatchEntries record limits es.length pre.length previous done =
        .ok (done ++ es, record.length) := by
  induction es with
  | nil =>
    intro pre previous done hrecord _ _
    simp [decodeWalBatchEntries, hrecord]
  | cons e es ih =>
    intro pre previous done hrecord hfits hseq
    obtain ⟨hne, hnext, hkey, hvalue, hkey32, hvalue32, htomb, hrest⟩ := hfits
    set rest := es.flatMap walBatchEntry with hrestdef
    have hlt := hseq e List.mem_cons_self
    have hlay : record = pre ++ (putFixed64 e.sequence ++ ([e.type.toByte, 0, 0, 0] ++
        (putFixed32 e.userKey.length ++ (putFixed32 e.value.length ++
          (e.userKey ++ (e.value ++ rest)))))) := by
      rw [hrecord, List.flatMap_cons, ← hrestdef]
      simp [walBatchEntry]
    have hlen : record.length = pre.length + (20 + e.userKey.length + e.value.length) + rest.length := by
      rw [hrecord, List.flatMap_cons, ← hrestdef]
      simp only [List.length_append, length_walBatchEntry]
      omega
    have f1 : getFixed64 record pre.length = some e.sequence := by
      rw [hlay]
      exact getFixed64_append _ hlt pre _ rfl
    have hbyte : ∀ i, i < 4 → record.getD (pre.length + (8 + i)) 0 =
        ([e.type.toByte, 0, 0, 0] : Bytes).getD i 0 := by
      intro i hi
      have hindex : pre.length + (8 + i) - (pre ++ putFixed64 e.sequence).length = i := by
        rw [List.length_append, length_putFixed64]
        omega
      rw [hlay, ← List.append_assoc pre, List.getD_eq_getElem?_getD,
        List.getElem?_append_right (by rw [List.length_append, length_putFixed64]; omega), hindex,
        List.getElem?_append_left (by simpa using hi), List.getD_eq_getElem?_getD]
    have f2 : record.getD (pre.length + 8) 0 = e.type.toByte := hbyte 0 (by omega)
    have f3 : record.getD (pre.length + 9) 0 = 0 := hbyte 1 (by omega)
    have f4 : record.getD (pre.length + 10) 0 = 0 := hbyte 2 (by omega)
    have f5 : record.getD (pre.length + 11) 0 = 0 := hbyte 3 (by omega)
    have f6 : getFixed32 record (pre.length + 12) = some e.userKey.length := by
      rw [hlay, getFixed32_append_right, ← List.append_assoc (putFixed64 _)]
      exact getFixed32_append _ hkey32 _ _ (by simp)
    have f7 : getFixed32 record (pre.length + 16) = some e.value.length := by
      rw [hlay, getFixed32_append_right, ← List.append_assoc (putFixed64 _),
        ← List.append_assoc _ (putFixed32 _)]
      exact getFixed32_append _ hvalue32 _ _ (by simp)
    have hdrop : record.drop (pre.length + 20) = e.userKey ++ (e.value ++ rest) := by
      rw [hlay, List.drop_length_add_append, ← List.append_assoc (putFixed64 _),
        ← List.append_assoc _ (putFixed32 _), ← List.append_assoc _ (putFixed32 _)]
      exact List.drop_left' (by simp)
    have hdrop' : record.drop (pre.length + 20 + e.userKey.length) = e.value ++ rest := by
      rw [← List.drop_drop, hdrop]
      exact List.drop_left' rfl
    have hrec := ih (pre ++ walBatchEntry e) e.sequence (done ++ [e])
      (by rw [hrecord, List.flatMap_cons, List.append_assoc]) hrest
      (fun e' he' => hseq e' (List.mem_cons_of_mem _ he'))
    rw [List.length_append, length_walBatchEntry] at hrec
    have hprev : ¬ (e.sequence = 0 ∨ previous ≠ 0 ∧
        (previous = 2 ^ 64 - 1 ∨ e.sequence ≠ previous + 1)) := by
      rintro (h0 | ⟨hp, hmax | hbad⟩)
      · exact hne h0
      · have := hnext hp
        omega
      · exact hbad (hnext hp)
    simp only [List.length_cons, decodeWalBatchEntries, f1, f2, f3, f4, f5, f6, f7,
      Option.getD_some, kWalBatchEntryHeaderSize, hprev, if_false, ValueType.ofByte?_toByte, hdrop,
      hdrop', List.take_left]
    rw [if_neg (by omega), if_neg (by simp), if_neg (by omega),
      if_neg (by rintro ⟨ht, hv⟩; exact hv (htomb ht))]
    simpa [Nat.add_assoc] using hrec

/-- `DecodeWalBatch` reads back what `EncodeWalBatch` wrote. -/
theorem EncodedBatch.decode {limits : DecodeLimits} {es : List InternalEntry} {bytes : Bytes}
    (h : EncodedBatch limits es bytes) (hseq : ∀ e ∈ es, e.sequence < 2 ^ 64) :
    decodeWalBatch bytes limits = .ok es := by
  have hsize := h.size_le
  have hpayload : (walBatchPayload es).length < 2 ^ 32 := by
    simp only [kMaxWalBatchBytes] at hsize
    omega
  obtain ⟨f1, f2, f3, f4, f5, f6, f7⟩ := walFrame_header kWalBatchRecordType
    (by decide : kWalBatchVersion < 2 ^ 16) hpayload []
  simp only [List.append_nil, ← h.bytes_eq] at f1 f2 f3 f4 f5 f6 f7
  have hlen : bytes.length = 16 + (walBatchPayload es).length := by
    rw [h.bytes_eq, length_walFrame]
  have hcount : es.length < 2 ^ 32 := by
    have := h.count_le
    simp only [kMaxWalBatchOperations] at this
    omega
  have hcountRead : getFixed32 bytes 16 = some es.length := by
    have hsplit : bytes = bytes.take 16 ++ (putFixed32 es.length ++ es.flatMap walBatchEntry) := by
      conv_lhs => rw [← List.take_append_drop 16 bytes, f7]
      rfl
    rw [hsplit]
    exact getFixed32_append _ hcount _ _ (by rw [List.length_take]; omega)
  have hbody : bytes = bytes.take 20 ++ es.flatMap walBatchEntry := by
    conv_lhs => rw [← List.take_append_drop 20 bytes]
    have : bytes.drop 20 = (bytes.drop 16).drop 4 := by rw [List.drop_drop]
    rw [this, f7, walBatchPayload]
    congr 1
  have hentries := decodeWalBatchEntries_eq_ok es (bytes.take 20) 0 [] hbody h.fits hseq
  have hpos : 4 ≤ (walBatchPayload es).length := by simp [walBatchPayload]
  have hflat : 20 * es.length ≤ (es.flatMap walBatchEntry).length := by
    clear hentries hbody hcountRead hcount hlen f1 f2 f3 f4 f5 f6 f7 hpayload hsize h hseq hpos
    induction es with
    | nil => simp
    | cons e es ih =>
      simp only [List.flatMap_cons, List.length_append, length_walBatchEntry, List.length_cons]
      omega
  have hpl : (walBatchPayload es).length = 4 + (es.flatMap walBatchEntry).length := by
    simp [walBatchPayload]
  have htake : (bytes.take 20).length = 20 := by rw [List.length_take]; omega
  rw [htake] at hentries
  have hespos : 0 < es.length := List.length_pos_of_ne_nil h.ne_nil
  have hle := h.count_le
  unfold decodeWalBatch
  simp only [f1, f2, f3, f4, f5, f6, f7, Option.getD_some, kWalHeaderSize,
    kWalBatchPayloadHeaderSize, kWalBatchEntryHeaderSize, hcountRead, hentries, List.nil_append]
  rw [if_neg (by omega), if_neg (by simp), if_neg (by omega), if_neg (by simp),
    if_neg (by omega), if_neg (by simp)]

end TinyLsm
