import TinyLsm.Wal.Canonical

/-!
# WAL records decoded with machine integers

`DecodeWalRecord` and `DecodeWalBatch` with every read of the span and every unsigned computation
checked. Neither faults, and both return what the plain decoders return. What they accept is what the
encoders write, and the version keeps the two apart.
-/

namespace TinyLsm

namespace Machine

open Faulting

/-- `DecodeWalRecord`. -/
def decodeWalRecord (record : Bytes) (limits : DecodeLimits) : Faulting (Result InternalEntry) :=
  if record.length < kWalHeaderSize + kWalPayloadHeaderSize then
    .ok (.error (.corruption "WAL record is truncated"))
  else do
    let magic := (← getFixed32 record 0).getD 0
    let version := (← getFixed16 record 4).getD 0
    let payloadSize := (← getFixed32 record 8).getD 0
    let expectedCrc := (← getFixed32 record 12).getD 0
    let invalid ← orElse (magic ≠ kWalMagic ∨ version ≠ kWalVersion) do
      return decide ((← load record 7) ≠ 0)
    if invalid then return .error (.corruption "WAL header is invalid")
    if payloadSize ≠ (← sub record.length kWalHeaderSize) then
      return .error (.corruption "WAL payload length is invalid")
    let typeByte ← load record 6
    match ValueType.ofByte? typeByte with
    | none => return .error (.corruption "WAL value type is invalid")
    | some type =>
      if crc32c (typeByte :: (← slice record kWalHeaderSize payloadSize)) ≠ expectedCrc then
        return .error (.corruption "WAL checksum mismatch")
      let sequence := (← getFixed64 record 16).getD 0
      let keySize := (← getFixed32 record 24).getD 0
      let valueSize := (← getFixed32 record 28).getD 0
      let invalid ← orElse (limits.maxKeyBytes < keySize ∨ limits.maxValueBytes < valueSize) do
        let total ← add 64 (← add 64 keySize valueSize) kWalPayloadHeaderSize
        return decide (total ≠ payloadSize)
      if invalid then return .error (.corruption "WAL field length is invalid")
      let e : InternalEntry := ⟨← slice record 32 keySize, sequence, type,
        ← slice record (32 + keySize) valueSize⟩
      if e.type = .tombstone ∧ e.value ≠ [] then
        return .error (.corruption "WAL tombstone has a value")
      return .ok e

/-- The entry loop of `DecodeWalBatch` with `remaining` operations to read at `offset`. -/
def decodeWalBatchEntries (record : Bytes) (limits : DecodeLimits) :
    ℕ → ℕ → ℕ → List InternalEntry → Faulting (Result (List InternalEntry × ℕ))
  | 0, offset, _, entries => .ok (.ok (entries, offset))
  | remaining + 1, offset, previousSequence, entries => do
    if (← sub record.length offset) < kWalBatchEntryHeaderSize then
      return .error (.corruption "WAL batch entry header is truncated")
    let sequence := (← getFixed64 record offset).getD 0
    let typeByte ← load record (← add 64 offset 8)
    let flagged ← orElse ((← load record (← add 64 offset 9)) ≠ 0) do
      orElse ((← load record (← add 64 offset 10)) ≠ 0) do
        return decide ((← load record (← add 64 offset 11)) ≠ 0)
    if flagged then return .error (.corruption "WAL batch entry flags are invalid")
    let keySize := (← getFixed32 record (← add 64 offset 12)).getD 0
    let valueSize := (← getFixed32 record (← add 64 offset 16)).getD 0
    let offset ← add 64 offset kWalBatchEntryHeaderSize
    let gap ← orElse (sequence = 0) do
      andAlso (previousSequence ≠ 0) do
        orElse (previousSequence = 2 ^ 64 - 1) do
          return decide (sequence ≠ (← add 64 previousSequence 1))
    if gap then return .error (.corruption "WAL batch sequences are not consecutive")
    match ValueType.ofByte? typeByte with
    | none => return .error (.corruption "WAL batch value type is invalid")
    | some type =>
      let invalid ← orElse (limits.maxKeyBytes < keySize ∨ limits.maxValueBytes < valueSize) do
        let total ← add 64 keySize valueSize
        return decide ((← sub record.length offset) < total)
      if invalid then return .error (.corruption "WAL batch field length is invalid")
      let key ← slice record offset keySize
      let offset ← add 64 offset keySize
      let value ← slice record offset valueSize
      let offset ← add 64 offset valueSize
      if type = .tombstone ∧ value ≠ [] then
        return .error (.corruption "WAL batch tombstone has a value")
      decodeWalBatchEntries record limits remaining offset sequence
        (entries ++ [⟨key, sequence, type, value⟩])

/-- `DecodeWalBatch`. -/
def decodeWalBatch (record : Bytes) (limits : DecodeLimits) :
    Faulting (Result (List InternalEntry)) :=
  if record.length < kWalHeaderSize + kWalBatchPayloadHeaderSize then
    .ok (.error (.corruption "WAL batch is truncated"))
  else do
    let magic := (← getFixed32 record 0).getD 0
    let version := (← getFixed16 record 4).getD 0
    let payloadSize := (← getFixed32 record 8).getD 0
    let expectedCrc := (← getFixed32 record 12).getD 0
    let invalid ← orElse (magic ≠ kWalMagic ∨ version ≠ kWalBatchVersion) do
      orElse ((← load record 6) ≠ kWalBatchRecordType) do
        return decide ((← load record 7) ≠ 0)
    if invalid then return .error (.corruption "WAL batch header is invalid")
    if payloadSize ≠ (← sub record.length kWalHeaderSize) ∨ kMaxWalBatchBytes < payloadSize then
      return .error (.corruption "WAL batch payload length is invalid")
    if crc32c (kWalBatchRecordType :: (← slice record kWalHeaderSize payloadSize)) ≠ expectedCrc then
      return .error (.corruption "WAL batch checksum mismatch")
    let count := (← getFixed32 record kWalHeaderSize).getD 0
    let invalid ← orElse (count = 0 ∨ kMaxWalBatchOperations < count) do
      let headers ← mul 64 count kWalBatchEntryHeaderSize
      return decide ((← sub payloadSize kWalBatchPayloadHeaderSize) < headers)
    if invalid then return .error (.corruption "WAL batch operation count is invalid")
    match ← decodeWalBatchEntries record limits count
        (kWalHeaderSize + kWalBatchPayloadHeaderSize) 0 [] with
    | .error s => return .error s
    | .ok (entries, offset) =>
      if offset ≠ record.length then
        return .error (.corruption "WAL batch contains trailing bytes")
      return .ok entries

variable {record : Bytes} {limits : DecodeLimits}

/-- `DecodeWalRecord` does not fault. -/
theorem decodeWalRecord_eq (h : record.length < 2 ^ 64) :
    decodeWalRecord record limits = .ok (TinyLsm.decodeWalRecord record limits) := by
  unfold decodeWalRecord TinyLsm.decodeWalRecord
  split
  · rfl
  rename_i hlen
  simp only [kWalHeaderSize, kWalPayloadHeaderSize, not_lt] at hlen ⊢
  have hkey : (TinyLsm.getFixed32 record 24).getD 0 < 2 ^ 32 := LittleEndian.readAt_lt record 24
  have hvalue : (TinyLsm.getFixed32 record 28).getD 0 < 2 ^ 32 := LittleEndian.readAt_lt record 28
  simp only [getFixed16_eq h, getFixed32_eq h, getFixed64_eq h, ok_bind,
    load_of_lt 0 (by omega : 6 < record.length), load_of_lt 0 (by omega : 7 < record.length),
    sub_of_le (by omega : 16 ≤ record.length), orElse_pure, decide_eq_true_eq, or_assoc]
  refine ite_pure fun _ => ite_pure fun hsize => ?_
  cases ValueType.ofByte? (record.getD 6 0) with
  | none => rfl
  | some type =>
    rw [not_not] at hsize
    simp only [slice_of_le (by omega : 16 + (TinyLsm.getFixed32 record 8).getD 0 ≤ record.length),
      ok_bind, add_of_lt (by omega : (TinyLsm.getFixed32 record 24).getD 0 +
        (TinyLsm.getFixed32 record 28).getD 0 < 2 ^ 64), add_of_lt (by omega :
        (TinyLsm.getFixed32 record 24).getD 0 + (TinyLsm.getFixed32 record 28).getD 0 + 16 < 2 ^ 64),
      orElse_pure, decide_eq_true_eq, or_assoc]
    rw [List.take_of_length_le (by rw [List.length_drop]; omega)]
    refine ite_pure fun _ => ite_pure fun hfields => ?_
    simp only [not_or, not_not] at hfields
    rw [slice_of_le (by omega), ok_bind, slice_of_le (by omega), ok_bind]
    exact ite_pure fun _ => rfl

/-- The successor is only computed below the maximum. -/
theorem orElse_successor {sequence previous : ℕ} (h : previous < 2 ^ 64) :
    (orElse (previous = 2 ^ 64 - 1) do return decide (sequence ≠ (← add 64 previous 1))) =
      .ok (decide (previous = 2 ^ 64 - 1 ∨ sequence ≠ previous + 1)) := by
  by_cases hmax : previous = 2 ^ 64 - 1
  · simp [orElse, hmax]
  · rw [add_of_lt (by omega), ok_bind, orElse_pure]

/-- The entry loop stays inside the record. -/
theorem decodeWalBatchEntries_eq (h : record.length < 2 ^ 64) {remaining : ℕ} :
    ∀ {offset previous : ℕ} {entries : List InternalEntry}, offset ≤ record.length →
      previous < 2 ^ 64 →
      decodeWalBatchEntries record limits remaining offset previous entries =
        .ok (TinyLsm.decodeWalBatchEntries record limits remaining offset previous entries) := by
  induction remaining with
  | zero => intros; rfl
  | succ remaining ih =>
    intro offset previous entries hoffset hprevious
    unfold decodeWalBatchEntries TinyLsm.decodeWalBatchEntries
    rw [sub_of_le hoffset, ok_bind]
    refine ite_pure fun hheader => ?_
    simp only [kWalBatchEntryHeaderSize, not_lt] at hheader ⊢
    have hkey : (TinyLsm.getFixed32 record (offset + 12)).getD 0 < 2 ^ 32 :=
      LittleEndian.readAt_lt record _
    have hvalue : (TinyLsm.getFixed32 record (offset + 16)).getD 0 < 2 ^ 32 :=
      LittleEndian.readAt_lt record _
    have hsequence : (TinyLsm.getFixed64 record offset).getD 0 < 2 ^ 64 :=
      LittleEndian.readAt_lt record _
    simp (disch := omega) only [getFixed32_eq h, getFixed64_eq h, ok_bind, add_of_lt,
      load_of_lt (0 : UInt8), sub_of_le, orElse_pure, orElse_ok, andAlso_ok, orElse_successor,
      decide_eq_true_eq, or_assoc]
    refine ite_pure fun _ => ite_pure fun _ => ?_
    cases ValueType.ofByte? (record.getD (offset + 8) 0) with
    | none => rfl
    | some type =>
      refine ite_pure fun hfields => ?_
      simp only [not_or, not_lt] at hfields
      simp (disch := omega) only [slice_of_le, ok_bind]
      exact ite_pure fun _ => ih (by omega) hsequence

/-- `DecodeWalBatch` does not fault. -/
theorem decodeWalBatch_eq (h : record.length < 2 ^ 64) :
    decodeWalBatch record limits = .ok (TinyLsm.decodeWalBatch record limits) := by
  unfold decodeWalBatch TinyLsm.decodeWalBatch
  split
  · rfl
  rename_i hlen
  simp only [kWalHeaderSize, kWalBatchPayloadHeaderSize, kWalBatchEntryHeaderSize,
    not_lt] at hlen ⊢
  have hcount : (TinyLsm.getFixed32 record 16).getD 0 < 2 ^ 32 := LittleEndian.readAt_lt record 16
  simp (disch := omega) only [getFixed16_eq h, getFixed32_eq h, ok_bind, load_of_lt (0 : UInt8),
    sub_of_le, orElse_pure, orElse_ok, decide_eq_true_eq, or_assoc]
  refine ite_pure fun _ => ite_pure fun hsize => ?_
  simp only [not_or, not_not, not_lt] at hsize
  simp (disch := omega) only [slice_of_le, ok_bind, mul_of_lt, orElse_pure, decide_eq_true_eq,
    or_assoc]
  rw [List.take_of_length_le (by rw [List.length_drop]; omega)]
  refine ite_pure fun _ => ite_pure fun _ => ?_
  rw [decodeWalBatchEntries_eq h (by omega) (by omega), ok_bind]
  cases TinyLsm.decodeWalBatchEntries record limits ((TinyLsm.getFixed32 record 16).getD 0)
      (16 + 4) 0 [] with
  | error s => rfl
  | ok result => exact ite_pure fun _ => rfl

end Machine

/-! ## The batch format is canonical -/

theorem checkWalBatch_of_fits {limits : DecodeLimits} {previous size : ℕ} {es : List InternalEntry}
    (hfits : BatchFits limits previous es)
    (hsize : size + (es.flatMap walBatchEntry).length ≤ kMaxWalBatchBytes) :
    checkWalBatch limits previous size es = .ok () := by
  induction es generalizing previous size with
  | nil => rfl
  | cons e es ih =>
    obtain ⟨hseq, hnext, hkey, hvalue, hkey32, hvalue32, htomb, hrest⟩ := hfits
    rw [List.flatMap_cons, List.length_append, length_walBatchEntry] at hsize
    have hmax : kMaxWalBatchBytes < 2 ^ 32 - 1 := by decide
    have hheader : kWalBatchEntryHeaderSize = 20 := rfl
    simp only [checkWalBatch]
    rw [if_neg (by tauto), if_neg (by omega), if_neg (by tauto), if_neg (by omega)]
    exact ih hrest (by omega)

/-- `EncodeWalBatch` writes a record that has the form of one. -/
theorem EncodedBatch.encode {limits : DecodeLimits} {es : List InternalEntry} {bytes : Bytes}
    (h : EncodedBatch limits es bytes) : encodeWalBatch es limits = .ok bytes := by
  have hsize := h.size_le
  rw [walBatchPayload, List.length_append, length_putFixed32] at hsize
  have hcheck : checkWalBatch limits 0 kWalBatchPayloadHeaderSize es = .ok () :=
    checkWalBatch_of_fits h.fits hsize
  rw [encodeWalBatch, if_neg h.ne_nil, if_neg (not_lt.mpr h.count_le), hcheck, h.bytes_eq]

/-- A record and a batch have different versions. -/
theorem walRecord_ne_walBatch {limits limits' : DecodeLimits} {e : InternalEntry}
    {es : List InternalEntry} {bytes : Bytes} (he : EncodedRecord limits e bytes)
    (hes : EncodedBatch limits' es bytes) : False := by
  have hrecord := (walFrame_fields e.type.toByte (walRecordPayload e)
    (by decide : kWalVersion < 2 ^ 16) []).2.1
  have hbatch := (walFrame_fields kWalBatchRecordType (walBatchPayload es)
    (by decide : kWalBatchVersion < 2 ^ 16) []).2.1
  rw [← he.bytes_eq] at hrecord
  rw [← hes.bytes_eq, hrecord] at hbatch
  exact absurd hbatch (by decide)

/-- The batch format is canonical, and its decoder is safe on every byte string. -/
theorem wal_batch_format_is_canonical (limits : DecodeLimits) (b : Bytes)
    (hb : b.length < 2 ^ 64) :
    Machine.decodeWalBatch b limits = .ok (decodeWalBatch b limits) ∧
    Machine.decodeWalRecord b limits = .ok (decodeWalRecord b limits) ∧
    (∀ es, decodeWalBatch b limits = .ok es → encodeWalBatch es limits = .ok b) ∧
    (∀ es, (∀ e ∈ es, e.sequence < 2 ^ 64) → encodeWalBatch es limits = .ok b →
      decodeWalBatch b limits = .ok es) ∧
    ∀ limits' e es, ¬ (decodeWalRecord b limits' = .ok e ∧ decodeWalBatch b limits = .ok es) := by
  refine ⟨Machine.decodeWalBatch_eq hb, Machine.decodeWalRecord_eq hb, fun es hes => ?_,
    fun es hseq hes => ?_, fun limits' e es => ?_⟩
  · exact (decodeWalBatch_eq_ok hes).1.encode
  · exact (encodeWalBatch_eq_ok hes).decode hseq
  · rintro ⟨hrecord, hbatch⟩
    exact walRecord_ne_walBatch (decodeWalRecord_eq_ok hrecord).1 (decodeWalBatch_eq_ok hbatch).1

/-- Two puts and a delete. -/
def threeOperations : List InternalEntry :=
  [⟨[97], 7, .value, [120]⟩, ⟨[98], 8, .tombstone, []⟩, ⟨[97, 99], 9, .value, [121, 122]⟩]

/-- A batch of three operations reads back, and the decoder of single records refuses it. -/
theorem wal_batch_format_is_canonical_three :
    ∃ b, encodeWalBatch threeOperations ⟨4, 4⟩ = .ok b ∧
      Machine.decodeWalBatch b ⟨4, 4⟩ = .ok (.ok threeOperations) ∧
      ∀ limits e, decodeWalRecord b limits ≠ .ok e := by
  refine ⟨_, rfl, ?_⟩
  obtain ⟨hsafe, -, -, hread, hdisjoint⟩ := wal_batch_format_is_canonical ⟨4, 4⟩
    (walFrame kWalBatchVersion kWalBatchRecordType (walBatchPayload threeOperations))
    (by decide +kernel)
  have hbatch := hread threeOperations (by decide) rfl
  exact ⟨by rw [hsafe, hbatch], fun limits e hrecord => hdisjoint limits e _ ⟨hrecord, hbatch⟩⟩

end TinyLsm
