import TinyLsm.Wal.Log

/-!
# Accepted records are canonical

What `DecodeWalRecord` and `DecodeWalBatch` accept is exactly what the encoders write for the entries
they return. Every rejection is a `Corruption`.
-/

namespace TinyLsm

variable {limits : DecodeLimits} {record : Bytes}

/-! ## Accepted records -/

/-- The header and the payload of a record whose header passed the checks. -/
theorem eq_walFrame {version : ℕ} {type : UInt8} (hlen : 16 ≤ record.length)
    (hmagic : (getFixed32 record 0).getD 0 = kWalMagic)
    (hversion : (getFixed16 record 4).getD 0 = version) (htype : record.getD 6 0 = type)
    (hzero : record.getD 7 0 = 0) (hsize : (getFixed32 record 8).getD 0 = record.length - 16)
    (hcrc : (getFixed32 record 12).getD 0 = crc32c (type :: record.drop 16)) :
    record = walFrame version type (record.drop 16) := by
  have hpayload : (record.drop 16).length = record.length - 16 := List.length_drop
  calc record = record.drop 0 := rfl
    _ = putFixed32 kWalMagic ++ record.drop 4 := by
      rw [drop_eq_putFixed32 (by omega), hmagic]
    _ = putFixed32 kWalMagic ++ (putFixed16 version ++ record.drop 6) := by
      rw [drop_eq_putFixed16 (by omega : 4 + 2 ≤ record.length), hversion]
    _ = putFixed32 kWalMagic ++ (putFixed16 version ++ ([type, 0] ++ record.drop 8)) := by
      rw [drop_eq_getD_cons (by omega : 6 < record.length),
        drop_eq_getD_cons (by omega : 7 < record.length), htype, hzero]
      rfl
    _ = walFrame version type (record.drop 16) := by
      rw [drop_eq_putFixed32 (by omega : 8 + 4 ≤ record.length), hsize,
        drop_eq_putFixed32 (by omega : 12 + 4 ≤ record.length), hcrc, walFrame, hpayload]

/-- `DecodeWalRecord` accepts only what `EncodeWalRecord` writes. -/
theorem decodeWalRecord_eq_ok {e : InternalEntry} (h : decodeWalRecord record limits = .ok e) :
    EncodedRecord limits e record ∧ e.sequence < 2 ^ 64 := by
  unfold decodeWalRecord at h
  dsimp only at h
  split at h
  · cases h
  rename_i hlen
  split at h
  · cases h
  rename_i hheader
  split at h
  · cases h
  rename_i hsize
  split at h
  · cases h
  rename_i type htype
  split at h
  · cases h
  rename_i hcrc
  split at h
  · cases h
  rename_i hfields
  split at h
  · cases h
  rename_i htomb
  simp only [not_or, not_not, ne_eq, not_lt, kWalHeaderSize,
    kWalPayloadHeaderSize] at hlen hheader hsize hcrc hfields
  obtain ⟨hmagic, hversion, hzero⟩ := hheader
  obtain ⟨hkey, hvalue, htotal⟩ := hfields
  have hkey32 : (getFixed32 record 24).getD 0 < 2 ^ 32 := LittleEndian.readAt_lt record 24
  have hvalue32 : (getFixed32 record 28).getD 0 < 2 ^ 32 := LittleEndian.readAt_lt record 28
  have hseq : (getFixed64 record 16).getD 0 < 2 ^ 64 := LittleEndian.readAt_lt record 16
  set keySize := (getFixed32 record 24).getD 0 with hkeySize
  set valueSize := (getFixed32 record 28).getD 0 with hvalueSize
  set key := (record.drop 32).take keySize with hkeydef
  set value := (record.drop (32 + keySize)).take valueSize with hvaluedef
  have hkeylen : key.length = keySize := by
    rw [hkeydef, List.length_take, List.length_drop]
    omega
  have hvaluelen : value.length = valueSize := by
    rw [hvaluedef, List.length_take, List.length_drop]
    omega
  obtain rfl := Except.ok.inj h
  have hbody : record.drop 32 = key ++ value := by
    rw [hvaluedef, List.take_of_length_le (by rw [List.length_drop]; omega), ← List.drop_drop,
      hkeydef, List.take_append_drop]
  have hpayload : record.drop 16 = walRecordPayload
      ⟨key, (getFixed64 record 16).getD 0, type, value⟩ := by
    rw [drop_eq_putFixed64 (by omega : 16 + 8 ≤ record.length),
      drop_eq_putFixed32 (by omega : 24 + 4 ≤ record.length),
      drop_eq_putFixed32 (by omega : 28 + 4 ≤ record.length), hbody, ← hkeySize, ← hvalueSize,
      walRecordPayload, hkeylen, hvaluelen]
  have hbyte : record.getD 6 0 = type.toByte := (ValueType.toByte_of_ofByte? htype).symm
  refine ⟨⟨by rw [hkeylen]; exact hkey, by rw [hvaluelen]; exact hvalue, by rw [hkeylen]; exact hkey32,
    by rw [hvaluelen]; exact hvalue32, by simpa using htomb, ?_⟩, hseq⟩
  rw [← hpayload]
  exact eq_walFrame (by omega) hmagic hversion hbyte hzero hsize (by rw [← hcrc, hbyte])

theorem decodeWalBatchEntries_sound {remaining : ℕ} :
    ∀ {offset previous next : ℕ} {done es : List InternalEntry}, offset ≤ record.length →
      decodeWalBatchEntries record limits remaining offset previous done = .ok (es, next) →
      ∃ new, es = done ++ new ∧ new.length = remaining ∧ next ≤ record.length ∧
        record.drop offset = new.flatMap walBatchEntry ++ record.drop next ∧
        BatchFits limits previous new ∧ ∀ e ∈ new, e.sequence < 2 ^ 64 := by
  induction remaining with
  | zero =>
    intro offset previous next done es hle h
    obtain ⟨rfl, rfl⟩ := Prod.mk.inj (Except.ok.inj h)
    exact ⟨[], by simp, rfl, hle, by simp, trivial, by simp⟩
  | succ remaining ih =>
    intro offset previous next done es hle h
    rw [decodeWalBatchEntries] at h
    dsimp only at h
    split at h
    · cases h
    rename_i hlen
    split at h
    · cases h
    rename_i hflags
    split at h
    · cases h
    rename_i hsequence
    split at h
    · cases h
    rename_i type htype
    split at h
    · cases h
    rename_i hfields
    split at h
    · cases h
    rename_i htomb
    simp only [not_or, not_not, not_and, ne_eq, not_lt,
      kWalBatchEntryHeaderSize] at hlen hflags hsequence hfields htomb h
    obtain ⟨hkey, hvalue, htotal⟩ := hfields
    have hkey32 : (getFixed32 record (offset + 12)).getD 0 < 2 ^ 32 := LittleEndian.readAt_lt record _
    have hvalue32 : (getFixed32 record (offset + 16)).getD 0 < 2 ^ 32 :=
      LittleEndian.readAt_lt record _
    have hseq : (getFixed64 record offset).getD 0 < 2 ^ 64 := LittleEndian.readAt_lt record _
    set keySize := (getFixed32 record (offset + 12)).getD 0 with hkeySize
    set valueSize := (getFixed32 record (offset + 16)).getD 0 with hvalueSize
    set sequence := (getFixed64 record offset).getD 0 with hsequencedef
    set key := (record.drop (offset + 20)).take keySize with hkeydef
    set value := (record.drop (offset + 20 + keySize)).take valueSize with hvaluedef
    have hkeylen : key.length = keySize := by
      rw [hkeydef, List.length_take, List.length_drop]
      omega
    have hvaluelen : value.length = valueSize := by
      rw [hvaluedef, List.length_take, List.length_drop]
      omega
    have hbyte : record.getD (offset + 8) 0 = type.toByte :=
      (ValueType.toByte_of_ofByte? htype).symm
    have hentry : record.drop offset = walBatchEntry ⟨key, sequence, type, value⟩ ++
        record.drop (offset + 20 + keySize + valueSize) := by
      have hbody : record.drop (offset + 20) = key ++ (value ++
          record.drop (offset + 20 + keySize + valueSize)) := by
        have hkeys := List.take_append_drop keySize (record.drop (offset + 20))
        have hvalues := List.take_append_drop valueSize (record.drop (offset + 20 + keySize))
        rw [List.drop_drop] at hkeys hvalues
        rw [hvaluedef, hvalues, hkeydef, hkeys]
      rw [drop_eq_putFixed64 (by omega : offset + 8 ≤ record.length),
        drop_eq_getD_cons (by omega : offset + 8 < record.length),
        drop_eq_getD_cons (by omega : offset + 9 < record.length),
        drop_eq_getD_cons (by omega : offset + 10 < record.length),
        drop_eq_getD_cons (by omega : offset + 11 < record.length),
        drop_eq_putFixed32 (by omega : offset + 12 + 4 ≤ record.length),
        drop_eq_putFixed32 (by omega : offset + 16 + 4 ≤ record.length), hbody, hbyte, hflags.1,
        hflags.2.1, hflags.2.2, ← hkeySize, ← hvalueSize, ← hsequencedef, walBatchEntry, hkeylen,
        hvaluelen]
      simp
    obtain ⟨new, hes, hnew, hnext, hrest, hfits, hlt⟩ := ih (by omega) h
    refine ⟨⟨key, sequence, type, value⟩ :: new, by simp [hes], by simp [hnew], hnext, ?_, ?_, ?_⟩
    · rw [hentry, hrest, List.flatMap_cons, List.append_assoc]
    · refine ⟨hsequence.1, fun hp => (hsequence.2 hp).2, by rw [hkeylen]; exact hkey,
        by rw [hvaluelen]; exact hvalue, by rw [hkeylen]; exact hkey32,
        by rw [hvaluelen]; exact hvalue32, by simpa using htomb, hfits⟩
    · rintro e he
      rcases List.mem_cons.mp he with rfl | he
      · exact hseq
      · exact hlt e he

/-- `DecodeWalBatch` accepts only what `EncodeWalBatch` writes. -/
theorem decodeWalBatch_eq_ok {es : List InternalEntry} (h : decodeWalBatch record limits = .ok es) :
    EncodedBatch limits es record ∧ ∀ e ∈ es, e.sequence < 2 ^ 64 := by
  unfold decodeWalBatch at h
  dsimp only at h
  split at h
  · cases h
  rename_i hlen
  split at h
  · cases h
  rename_i hheader
  split at h
  · cases h
  rename_i hsize
  split at h
  · cases h
  rename_i hcrc
  split at h
  · cases h
  rename_i hcount
  split at h
  · cases h
  rename_i entries offset hentries
  split at h
  · cases h
  rename_i hend
  obtain rfl := Except.ok.inj h
  simp only [not_or, not_not, ne_eq, not_lt, kWalHeaderSize, kWalBatchPayloadHeaderSize,
    kWalBatchEntryHeaderSize] at hlen hheader hsize hcrc hcount hentries hend
  obtain ⟨hmagic, hversion, htype, hzero⟩ := hheader
  subst hend
  obtain ⟨new, hnew, hlength, -, hdrop, hfits, hlt⟩ :=
    decodeWalBatchEntries_sound (by omega) hentries
  rw [List.nil_append] at hnew
  subst hnew
  rw [List.drop_length, List.append_nil] at hdrop
  have hpayload : record.drop 16 = walBatchPayload entries := by
    rw [drop_eq_putFixed32 (by omega : 16 + 4 ≤ record.length), hdrop, ← hlength, walBatchPayload]
  refine ⟨⟨?_, by omega, hfits, ?_, ?_⟩, hlt⟩
  · rintro rfl
    exact hcount.1 hlength.symm
  · rw [← hpayload, List.length_drop]
    omega
  · rw [← hpayload]
    exact eq_walFrame (by omega) hmagic hversion htype hzero hsize.1 (by rw [hcrc])

/-- A record that replay accepts is one the encoder wrote, behind the sequence before it. -/
theorem decodeFrame_eq_ok {version previous : ℕ} {es : List InternalEntry}
    (h : decodeFrame limits version previous record = .ok es) :
    ∃ r : WalRecord, r.Encoded limits record ∧ es = r.entries ∧
      (∀ e ∈ es, e.sequence < 2 ^ 64) ∧ ∀ front ∈ es.head?, previous < front.sequence := by
  unfold decodeFrame at h
  split at h
  · split at h
    · cases h
    rename_i e he
    split at h
    · cases h
    rename_i hnot
    obtain rfl := Except.ok.inj h
    obtain ⟨henc, hlt⟩ := decodeWalRecord_eq_ok he
    refine ⟨.single e, henc, rfl, by simpa using hlt, ?_⟩
    rintro front hfront
    obtain rfl := Option.some.inj hfront
    exact not_le.mp hnot
  · split at h
    · cases h
    rename_i entries hentries
    obtain ⟨henc, hlt⟩ := decodeWalBatch_eq_ok hentries
    split at h
    · rename_i front hfront
      split at h
      · cases h
      rename_i hnot
      obtain rfl := Except.ok.inj h
      refine ⟨.batch entries, henc, rfl, hlt, fun front' hfront' => ?_⟩
      rw [hfront] at hfront'
      obtain rfl := Option.some.inj hfront'
      exact not_le.mp hnot
    · rename_i hnone
      exact absurd (List.head?_eq_none_iff.mp hnone) henc.ne_nil

/-! ## Rejected records -/

theorem decodeWalRecord_error {s : Status} (h : decodeWalRecord record limits = .error s) :
    s.code = .corruption := by
  unfold decodeWalRecord at h
  dsimp only at h
  repeat' split at h
  all_goals first
    | (obtain rfl := Except.error.inj h; rfl)
    | cases h

theorem decodeWalBatchEntries_error {remaining : ℕ} {s : Status} :
    ∀ {offset previous : ℕ} {done : List InternalEntry},
      decodeWalBatchEntries record limits remaining offset previous done = .error s →
      s.code = .corruption := by
  induction remaining with
  | zero => intro _ _ _ h; cases h
  | succ remaining ih =>
    intro offset previous done h
    rw [decodeWalBatchEntries] at h
    dsimp only at h
    repeat' split at h
    all_goals first
      | exact ih h
      | (obtain rfl := Except.error.inj h; rfl)

theorem decodeWalBatch_error {s : Status} (h : decodeWalBatch record limits = .error s) :
    s.code = .corruption := by
  unfold decodeWalBatch at h
  dsimp only at h
  repeat' split at h
  all_goals first
    | (obtain rfl := Except.error.inj h; rfl)
    | (rename_i hentries; obtain rfl := Except.error.inj h; exact decodeWalBatchEntries_error hentries)
    | cases h

theorem decodeFrame_error {version previous : ℕ} {s : Status}
    (h : decodeFrame limits version previous record = .error s) : s.code = .corruption := by
  unfold decodeFrame at h
  repeat' split at h
  all_goals first
    | (obtain rfl := Except.error.inj h; rfl)
    | (rename_i hdecode; obtain rfl := Except.error.inj h; exact decodeWalRecord_error hdecode)
    | (rename_i hdecode; obtain rfl := Except.error.inj h; exact decodeWalBatch_error hdecode)
    | cases h

end TinyLsm
