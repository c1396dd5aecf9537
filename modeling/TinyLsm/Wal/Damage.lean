import TinyLsm.Wal.Canonical
import TinyLsm.Util.ByteChange

/-!
# Damaged WAL files

What recovery does with a log in which one byte was replaced. The record checksum covers the type and
the payload; the payload length is trusted before it is checked, so a length that reaches behind the
end of the file makes the damaged record and all records behind it look like a torn tail.
-/

namespace TinyLsm

namespace WalRecord

/-- The version field of a record. -/
def version : WalRecord → ℕ
  | single _ => kWalVersion
  | batch _ => kWalBatchVersion

/-- The type field of a record. -/
def type : WalRecord → UInt8
  | single e => e.type.toByte
  | batch _ => kWalBatchRecordType

variable {limits : DecodeLimits} {r r' : WalRecord} {bytes : Bytes}

theorem Encoded.bytes_eq (h : r.Encoded limits bytes) :
    bytes = walFrame r.version r.type r.payload := by
  cases r with
  | single e => exact EncodedRecord.bytes_eq h
  | batch es => exact EncodedBatch.bytes_eq h

theorem Encoded.entries_ne_nil (h : r.Encoded limits bytes) : r.entries ≠ [] := by
  cases r with
  | single e => exact List.cons_ne_nil _ _
  | batch es => exact EncodedBatch.ne_nil h

theorem Encoded.length_eq (h : r.Encoded limits bytes) : bytes.length = 16 + r.payload.length := by
  rw [h.bytes_eq, length_walFrame]

theorem version_cases (r : WalRecord) : r.version = kWalVersion ∨ r.version = kWalBatchVersion := by
  cases r with
  | single e => exact .inl rfl
  | batch es => exact .inr rfl

/-- The type tells the two kinds of records apart. -/
theorem version_eq_of_type_eq (h : r.type = r'.type) : r.version = r'.version := by
  have hne : ∀ t : ValueType, t.toByte ≠ kWalBatchRecordType := by
    intro t
    cases t <;> decide
  cases r with
  | single e =>
    cases r' with
    | single e' => rfl
    | batch es' => exact absurd h (hne _)
  | batch es =>
    cases r' with
    | single e' => exact absurd h.symm (hne _)
    | batch es' => rfl

end WalRecord

/-! ## Payloads delimit themselves -/

theorem walRecordPayload_sizes {e : InternalEntry} (hkey : e.userKey.length < 2 ^ 32)
    (hvalue : e.value.length < 2 ^ 32) (rest : Bytes) :
    getFixed32 (walRecordPayload e ++ rest) 8 = some e.userKey.length ∧
      getFixed32 (walRecordPayload e ++ rest) 12 = some e.value.length := by
  have hlay : walRecordPayload e ++ rest = putFixed64 e.sequence ++ (putFixed32 e.userKey.length ++
      (putFixed32 e.value.length ++ (e.userKey ++ (e.value ++ rest)))) := by
    simp [walRecordPayload]
  rw [hlay]
  refine ⟨getFixed32_append _ hkey _ _ (by simp), ?_⟩
  rw [← List.append_assoc]
  exact getFixed32_append _ hvalue _ _ (by simp)

theorem walBatchEntry_sizes {e : InternalEntry} (hkey : e.userKey.length < 2 ^ 32)
    (hvalue : e.value.length < 2 ^ 32) (rest : Bytes) :
    getFixed32 (walBatchEntry e ++ rest) 12 = some e.userKey.length ∧
      getFixed32 (walBatchEntry e ++ rest) 16 = some e.value.length := by
  have hlay : walBatchEntry e ++ rest = (putFixed64 e.sequence ++ [e.type.toByte, 0, 0, 0]) ++
      (putFixed32 e.userKey.length ++ (putFixed32 e.value.length ++ (e.userKey ++
        (e.value ++ rest)))) := by
    simp [walBatchEntry]
  rw [hlay]
  refine ⟨getFixed32_append _ hkey _ _ (by simp), ?_⟩
  rw [← List.append_assoc]
  exact getFixed32_append _ hvalue _ _ (by simp)

/-- As many operations at the front of the same bytes take the same number of bytes. -/
theorem length_flatMap_walBatchEntry_eq {limits : DecodeLimits} {es : List InternalEntry} :
    ∀ {es' : List InternalEntry} {p p' : ℕ} {rest rest' : Bytes}, BatchFits limits p es →
      BatchFits limits p' es' → es.length = es'.length →
      es.flatMap walBatchEntry ++ rest = es'.flatMap walBatchEntry ++ rest' →
      (es.flatMap walBatchEntry).length = (es'.flatMap walBatchEntry).length := by
  induction es with
  | nil =>
    intro es' p p' rest rest' _ _ hlen _
    rw [List.length_eq_zero_iff.mp hlen.symm]
  | cons e es ih =>
    intro es' p p' rest rest' hfits hfits' hlen heq
    cases es' with
    | nil => cases hlen
    | cons e' es' =>
      obtain ⟨-, -, -, -, hkey, hvalue, -, hrest⟩ := hfits
      obtain ⟨-, -, -, -, hkey', hvalue', -, hrest'⟩ := hfits'
      rw [List.flatMap_cons, List.flatMap_cons, List.append_assoc, List.append_assoc] at heq
      have hsizes := walBatchEntry_sizes hkey hvalue (es.flatMap walBatchEntry ++ rest)
      rw [heq] at hsizes
      obtain ⟨h1, h2⟩ := walBatchEntry_sizes hkey' hvalue' (es'.flatMap walBatchEntry ++ rest')
      have hk := Option.some.inj (hsizes.1.symm.trans h1)
      have hv := Option.some.inj (hsizes.2.symm.trans h2)
      have hentry : (walBatchEntry e).length = (walBatchEntry e').length := by
        rw [length_walBatchEntry, length_walBatchEntry, hk, hv]
      have htail := (List.append_inj heq hentry).2
      have hrec := ih hrest hrest' (Nat.succ.inj hlen) htail
      simp only [List.flatMap_cons, List.length_append, hentry, hrec]

/-- Two payloads of one version at the front of the same bytes are equal. -/
theorem WalRecord.Encoded.payload_eq {limits : DecodeLimits} {r r' : WalRecord}
    {bytes bytes' rest rest' : Bytes} (h : r.Encoded limits bytes) (h' : r'.Encoded limits bytes')
    (hversion : r.version = r'.version) (heq : r.payload ++ rest = r'.payload ++ rest') :
    r.payload = r'.payload := by
  refine (List.append_inj heq ?_).1
  cases r with
  | single e =>
    cases r' with
    | batch es' => exact ((by decide : kWalVersion ≠ kWalBatchVersion) hversion).elim
    | single e' =>
      have hsizes := walRecordPayload_sizes h.key_lt h.value_lt rest
      simp only [payload] at heq ⊢
      rw [heq] at hsizes
      obtain ⟨h1, h2⟩ := walRecordPayload_sizes h'.key_lt h'.value_lt rest'
      rw [length_walRecordPayload, length_walRecordPayload,
        Option.some.inj (hsizes.1.symm.trans h1), Option.some.inj (hsizes.2.symm.trans h2)]
  | batch es =>
    cases r' with
    | single e' => exact ((by decide : kWalBatchVersion ≠ kWalVersion) hversion).elim
    | batch es' =>
      simp only [payload, walBatchPayload, List.append_assoc] at heq ⊢
      obtain ⟨hcount, htail⟩ := List.append_inj heq (by simp)
      have hle := h.count_le
      have hle' := h'.count_le
      simp only [kMaxWalBatchOperations] at hle hle'
      have hlen : es.length = es'.length :=
        LittleEndian.encode_injective (by omega) (by omega) hcount
      rw [List.length_append, List.length_append, length_putFixed32, length_putFixed32,
        length_flatMap_walBatchEntry_eq h.fits h'.fits hlen htail]

/-! ## One record -/

section
variable {limits : DecodeLimits} {r r' : WalRecord} {enc record post : Bytes} {q : ℕ} {v : UInt8}

/-- The fields of the bytes at a record that the decoder accepted as `r'`. -/
theorem WalRecord.Encoded.fields (h : r'.Encoded limits record) (bytes : Bytes)
    (hpre : record = bytes.take record.length) :
    getFixed32 bytes 0 = some kWalMagic ∧ getFixed16 bytes 4 = some r'.version ∧
      getFixed32 bytes 8 = some (r'.payload.length % 2 ^ 32) ∧
      getFixed32 bytes 12 = some (crc32c (r'.type :: r'.payload)) ∧
      bytes.getD 6 0 = r'.type ∧ bytes.getD 7 0 = 0 ∧
      bytes.drop 16 = r'.payload ++ bytes.drop record.length := by
  have hversion : r'.version < 2 ^ 16 := by
    rcases r'.version_cases with hv | hv <;> rw [hv] <;> decide
  have hbytes : bytes = walFrame r'.version r'.type r'.payload ++ bytes.drop record.length := by
    rw [← h.bytes_eq]
    conv_lhs => rw [← List.take_append_drop record.length bytes, ← hpre]
  have hfields := walFrame_fields r'.type r'.payload hversion (bytes.drop record.length)
  rwa [← hbytes] at hfields

/-- A record whose payload length does not fit its field is never accepted, not even damaged in one
byte of the payload. -/
theorem WalRecord.oversized_rejected (h : r.Encoded limits enc) (h' : r'.Encoded limits record)
    (hsize : 2 ^ 32 ≤ r.payload.length) (hversion : r.version = r'.version)
    (hlen : r'.payload.length % 2 ^ 32 = r.payload.length % 2 ^ 32)
    (hsmall : r'.payload.length < 2 ^ 32) {rest rest' : Bytes}
    (heq : r'.payload ++ rest' = (r.payload ++ rest).set q v) : False := by
  cases r with
  | batch es =>
    have hle := h.size_le
    simp only [payload, kMaxWalBatchBytes] at hsize hle
    omega
  | single e =>
    cases r' with
    | batch es' => exact (by decide : kWalVersion ≠ kWalBatchVersion) hversion
    | single e' =>
      simp only [payload, length_walRecordPayload] at hsize hlen hsmall heq
      have hkey := h.key_lt
      have hvalue := h.value_lt
      obtain ⟨f1, f2⟩ := walRecordPayload_sizes hkey hvalue rest
      obtain ⟨g1, g2⟩ := walRecordPayload_sizes h'.key_lt h'.value_lt rest'
      rw [heq] at g1 g2
      -- at most one of the two size fields is damaged; the other one keeps the sum too large
      by_cases hq : q < 12
      · rw [getFixed32, LittleEndian.readAt_set (by omega), ← getFixed32, f2] at g2
        have := Option.some.inj g2
        omega
      · rw [getFixed32, LittleEndian.readAt_set (by omega), ← getFixed32, f1] at g1
        have := Option.some.inj g1
        omega

/-- The decoder accepts no record that starts at a damaged one. -/
theorem WalRecord.damaged_rejected (h : r.Encoded limits enc) (hchange : ByteChange enc q v)
    (h' : r'.Encoded limits record) (hsmall : r'.payload.length < 2 ^ 32)
    (hpre : record = (enc.set q v ++ post).take record.length) : False := by
  have hq : q < enc.length := hchange.lt
  have hset : enc.set q v ++ post = (enc ++ post).set q v := by
    rw [List.set_append, if_pos hq]
  have hne : (enc ++ post)[q]? ≠ some v := by
    rw [List.getElem?_append_left hq]
    exact hchange.ne
  obtain ⟨f1, f2, f3, f4, f5, f6, f7⟩ := h.fields (enc ++ post) (by rw [List.take_left' rfl])
  rw [List.drop_left' rfl] at f7
  obtain ⟨g1, g2, g3, g4, g5, g6, g7⟩ := h'.fields _ hpre
  rw [hset] at g1 g2 g3 g4 g5 g6 g7
  set bytes := enc ++ post with hbytes
  have hlen : 16 ≤ bytes.length := by
    rw [hbytes, List.length_append, h.length_eq]
    omega
  -- a field that the damage misses reads as before
  have hkeep : ∀ w off, q < off ∨ off + w ≤ q → LittleEndian.readAt w (bytes.set q v) off =
      LittleEndian.readAt w bytes off := fun w off hoff => LittleEndian.readAt_set hoff v
  have hhit : ∀ w off, off ≤ q → q < off + w → off + w ≤ bytes.length →
      LittleEndian.readAt w (bytes.set q v) off ≠ LittleEndian.readAt w bytes off :=
    fun w off h1 h2 h3 => LittleEndian.readAt_set_ne h1 h2 h3 hne
  have hbyte : ∀ i, i ≠ q → (bytes.set q v).getD i 0 = bytes.getD i 0 := by
    intro i hi
    rw [List.getD_eq_getElem?_getD, List.getD_eq_getElem?_getD, List.getElem?_set_ne hi.symm]
  by_cases h4 : q < 4
  · exact hhit 4 0 (by omega) h4 (by omega) (g1.trans f1.symm)
  by_cases h6 : q < 6
  · -- the version changed but not the type
    rw [hbyte 6 (by omega), f5] at g5
    rw [WalRecord.version_eq_of_type_eq g5] at f2
    exact hhit 2 4 (by omega) (by omega) (by omega) (g2.trans f2.symm)
  have hversion : r.version = r'.version :=
    Option.some.inj (f2.symm.trans ((hkeep 2 4 (by omega)).symm.trans g2))
  by_cases h16 : q < 16
  · -- the payload is intact
    have hdrop : (bytes.set q v).drop 16 = bytes.drop 16 := List.drop_set_of_lt h16
    rw [hdrop, f7] at g7
    have hpayload := h.payload_eq h' hversion g7
    by_cases hq6 : q = 6
    · have hcrc : crc32c (r.type :: r.payload) = crc32c (r'.type :: r'.payload) :=
        Option.some.inj (f4.symm.trans ((hkeep 4 12 (by omega)).symm.trans g4))
      have htype : r'.type = v := by
        rw [← g5, hq6, List.getD_eq_getElem?_getD, List.getElem?_set_self (by omega),
          Option.getD_some]
      have hold : r.type ≠ v := by
        rw [← f5, List.getD_eq_getElem?_getD]
        intro heq
        refine hne ?_
        rw [hq6]
        obtain ⟨a, ha⟩ : ∃ a, bytes[6]? = some a := ⟨_, List.getElem?_eq_getElem (by omega)⟩
        rw [ha] at heq ⊢
        rw [← heq, Option.getD_some]
      have hold' : (r.type :: r.payload)[0]? = some r.type := rfl
      refine crc32c_set_ne hold' hold ?_
      rw [hcrc, htype, hpayload]
      rfl
    by_cases hq7 : q = 7
    · rw [hq7] at hne g6
      rw [List.getD_eq_getElem?_getD, List.getElem?_set_self (by omega), Option.getD_some] at g6
      refine hne ?_
      rw [List.getD_eq_getElem?_getD] at f6
      obtain ⟨a, ha⟩ : ∃ a, bytes[7]? = some a := ⟨_, List.getElem?_eq_getElem (by omega)⟩
      rw [ha, Option.getD_some] at f6
      rw [ha, f6, g6]
    by_cases h12 : q < 12
    · refine hhit 4 8 (by omega) (by omega) (by omega) (g3.trans ?_)
      rw [← hpayload]
      exact f3.symm
    · rw [hbyte 6 (by omega), f5] at g5
      refine hhit 4 12 (by omega) (by omega) (by omega) (g4.trans ?_)
      rw [← g5, ← hpayload]
      exact f4.symm
  · -- the header is intact
    rw [hbyte 6 (by omega), f5] at g5
    have hlength : r.payload.length % 2 ^ 32 = r'.payload.length % 2 ^ 32 :=
      Option.some.inj (f3.symm.trans ((hkeep 4 8 (by omega)).symm.trans g3))
    have hdrop : (bytes.set q v).drop 16 = (bytes.drop 16).set (q - 16) v := by
      rw [List.drop_set, if_neg h16]
    rw [hdrop, f7] at g7
    by_cases hsize : r.payload.length < 2 ^ 32
    · rw [Nat.mod_eq_of_lt hsize, Nat.mod_eq_of_lt hsmall] at hlength
      have hin : q - 16 < r.payload.length := by
        have := h.length_eq
        omega
      rw [List.set_append, if_pos hin] at g7
      have hpayload := (List.append_inj g7 (by rw [List.length_set]; exact hlength)).1
      have hcrc : crc32c (r.type :: r.payload) = crc32c (r'.type :: r'.payload) :=
        Option.some.inj (f4.symm.trans ((hkeep 4 12 (by omega)).symm.trans g4))
      have hold : (r.type :: r.payload)[q - 16 + 1]? ≠ some v := by
        have hpost : (r.payload ++ post)[q - 16]? = r.payload[q - 16]? :=
          List.getElem?_append_left hin
        rw [List.getElem?_cons_succ, ← hpost, ← f7, List.getElem?_drop,
          Nat.add_sub_cancel' (by omega)]
        exact hne
      obtain ⟨a, ha⟩ : ∃ a, (r.type :: r.payload)[q - 16 + 1]? = some a :=
        ⟨_, List.getElem?_eq_getElem (by rw [List.length_cons]; omega)⟩
      have hav : a ≠ v := fun heq => hold (heq ▸ ha)
      refine crc32c_set_ne ha hav ?_
      rw [List.set_cons_succ, hpayload, hcrc, g5]
    · exact WalRecord.oversized_rejected h h' (by omega) hversion hlength.symm hsmall g7.symm

/-! ## The replay loop at one record -/

variable {σ : Type} {apply : σ → List InternalEntry → Result σ}

/-- What the loop does with a complete header. -/
theorem replayLoop_cases (apply : σ → List InternalEntry → Result σ) (limits : DecodeLimits)
    {rest : Bytes} (hlen : 16 ≤ rest.length) (fuel previous : ℕ)
    (result : WalReplayResult) (target : σ) {version n : ℕ}
    (hversion : (getFixed16 rest 4).getD 0 = version) (hn : (getFixed32 rest 8).getD 0 = n) :
    (∃ s, replayLoop apply limits (fuel + 1) rest previous result target = .error s ∧
      s.code = .corruption) ∨
    (n ≤ maxPayload limits version ∧ rest.length < 16 + n ∧
      replayLoop apply limits (fuel + 1) rest previous result target =
        .ok ({ result with truncatedTail := true }, target)) ∨
    (16 + n ≤ rest.length ∧ ∃ es, decodeFrame limits version previous (rest.take (16 + n)) = .ok es) := by
  have hnil : rest ≠ [] := by
    rintro rfl
    exact absurd hlen (by simp)
  simp only [replayLoop, hnil, if_false, hversion, hn, kWalHeaderSize]
  rw [if_neg (by omega)]
  split
  · exact .inl ⟨_, rfl, rfl⟩
  split
  · exact .inl ⟨_, rfl, rfl⟩
  rename_i hmax
  split
  · exact .inr (.inl ⟨by omega, by omega, rfl⟩)
  rename_i hfull
  cases hdecode : decodeFrame limits version previous (rest.take (16 + n)) with
  | error s => exact .inl ⟨s, rfl, decodeFrame_error hdecode⟩
  | ok es => exact .inr (.inr ⟨by omega, es, rfl⟩)

theorem getFixed32_lt (bytes : Bytes) (off : ℕ) : (getFixed32 bytes off).getD 0 < 2 ^ 32 :=
  LittleEndian.readAt_lt bytes off

/-- The damage that makes a record look like a torn tail: a payload length that replay accepts and
that reaches behind the end of the file. -/
def HidesRecord (limits : DecodeLimits) (version : ℕ) (rest : Bytes) (q : ℕ) : Prop :=
  8 ≤ q ∧ q < 12 ∧ (getFixed32 rest 8).getD 0 ≤ maxPayload limits version ∧
    rest.length < 16 + (getFixed32 rest 8).getD 0

/-- A damaged record at the front of the unread bytes is reported, or taken for a torn tail. -/
theorem replayLoop_damaged (apply : σ → List InternalEntry → Result σ) (h : r.Encoded limits enc)
    (hchange : ByteChange enc q v) (post : Bytes) (fuel previous : ℕ) (result : WalReplayResult)
    (target : σ) :
    (HidesRecord limits r.version (enc.set q v ++ post) q ∧
      replayLoop apply limits (fuel + 1) (enc.set q v ++ post) previous result target =
        .ok ({ result with truncatedTail := true }, target)) ∨
    ¬ HidesRecord limits r.version (enc.set q v ++ post) q ∧
      ∃ s, replayLoop apply limits (fuel + 1) (enc.set q v ++ post) previous result target =
        .error s ∧ s.code = .corruption := by
  have hq : q < enc.length := hchange.lt
  have hset : enc.set q v ++ post = (enc ++ post).set q v := by
    rw [List.set_append, if_pos hq]
  obtain ⟨f1, f2, f3, -⟩ := h.fields (enc ++ post) (by rw [List.take_left' rfl])
  have hlen : (enc.set q v ++ post).length = 16 + r.payload.length + post.length := by
    rw [List.length_append, List.length_set, h.length_eq]
  by_cases hhides : HidesRecord limits r.version (enc.set q v ++ post) q
  · refine .inl ⟨hhides, ?_⟩
    obtain ⟨h8, h12, hmax, hshort⟩ := hhides
    have g1 : getFixed32 (enc.set q v ++ post) 0 = some kWalMagic := by
      rw [hset, getFixed32, LittleEndian.readAt_set (by omega)]
      exact f1
    have g2 : getFixed16 (enc.set q v ++ post) 4 = some r.version := by
      rw [hset, getFixed16, LittleEndian.readAt_set (by omega)]
      exact f2
    have hnil : enc.set q v ++ post ≠ [] := by
      intro hnil
      rw [hnil, List.length_nil] at hlen
      omega
    have hversion := r.version_cases
    simp only [replayLoop, hnil, if_false, kWalHeaderSize, g1, g2, Option.getD_some]
    rw [if_neg (by omega), if_neg (by simp only [ne_eq, not_true_eq_false, false_or]; tauto),
      if_neg (by omega), if_pos (by omega)]
  · refine .inr ⟨hhides, ?_⟩
    rcases replayLoop_cases apply limits (by omega : 16 ≤ (enc.set q v ++ post).length) fuel
      previous result target rfl rfl with herror | ⟨hmax, hshort, -⟩ | ⟨hfull, es, hdecode⟩
    · exact herror
    · -- the length field is damaged, so the version is not
      exfalso
      have hfield : 8 ≤ q ∧ q < 12 := by
        by_contra hno
        have hkeep : getFixed32 (enc.set q v ++ post) 8 = some (r.payload.length % 2 ^ 32) := by
          rw [hset, getFixed32, LittleEndian.readAt_set (by omega)]
          exact f3
        rw [hkeep, Option.getD_some] at hshort
        have := Nat.mod_le r.payload.length (2 ^ 32)
        omega
      have g2 : getFixed16 (enc.set q v ++ post) 4 = some r.version := by
        rw [hset, getFixed16, LittleEndian.readAt_set (by omega)]
        exact f2
      rw [g2, Option.getD_some] at hmax
      exact hhides ⟨hfield.1, hfield.2, hmax, hshort⟩
    · exfalso
      obtain ⟨r', hr', -⟩ := decodeFrame_eq_ok hdecode
      have hrecord : ((enc.set q v ++ post).take
          (16 + (getFixed32 (enc.set q v ++ post) 8).getD 0)).length =
          16 + (getFixed32 (enc.set q v ++ post) 8).getD 0 := by
        rw [List.length_take, Nat.min_eq_left hfull]
      refine WalRecord.damaged_rejected h hchange hr' ?_ (by rw [hrecord])
      have := hr'.length_eq
      have := getFixed32_lt (enc.set q v ++ post) 8
      omega

theorem BatchFits.front_le {es : List InternalEntry} :
    ∀ {e : InternalEntry} {p : ℕ}, BatchFits limits p (e :: es) →
      ∀ e' ∈ e :: es, e.sequence ≤ e'.sequence := by
  induction es with
  | nil =>
    intro e p _ e' he'
    rw [List.mem_singleton.mp he']
  | cons b es ih =>
    intro e p h e' he'
    obtain ⟨hne, -, -, -, -, -, -, hrest⟩ := h
    rcases List.mem_cons.mp he' with rfl | he'
    · exact le_rfl
    · have hnext := hrest.2.1 hne
      have := ih hrest e' he'
      omega

/-- Whether replay accepts a record behind the sequence `previous`. -/
def WalRecord.Replays (previous : ℕ) (r : WalRecord) : Prop :=
  r.payload.length < 2 ^ 32 ∧ ∀ e ∈ r.entries, previous < e.sequence

/-- A record that replay does not accept is reported. -/
theorem replayLoop_rejected (h : r.Encoded limits enc) (hlt : ∀ e ∈ r.entries, e.sequence < 2 ^ 64)
    {previous : ℕ} (hnot : ¬ r.Replays previous) (post : Bytes) (fuel : ℕ)
    (result : WalReplayResult) (target : σ) :
    ∃ s, replayLoop apply limits (fuel + 1) (enc ++ post) previous result target = .error s ∧
      s.code = .corruption := by
  obtain ⟨f1, f2, f3, -, -, -, f7⟩ := h.fields (enc ++ post) (by rw [List.take_left' rfl])
  rw [List.drop_left' rfl] at f7
  have hlen : (enc ++ post).length = 16 + r.payload.length + post.length := by
    rw [List.length_append, h.length_eq]
  have hmod := Nat.mod_le r.payload.length (2 ^ 32)
  rcases replayLoop_cases apply limits (by omega : 16 ≤ (enc ++ post).length) fuel previous result
    target (by rw [f2]; rfl : _ = r.version) (by rw [f3]; rfl : _ = r.payload.length % 2 ^ 32)
    with herror | ⟨-, hshort, -⟩ | ⟨hfull, es, hdecode⟩
  · exact herror
  · omega
  · exfalso
    by_cases hsize : r.payload.length < 2 ^ 32
    · rw [Nat.mod_eq_of_lt hsize, List.take_left' h.length_eq] at hdecode
      refine hnot ⟨hsize, ?_⟩
      cases r with
      | single e =>
        have hrecord := EncodedRecord.decode h hsize (hlt e List.mem_cons_self)
        simp only [WalRecord.version, decodeFrame, if_true, hrecord] at hdecode
        split at hdecode
        · cases hdecode
        · rename_i hle
          simpa [WalRecord.entries] using not_le.mp hle
      | batch entries =>
        have hrecord := EncodedBatch.decode h hlt
        have hv : kWalBatchVersion ≠ kWalVersion := by decide
        simp only [WalRecord.version, decodeFrame, hv, if_false, hrecord] at hdecode
        cases entries with
        | nil => exact absurd rfl h.ne_nil
        | cons front entries =>
          simp only [List.head?_cons] at hdecode
          split at hdecode
          · cases hdecode
          · rename_i hle
            intro e he
            have := h.fits.front_le e he
            omega
    · obtain ⟨r', hr', -⟩ := decodeFrame_eq_ok hdecode
      have hrecord : ((enc ++ post).take (16 + r.payload.length % 2 ^ 32)).length =
          16 + r.payload.length % 2 ^ 32 := by
        rw [List.length_take, Nat.min_eq_left hfull]
      have hlength := hr'.length_eq
      obtain ⟨-, g2, g3, -, -, -, g7⟩ := hr'.fields (enc ++ post) (by rw [hrecord])
      have hsmall : r'.payload.length < 2 ^ 32 := by
        have := Nat.mod_lt r.payload.length (by decide : 0 < 2 ^ 32)
        omega
      rw [f7, ← List.set_eq_of_length_le (le_refl (r.payload ++ post).length)] at g7
      exact WalRecord.oversized_rejected (v := 0) h hr' (by omega)
        (Option.some.inj (f2.symm.trans g2)) (Option.some.inj (g3.symm.trans f3)) hsmall g7.symm

end

/-! ## Recovery -/

section
variable {limits : DecodeLimits}

/-- Whether replay accepts all records of a log above `floor`. -/
def AllReplay : ℕ → List WalRecord → Prop
  | _, [] => True
  | floor, r :: rs => r.Replays floor ∧ AllReplay (lastSequence r.entries floor) rs

/-- Collecting the entries of the log. -/
def collect (log g : List InternalEntry) : Result (List InternalEntry) := .ok (log ++ g)

/-- Replay up to a record: the records before it are collected, or one of them is reported. -/
theorem replayLoop_before {before : List WalRecord} {encs : List Bytes}
    (h : List.Forall₂ (WalRecord.Encoded limits) before encs) :
    ∀ (previous : ℕ) (result : WalReplayResult) (log : List InternalEntry) (rest : Bytes) (fuel : ℕ),
      (∀ e ∈ before.flatMap WalRecord.entries, e.sequence < 2 ^ 64) →
      (AllReplay previous before ∧ ∃ previous' result', result'.truncatedTail = result.truncatedTail ∧
        replayLoop collect limits (before.length + fuel) (encs.flatten ++ rest) previous result log =
          replayLoop collect limits fuel rest previous' result'
            (log ++ before.flatMap WalRecord.entries)) ∨
      ¬ AllReplay previous before ∧ ∃ s, replayLoop collect limits (before.length + fuel)
        (encs.flatten ++ rest) previous result log = .error s ∧ s.code = .corruption := by
  induction h with
  | nil =>
    intro previous result log rest fuel _
    exact .inl ⟨trivial, previous, result, rfl, by simp⟩
  | @cons r enc before encs hr _ ih =>
    intro previous result log rest fuel hlt
    rw [List.flatMap_cons] at hlt
    have hfirst : ∀ e ∈ r.entries, e.sequence < 2 ^ 64 := fun e he =>
      hlt e (List.mem_append_left _ he)
    have hfuel : (r :: before).length + fuel = before.length + fuel + 1 := by
      rw [List.length_cons]
      omega
    rw [hfuel, List.flatten_cons, List.append_assoc]
    by_cases hrep : r.Replays previous
    · rw [replayLoop_cons (hr.isFrame hrep.1) (fun e he => ⟨hrep.2 e he, hfirst e he⟩), collect]
      simp only
      rcases ih (lastSequence r.entries previous) ⟨lastSequence r.entries previous,
          result.validBytes + enc.length, result.truncatedTail⟩ (log ++ r.entries) rest fuel
          (fun e he => hlt e (List.mem_append_right _ he))
        with ⟨hall, previous', result', hsame, heq⟩ | ⟨hnot, herror⟩
      · refine .inl ⟨⟨hrep, hall⟩, previous', result', hsame, ?_⟩
        rw [heq, List.flatMap_cons, List.append_assoc]
      · exact .inr ⟨fun hall => hnot hall.2, herror⟩
    · refine .inr ⟨fun hall => hrep hall.1, ?_⟩
      exact replayLoop_rejected hr hfirst hrep _ _ _ _

/-- Every position of a concatenation lies in one of its parts. -/
theorem exists_part {encs : List Bytes} : ∀ {p : ℕ}, p < encs.flatten.length →
    ∃ k enc, encs[k]? = some enc ∧ (encs.take k).flatten.length ≤ p ∧
      p - (encs.take k).flatten.length < enc.length := by
  induction encs with
  | nil => intro p h; exact absurd h (by simp)
  | cons enc encs ih =>
    intro p h
    by_cases hp : p < enc.length
    · exact ⟨0, enc, rfl, by simp, by simpa using hp⟩
    · rw [List.flatten_cons, List.length_append] at h
      obtain ⟨k, enc', hk, hle, hlt⟩ := ih (by omega : p - enc.length < encs.flatten.length)
      refine ⟨k + 1, enc', by simpa using hk, ?_, ?_⟩
      · rw [List.take_succ_cons, List.flatten_cons, List.length_append]
        omega
      · rw [List.take_succ_cons, List.flatten_cons, List.length_append]
        omega

/-- The damage turns a record of the log that replay reaches, and all records behind it, into a torn
tail. -/
def HidesTail (limits : DecodeLimits) (floor : ℕ) (records : List WalRecord) (encs : List Bytes)
    (p : ℕ) (v : UInt8) : Prop :=
  ∃ k r, records[k]? = some r ∧ AllReplay floor (records.take k) ∧
    (encs.take k).flatten.length ≤ p ∧
    HidesRecord limits r.version ((encs.flatten.set p v).drop (encs.take k).flatten.length)
      (p - (encs.take k).flatten.length)

/-- Recovery of the damaged file reports `Corruption` and leaves the file as it is, or yields the
entries of the intact one. -/
def ReportsOrRecovers (limits : DecodeLimits) (floor : ℕ) (intact damaged : Bytes) : Prop :=
  (∃ s, recoverWal collect limits floor damaged [] = (.error s, damaged) ∧ s.code = .corruption) ∨
    ∃ maxSequence maxSequence' entries,
      (recoverWal collect limits floor damaged []).1 = .ok (maxSequence, entries) ∧
      (recoverWal collect limits floor intact []).1 = .ok (maxSequence', entries)

theorem length_take_flatten_lt {encs : List Bytes} {k l : ℕ} {enc : Bytes} (hk : encs[k]? = some enc)
    (hkl : k < l) : (encs.take k).flatten.length + enc.length ≤ (encs.take l).flatten.length := by
  have hlt := (List.getElem?_eq_some_iff.mp hk).1
  have hpre : encs.take k ++ [enc] <+: encs.take l := by
    rw [← (List.getElem?_eq_some_iff.mp hk).2, ← List.take_succ_eq_append_getElem hlt]
    exact List.take_prefix_take_left (by omega)
  obtain ⟨rest, hrest⟩ := hpre
  rw [← hrest]
  simp only [List.flatten_append, List.length_append, List.flatten_cons, List.flatten_nil,
    List.append_nil]
  omega

variable {floor : ℕ} {records : List WalRecord} {encs : List Bytes} {p : ℕ} {v : UInt8}

/-- The condition at the record that holds the damaged byte. -/
theorem hidesTail_iff (henc : List.Forall₂ (WalRecord.Encoded limits) records encs) {k : ℕ}
    {r : WalRecord} {enc : Bytes} (hr : records[k]? = some r) (hk : encs[k]? = some enc)
    (hle : (encs.take k).flatten.length ≤ p)
    (hlt : p - (encs.take k).flatten.length < enc.length) :
    HidesTail limits floor records encs p v ↔ AllReplay floor (records.take k) ∧
      HidesRecord limits r.version ((encs.flatten.set p v).drop (encs.take k).flatten.length)
        (p - (encs.take k).flatten.length) := by
  constructor
  · rintro ⟨k', r', hr', hall, hle', hhides⟩
    -- the damaged byte lies in one record only
    obtain ⟨enc', hk', henc'⟩ : ∃ enc', encs[k']? = some enc' ∧ r'.Encoded limits enc' := by
      have hlen := henc.length_eq
      obtain ⟨hlt', heq'⟩ := List.getElem?_eq_some_iff.mp hr'
      have hget := List.getElem?_eq_getElem (by omega : k' < encs.length)
      have hrel := (List.forall₂_iff_get.mp henc).2 k' hlt' (by omega)
      refine ⟨_, hget, ?_⟩
      rw [← heq']
      exact hrel
    have hlen' := henc'.length_eq
    have hq := hhides.2.1
    obtain rfl : k' = k := by
      rcases Nat.lt_trichotomy k' k with h | h | h
      · have := length_take_flatten_lt hk' h
        omega
      · exact h
      · have := length_take_flatten_lt hk h
        omega
    obtain rfl : r' = r := Option.some.inj (hr'.symm.trans hr)
    exact ⟨hall, hhides⟩
  · rintro ⟨hall, hhides⟩
    exact ⟨k, r, hr, hall, hle, hhides⟩

theorem encs_length_le (henc : List.Forall₂ (WalRecord.Encoded limits) records encs) :
    records.length ≤ encs.flatten.length := by
  induction henc with
  | nil => simp
  | @cons r enc records encs hr _ ih =>
    have := hr.length_eq
    simp only [List.length_cons, List.flatten_cons, List.length_append]
    omega

/-- Replay of the intact log collects all entries, or reports a record. -/
theorem replay_intact (henc : List.Forall₂ (WalRecord.Encoded limits) records encs)
    (hlt : ∀ e ∈ records.flatMap WalRecord.entries, e.sequence < 2 ^ 64) (floor : ℕ) :
    (∃ result, replay collect limits floor encs.flatten [] =
      .ok (result, records.flatMap WalRecord.entries)) ∨
    ∃ s, replay collect limits floor encs.flatten [] = .error s := by
  have hfuel : encs.flatten.length + 1 = records.length + (encs.flatten.length - records.length + 1) := by
    have := encs_length_le henc
    omega
  have hrun := replayLoop_before henc floor {} [] [] (encs.flatten.length - records.length + 1) hlt
  rw [← hfuel, List.append_nil, List.nil_append] at hrun
  rcases hrun with ⟨-, previous, result, -, heq⟩ | ⟨-, s, hs, -⟩
  · refine .inl ⟨result, ?_⟩
    rw [replay, heq]
    simp [replayLoop]
  · exact .inr ⟨s, hs⟩

/-- Recovery of a log with one damaged byte reports `Corruption` or yields the entries of the intact
log, unless the damage hides the tail of the log. -/
theorem wal_damage_reported_iff
    (hencode : List.Forall₂ (fun r enc => WalRecord.encode limits r = .ok enc) records encs)
    (hlt : ∀ e ∈ records.flatMap WalRecord.entries, e.sequence < 2 ^ 64)
    (hchange : ByteChange encs.flatten p v) :
    ReportsOrRecovers limits floor encs.flatten (encs.flatten.set p v) ↔
      ¬ HidesTail limits floor records encs p v := by
  have henc : List.Forall₂ (WalRecord.Encoded limits) records encs :=
    hencode.imp fun r enc h => WalRecord.encode_eq_ok h
  obtain ⟨k, enc, hk, hle, hq⟩ := exists_part hchange.lt
  obtain ⟨hklt, hkeq⟩ := List.getElem?_eq_some_iff.mp hk
  have hlength := henc.length_eq
  obtain ⟨r, hr⟩ : ∃ r, records[k]? = some r :=
    ⟨_, List.getElem?_eq_getElem (by omega : k < records.length)⟩
  obtain ⟨hrlt, hreq⟩ := List.getElem?_eq_some_iff.mp hr
  have hrenc : r.Encoded limits enc := by
    have := (List.forall₂_iff_get.mp henc).2 k hrlt hklt
    rw [← hreq, ← hkeq]
    exact this
  rw [hidesTail_iff henc hr hk hle hq]
  -- the file around the damaged record
  set before := (encs.take k).flatten with hbefore
  set post := (encs.drop (k + 1)).flatten with hpost
  set q := p - before.length with hqdef
  have hfile : encs.flatten = before ++ (enc ++ post) := by
    conv_lhs => rw [← List.take_append_drop k encs, List.drop_eq_getElem_cons hklt, hkeq]
    simp [hbefore, hpost]
  have hchange' : ByteChange enc q v := by
    rw [hfile] at hchange
    refine ⟨hq, ?_⟩
    have hne := hchange.ne
    rwa [List.getElem?_append_right hle, List.getElem?_append_left hq] at hne
  have hset : encs.flatten.set p v = before ++ (enc.set q v ++ post) := by
    rw [hfile, List.set_append, if_neg (by omega), List.set_append, if_pos hq]
  rw [hset, List.drop_left' rfl]
  have htake : List.Forall₂ (WalRecord.Encoded limits) (records.take k) (encs.take k) :=
    List.forall₂_take k henc
  have hentries : records.flatMap WalRecord.entries = (records.take k).flatMap WalRecord.entries ++
      (r.entries ++ (records.drop (k + 1)).flatMap WalRecord.entries) := by
    conv_lhs => rw [← List.take_append_drop k records, List.drop_eq_getElem_cons hrlt, hreq]
    simp
  have hltTake : ∀ e ∈ (records.take k).flatMap WalRecord.entries, e.sequence < 2 ^ 64 := by
    intro e he
    refine hlt e ?_
    rw [hentries]
    exact List.mem_append_left _ he
  -- replay reaches the damaged record with fuel left
  obtain ⟨fuel, hfuel⟩ : ∃ fuel, (before ++ (enc.set q v ++ post)).length + 1 =
      (records.take k).length + (fuel + 1) := by
    have := encs_length_le htake
    refine ⟨(before ++ (enc.set q v ++ post)).length - (records.take k).length, ?_⟩
    rw [List.length_append, ← hbefore] at *
    omega
  have hrun := replayLoop_before htake floor {} [] (enc.set q v ++ post) (fuel + 1) hltTake
  rw [← hfuel, ← hbefore, List.nil_append] at hrun
  rcases hrun with ⟨hall, previous, result, hresult, heq⟩ | ⟨hnot, s, hs, hcode⟩
  · rcases replayLoop_damaged collect hrenc hchange' post fuel previous result
      ((records.take k).flatMap WalRecord.entries) with ⟨hhides, htorn⟩ | ⟨hnot, s, hs, hcode⟩
    · refine iff_of_false ?_ (fun h => h ⟨hall, hhides⟩)
      have hreplay : replay collect limits floor (before ++ (enc.set q v ++ post)) [] =
          .ok ({ result with truncatedTail := true }, (records.take k).flatMap WalRecord.entries) := by
        rw [replay, heq, htorn]
      rintro (⟨s, hs, -⟩ | ⟨n, n', entries, hdamaged, hintact⟩)
      · simp only [recoverWal, hreplay] at hs
        cases hs
      · simp only [recoverWal, hreplay] at hdamaged
        obtain ⟨-, rfl⟩ := Prod.mk.inj (Except.ok.inj hdamaged)
        -- the intact file holds the entries of the damaged record as well
        rcases replay_intact henc hlt floor with ⟨result', hok⟩ | ⟨s, herror⟩
        · simp only [recoverWal, hok] at hintact
          obtain ⟨-, hsame⟩ := Prod.mk.inj (Except.ok.inj hintact)
          rw [hentries] at hsame
          have hnil := List.append_right_eq_self.mp hsame
          exact hrenc.entries_ne_nil (List.append_eq_nil_iff.mp hnil).1
        · simp only [recoverWal, herror] at hintact
          cases hintact
    · refine iff_of_true (.inl ⟨s.withContext "replay WAL", ?_, by simpa using hcode⟩)
        (fun h => hnot h.2)
      simp only [recoverWal, replay, heq, hs]
  · refine iff_of_true (.inl ⟨s.withContext "replay WAL", ?_, by simpa using hcode⟩)
      (fun h => hnot h.1)
    simp only [recoverWal, replay, hs]

end

/-- The record of one write. -/
def oneWrite : List InternalEntry := [⟨[107], 1, .value, [49]⟩]

/-- The log of `oneWrite`. -/
def oneWriteLog : Bytes := walFrame kWalBatchVersion kWalBatchRecordType (walBatchPayload oneWrite)

theorem oneWriteLog_encoded :
    List.Forall₂ (fun r enc => WalRecord.encode ⟨16, 16⟩ r = .ok enc) [.batch oneWrite]
      [oneWriteLog] :=
  .cons (by decide +kernel) .nil

/-- A damaged payload byte is reported. -/
theorem wal_damage_reported_payload :
    ByteChange oneWriteLog 20 7 ∧
      ReportsOrRecovers ⟨16, 16⟩ 0 oneWriteLog (oneWriteLog.set 20 7) := by
  have hchange : ByteChange oneWriteLog 20 7 := ⟨by decide +kernel, by decide +kernel⟩
  refine ⟨hchange, ?_⟩
  have hiff : ReportsOrRecovers ⟨16, 16⟩ 0 [oneWriteLog].flatten ([oneWriteLog].flatten.set 20 7) ↔ _ :=
    wal_damage_reported_iff oneWriteLog_encoded (by decide) (by simpa using hchange)
  rw [List.flatten_singleton] at hiff
  refine hiff.mpr ?_
  rintro ⟨k, r, hr, -, hle, -, hq, -⟩
  obtain rfl : k = 0 := by
    cases k with
    | zero => rfl
    | succ k => cases hr
  simp at hq

/-- A payload length behind the end of the file loses the write without an error. -/
theorem wal_damage_hides_record :
    ¬ ∀ (limits : DecodeLimits) (floor : ℕ) (records : List WalRecord) (encs : List Bytes) (p : ℕ)
      (v : UInt8), List.Forall₂ (fun r enc => WalRecord.encode limits r = .ok enc) records encs →
      (∀ e ∈ records.flatMap WalRecord.entries, e.sequence < 2 ^ 64) →
      ByteChange encs.flatten p v →
      ReportsOrRecovers limits floor encs.flatten (encs.flatten.set p v) := by
  intro hclaim
  have hintact : (recoverWal collect ⟨16, 16⟩ 0 oneWriteLog []).1 = .ok (1, oneWrite) := by
    decide +kernel
  have hdamaged : recoverWal collect ⟨16, 16⟩ 0 (oneWriteLog.set 9 1) [] = (.ok (0, []), []) := by
    decide +kernel
  have hchange : ByteChange oneWriteLog 9 1 := ⟨by decide +kernel, by decide +kernel⟩
  have hprop := hclaim ⟨16, 16⟩ 0 [.batch oneWrite] [oneWriteLog] 9 1 oneWriteLog_encoded
    (by decide) (by simpa using hchange)
  rw [List.flatten_singleton] at hprop
  rcases hprop with ⟨s, hs, -⟩ | ⟨n, n', entries, h1, h2⟩
  · rw [hdamaged] at hs
    cases hs
  · rw [hdamaged] at h1
    rw [hintact] at h2
    obtain ⟨-, rfl⟩ := Prod.mk.inj (Except.ok.inj h1)
    obtain ⟨-, hne⟩ := Prod.mk.inj (Except.ok.inj h2)
    exact absurd hne (by decide)

end TinyLsm
