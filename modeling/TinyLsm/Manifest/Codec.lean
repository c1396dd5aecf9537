import TinyLsm.Manifest.Snapshot
import TinyLsm.Util.ByteChange

/-!
# Manifest codec

`ManifestCodec::Decode` of `manifest/manifest_codec.cpp` over a protobuf parser, the round trip with
`Encode`, and the detection of a changed byte. The version-1 rule checks the payload alone; a header
that would not show in a version-3 checksum needs a payload of more than the file limit.
-/

namespace TinyLsm

/-- A parsed `TableMetaProto`; absent fields are zero or empty. -/
structure TableMetaMessage where
  tableMeta : TableMeta
  hasUnknownFields : Bool
deriving DecidableEq, Repr

/-- A parsed `ManifestSnapshotProto`. -/
structure ManifestMessage where
  activeWalNumber : ℕ
  nextFileNumber : ℕ
  lastSequence : ℕ
  liveTables : List TableMetaMessage
  immutableWalNumber : ℕ
  hasUnknownFields : Bool
deriving DecidableEq, Repr

/-- The message that `Encode` fills in. -/
def ManifestSnapshot.message (s : ManifestSnapshot) : ManifestMessage where
  activeWalNumber := s.activeWalNumber
  nextFileNumber := s.nextFileNumber
  lastSequence := s.lastSequence
  liveTables := s.liveTables.map (⟨·, false⟩)
  immutableWalNumber := s.immutableWalNumber
  hasUnknownFields := false

/-- `kVersion1`. -/
def kManifestVersion1 : ℕ := 1

/-- `kVersion2`. -/
def kManifestVersion2 : ℕ := 2

/-- The snapshot that `Decode` fills from a message. -/
def ManifestMessage.snapshot (message : ManifestMessage) (version : ℕ) : ManifestSnapshot where
  activeWalNumber := message.activeWalNumber
  nextFileNumber := message.nextFileNumber
  lastSequence := message.lastSequence
  liveTables := message.liveTables.map TableMetaMessage.tableMeta
  immutableWalNumber := if version = kManifestVersion3 then message.immutableWalNumber else 0

/-- The part of `Decode` behind the checksum. -/
def decodeMessage (parse : Bytes → Option ManifestMessage) (version : ℕ) (payload : Bytes) :
    Result ManifestSnapshot :=
  match parse payload with
  | none => .error (.corruption "manifest protobuf payload is invalid")
  | some message =>
    if message.hasUnknownFields then .error (.corruption "manifest contains unknown fields")
    else if version = kManifestVersion1 ∧ 1 < message.liveTables.length then
      .error (.corruption "version 1 manifest contains multiple tables")
    else if ∃ t ∈ message.liveTables, t.hasUnknownFields then
      .error (.corruption "manifest table contains unknown fields")
    else
      match (message.snapshot version).validate with
      | some invalid => .error (.corruption invalid)
      | none => .ok (message.snapshot version)

/-- The version of a frame. -/
def manifestVersion (bytes : Bytes) : ℕ := (getFixed16 bytes 4).getD 0

/-- The checksum that `Decode` compares: the version-1 rule leaves the header out. -/
def manifestChecksum (bytes : Bytes) : ℕ :=
  if manifestVersion bytes = kManifestVersion1 then crc32c (bytes.drop kManifestHeaderBytes)
  else crc32c₂ (bytes.take 12) (bytes.drop kManifestHeaderBytes)

/-- `ManifestCodec::Decode`; `parse` is `ParseFromArray`. -/
def decodeManifest (parse : Bytes → Option ManifestMessage) (bytes : Bytes) :
    Result ManifestSnapshot :=
  if bytes.length < kManifestHeaderBytes ∨ kMaxManifestFileBytes < bytes.length then
    .error (.corruption "manifest is truncated or too large")
  else if (getFixed32 bytes 0).getD 0 ≠ kManifestMagic ∨
      (manifestVersion bytes ≠ kManifestVersion1 ∧ manifestVersion bytes ≠ kManifestVersion2 ∧
        manifestVersion bytes ≠ kManifestVersion3) ∨
      (getFixed16 bytes 6).getD 0 ≠ 0 ∨
      (getFixed32 bytes 8).getD 0 ≠ bytes.length - kManifestHeaderBytes then
    .error (.corruption "manifest framing is invalid")
  else if manifestChecksum bytes ≠ (getFixed32 bytes 12).getD 0 then
    .error (.corruption "manifest checksum mismatch")
  else decodeMessage parse (manifestVersion bytes) (bytes.drop kManifestHeaderBytes)

/-! ## Frames -/

/-- The first twelve bytes of a frame. -/
def manifestHeader (size : ℕ) : Bytes :=
  putFixed32 kManifestMagic ++ (putFixed16 kManifestVersion3 ++ (putFixed16 0 ++ putFixed32 size))

/-- The frame of a payload. -/
def manifestFrame (payload : Bytes) : Bytes :=
  manifestHeader payload.length ++
    (putFixed32 (crc32c₂ (manifestHeader payload.length) payload) ++ payload)

@[simp] theorem length_manifestHeader (size : ℕ) : (manifestHeader size).length = 12 := by
  simp [manifestHeader]

@[simp] theorem length_manifestFrame (payload : Bytes) :
    (manifestFrame payload).length = kManifestHeaderBytes + payload.length := by
  simp [manifestFrame, kManifestHeaderBytes]
  omega

theorem length_le_putMessageField (field : ℕ) (bytes : Bytes) :
    bytes.length ≤ (putMessageField field bytes).length := by
  simp only [putMessageField, List.length_append]
  omega

theorem length_le_putBytesField (field : ℕ) (bytes : Bytes) :
    bytes.length ≤ (putBytesField field bytes).length := by
  unfold putBytesField
  split
  · rename_i hnil
    simp [hnil]
  · exact length_le_putMessageField field bytes

/-- The keys of a table are part of the payload. -/
theorem keys_le_proto {s : ManifestSnapshot} {t : TableMeta} (ht : t ∈ s.liveTables) :
    t.smallestKey.length ≤ s.proto.length ∧ t.largestKey.length ≤ s.proto.length := by
  have hsmallest := length_le_putBytesField 3 t.smallestKey
  have hlargest := length_le_putBytesField 4 t.largestKey
  have htable : (putBytesField 3 t.smallestKey).length + (putBytesField 4 t.largestKey).length ≤
      t.proto.length := by
    simp only [TableMeta.proto, List.length_append]
    omega
  have hfield := length_le_putMessageField 4 t.proto
  have hall : (putMessageField 4 t.proto).length ≤
      (s.liveTables.flatMap fun t => putMessageField 4 t.proto).length := by
    have hmem := List.mem_map_of_mem (f := fun t => putMessageField 4 t.proto) ht
    rw [List.flatMap_def]
    exact (List.sublist_flatten_of_mem hmem).length_le
  have hproto : (s.liveTables.flatMap fun t => putMessageField 4 t.proto).length ≤
      s.proto.length := by
    simp only [ManifestSnapshot.proto, List.length_append]
    omega
  omega

/-- `Encode` succeeds exactly on the valid snapshots whose frame is within the file limit. -/
theorem encodeManifest_eq_ok_iff {s : ManifestSnapshot} {bytes : Bytes} :
    encodeManifest s = .ok bytes ↔ s.validate = none ∧ bytes = manifestFrame s.proto ∧
      (manifestFrame s.proto).length ≤ kMaxManifestFileBytes := by
  have hlimit : (manifestFrame s.proto).length ≤ kMaxManifestFileBytes ↔
      ¬ kMaxManifestFileBytes - kManifestHeaderBytes < s.proto.length := by
    rw [length_manifestFrame]
    simp only [kMaxManifestFileBytes, kManifestHeaderBytes]
    omega
  unfold encodeManifest
  cases hvalid : s.validate with
  | some invalid => simp
  | none =>
    by_cases hsize : kMaxManifestFileBytes - kManifestHeaderBytes < s.proto.length
    · simp only [hlimit, hsize, not_true, and_false, iff_false, if_true]
      split <;> simp
    · have hkeys : ¬ ∃ t ∈ s.liveTables,
          kMaxManifestFileBytes - kManifestHeaderBytes < t.smallestKey.length ∨
            kMaxManifestFileBytes - kManifestHeaderBytes < t.largestKey.length := by
        rintro ⟨t, ht, hkey⟩
        have := keys_le_proto ht
        omega
      simp only [hkeys, hsize, if_false, hlimit, not_false_iff, and_true, true_and, Except.ok.injEq]
      exact eq_comm

/-- The fields of a frame. -/
theorem manifestFrame_fields {payload : Bytes} (h : payload.length < 2 ^ 32) :
    getFixed32 (manifestFrame payload) 0 = some kManifestMagic ∧
      getFixed16 (manifestFrame payload) 4 = some kManifestVersion3 ∧
      getFixed16 (manifestFrame payload) 6 = some 0 ∧
      getFixed32 (manifestFrame payload) 8 = some payload.length ∧
      getFixed32 (manifestFrame payload) 12 =
        some (crc32c₂ (manifestHeader payload.length) payload) := by
  have hcrc := crc32c₂_lt (manifestHeader payload.length) payload
  refine ⟨?_, ?_, ?_, ?_, ?_⟩
  · simp only [manifestFrame, manifestHeader, List.append_assoc]
    exact getFixed32_zero _ (by decide) _
  · simp only [manifestFrame, manifestHeader, List.append_assoc]
    exact getFixed16_append _ (by decide) (putFixed32 kManifestMagic) _ (by simp)
  · simp only [manifestFrame, manifestHeader, ← List.append_assoc]
    rw [List.append_assoc _ _ payload, List.append_assoc _ (putFixed32 payload.length),
      List.append_assoc _ (putFixed16 0)]
    exact getFixed16_append _ (by decide) _ _ (by simp)
  · simp only [manifestFrame, manifestHeader, ← List.append_assoc]
    rw [List.append_assoc _ _ payload, List.append_assoc _ (putFixed32 payload.length)]
    exact getFixed32_append _ h _ _ (by simp)
  · exact getFixed32_append _ hcrc (manifestHeader payload.length) _ (by simp)

theorem manifestFrame_parts (payload : Bytes) :
    (manifestFrame payload).take 12 = manifestHeader payload.length ∧
      (manifestFrame payload).drop kManifestHeaderBytes = payload := by
  constructor
  · exact List.take_left' (by simp)
  · rw [manifestFrame, ← List.append_assoc]
    exact List.drop_left' (by simp [kManifestHeaderBytes])

theorem message_snapshot (s : ManifestSnapshot) : s.message.snapshot kManifestVersion3 = s := by
  simp [ManifestSnapshot.message, ManifestMessage.snapshot, List.map_map, Function.comp_def]

/-- What `Decode` returns was parsed from the payload of a frame of a known version. -/
theorem decodeManifest_eq_ok {parse : Bytes → Option ManifestMessage} {bytes : Bytes}
    {s : ManifestSnapshot} (h : decodeManifest parse bytes = .ok s) :
    (manifestVersion bytes = kManifestVersion1 ∨ manifestVersion bytes = kManifestVersion2 ∨
      manifestVersion bytes = kManifestVersion3) ∧
    ∃ message, parse (bytes.drop kManifestHeaderBytes) = some message ∧
      s = message.snapshot (manifestVersion bytes) ∧ s.validate = none ∧
      (manifestVersion bytes = kManifestVersion1 → message.liveTables.length ≤ 1) := by
  unfold decodeManifest at h
  split at h
  · cases h
  split at h
  · cases h
  rename_i hframing
  split at h
  · cases h
  simp only [not_or, not_and, not_not] at hframing
  refine ⟨by tauto, ?_⟩
  unfold decodeMessage at h
  split at h
  · cases h
  rename_i message hparse
  split at h
  · cases h
  split at h
  · cases h
  rename_i htables
  split at h
  · cases h
  split at h
  · cases h
  rename_i hvalid
  obtain rfl := Except.ok.inj h
  exact ⟨message, hparse, rfl, hvalid, fun hv => not_lt.mp fun hlt => htables ⟨hv, hlt⟩⟩

/-- What `Encode` returns decodes to the snapshot. -/
theorem decodeManifest_encodeManifest {parse : Bytes → Option ManifestMessage} {s : ManifestSnapshot}
    {bytes : Bytes} (henc : encodeManifest s = .ok bytes) (hparse : parse s.proto = some s.message) :
    decodeManifest parse bytes = .ok s := by
  obtain ⟨hvalid, rfl, hlimit⟩ := encodeManifest_eq_ok_iff.mp henc
  have hsize := hlimit
  rw [length_manifestFrame] at hsize
  have hlt : s.proto.length < 2 ^ 32 := by
    simp only [kMaxManifestFileBytes, kManifestHeaderBytes] at hsize
    omega
  obtain ⟨hmagic, hversion, hreserved, hlength, hcrc⟩ := manifestFrame_fields hlt
  obtain ⟨htake, hdrop⟩ := manifestFrame_parts s.proto
  have hv : manifestVersion (manifestFrame s.proto) = kManifestVersion3 := by
    rw [manifestVersion, hversion, Option.getD_some]
  have hv1 : ¬ kManifestVersion3 = kManifestVersion1 := by decide
  unfold decodeManifest
  rw [if_neg, if_neg, if_neg, hv, hdrop]
  · simp [decodeMessage, hparse, message_snapshot, hvalid, hv1,
      show s.message.hasUnknownFields = false from rfl,
      show s.message.liveTables = s.liveTables.map (⟨·, false⟩) from rfl]
  · rw [manifestChecksum, hv, if_neg hv1, htake, hdrop, hcrc, Option.getD_some]
    simp
  · rw [hmagic, hv, hreserved, hlength, length_manifestFrame]
    simp
  · rw [length_manifestFrame]
    omega

/-- Encoding and decoding a Manifest. What `Encode` returns decodes to the snapshot, provided the
protobuf parser returns the message that was serialized; `Encode` succeeds exactly on the valid
snapshots within the file limit; and whatever `Decode` returns is valid, with at most one table and
no immutable WAL in version 1, and no immutable WAL in version 2. -/
theorem manifest_round_trip (parse : Bytes → Option ManifestMessage) :
    (∀ s bytes, encodeManifest s = .ok bytes → parse s.proto = some s.message →
      decodeManifest parse bytes = .ok s) ∧
    (∀ s, (∃ bytes, encodeManifest s = .ok bytes) ↔
      s.validate = none ∧ kManifestHeaderBytes + s.proto.length ≤ kMaxManifestFileBytes) ∧
    ∀ bytes s, decodeManifest parse bytes = .ok s → s.validate = none ∧
      (manifestVersion bytes = kManifestVersion1 →
        s.liveTables.length ≤ 1 ∧ s.immutableWalNumber = 0) ∧
      (manifestVersion bytes = kManifestVersion2 → s.immutableWalNumber = 0) := by
  refine ⟨fun s bytes => decodeManifest_encodeManifest, fun s => ?_, fun bytes s h => ?_⟩
  · constructor
    · rintro ⟨bytes, henc⟩
      obtain ⟨hvalid, -, hlimit⟩ := encodeManifest_eq_ok_iff.mp henc
      rw [length_manifestFrame] at hlimit
      exact ⟨hvalid, hlimit⟩
    · rintro ⟨hvalid, hlimit⟩
      refine ⟨_, encodeManifest_eq_ok_iff.mpr ⟨hvalid, rfl, ?_⟩⟩
      rw [length_manifestFrame]
      exact hlimit
  · obtain ⟨-, message, -, rfl, hvalid, htables⟩ := decodeManifest_eq_ok h
    refine ⟨hvalid, fun hv => ⟨?_, ?_⟩, fun hv => ?_⟩
    · simpa [ManifestMessage.snapshot] using htables hv
    · simp [ManifestMessage.snapshot, hv, kManifestVersion1, kManifestVersion3]
    · simp [ManifestMessage.snapshot, hv, kManifestVersion2, kManifestVersion3]

/-- A Manifest with an immutable WAL and one table. -/
def sampleManifest : ManifestSnapshot where
  activeWalNumber := 5
  nextFileNumber := 6
  lastSequence := 4
  liveTables := [⟨2, 171, [0x61], [0x62], 1, 2⟩]
  immutableWalNumber := 3

/-- A parser that knows the payload of `sampleManifest`. -/
def parseSample (bytes : Bytes) : Option ManifestMessage :=
  if bytes = sampleManifest.proto then some sampleManifest.message else none

theorem encodeManifest_sampleManifest :
    encodeManifest sampleManifest = .ok (manifestFrame sampleManifest.proto) :=
  encodeManifest_eq_ok_iff.mpr ⟨by decide, rfl, by decide⟩

theorem manifest_round_trip_sample :
    decodeManifest parseSample (manifestFrame sampleManifest.proto) = .ok sampleManifest :=
  (manifest_round_trip _).1 _ _ encodeManifest_sampleManifest (if_pos rfl)

/-! ## One changed byte -/

/-- The payload length, outside the file limit, at which the header leaves the register alone. -/
theorem extendCrc32c_manifestHeader :
    extendCrc32c 0xffffffff#32 (manifestHeader 3479863717) = 0xffffffff#32 := by
  decide +kernel

/-- The version-1 rule sees that the stored checksum covers a header. -/
theorem crc32c_payload_ne {payload : Bytes}
    (h : (manifestFrame payload).length ≤ kMaxManifestFileBytes) :
    crc32c payload ≠ crc32c₂ (manifestHeader payload.length) payload := by
  intro heq
  have hfixed := (extendCrc32c_of_crc32c_eq heq).trans extendCrc32c_manifestHeader.symm
  -- the two headers differ in their last four bytes only
  simp only [manifestHeader, ← List.append_assoc] at hfixed
  rw [extendCrc32c_append _ _ (putFixed32 _), extendCrc32c_append _ _ (putFixed32 _)] at hfixed
  have hsize := extendCrc32c_putFixed32 hfixed
  rw [length_manifestFrame] at h
  simp only [kMaxManifestFileBytes] at h
  have hlt : payload.length < 256 ^ 4 := by omega
  have hlength : payload.length = 3479863717 :=
    LittleEndian.encode_injective hlt (by norm_num) hsize
  omega

/-- The checksum of a frame with another header or payload, unless the header says version 1. -/
theorem manifestChecksum_append {header crc payload : Bytes} (hheader : header.length = 12)
    (hcrc : crc.length = 4) :
    manifestChecksum (header ++ (crc ++ payload)) =
      if manifestVersion (header ++ (crc ++ payload)) = kManifestVersion1 then crc32c payload
      else crc32c (header ++ payload) := by
  have hdrop : (header ++ (crc ++ payload)).drop kManifestHeaderBytes = payload := by
    rw [← List.append_assoc]
    exact List.drop_left' (by simp [hheader, hcrc, kManifestHeaderBytes])
  rw [manifestChecksum, hdrop, List.take_left' hheader, crc32c₂_eq]

theorem manifestVersion_append (size : ℕ) (rest : Bytes) :
    manifestVersion (manifestHeader size ++ rest) = kManifestVersion3 := by
  rw [manifestVersion, manifestHeader, List.append_assoc, List.append_assoc,
    getFixed16_append _ (by decide) _ _ (by simp), Option.getD_some]

/-- The stored checksum is that of four bytes behind the header. -/
theorem storedChecksum_append {header crc payload : Bytes} (hheader : header.length = 12)
    (hcrc : crc.length = 4) :
    getFixed32 (header ++ (crc ++ payload)) 12 = some (LittleEndian.decode crc) := by
  rw [getFixed32, LittleEndian.readAt_of_le (by simp; omega), ← hheader, List.drop_left' rfl,
    List.take_left' hcrc]

/-- After a byte of a frame has changed, the checksum that `Decode` computes is not the stored
one. -/
theorem manifestChecksum_set_ne {payload : Bytes}
    (hlimit : (manifestFrame payload).length ≤ kMaxManifestFileBytes) {p : ℕ} {v : UInt8}
    (hc : ByteChange (manifestFrame payload) p v) :
    manifestChecksum ((manifestFrame payload).set p v) ≠
      (getFixed32 ((manifestFrame payload).set p v) 12).getD 0 := by
  set header := manifestHeader payload.length with hheader
  set crc := putFixed32 (crc32c₂ header payload) with hcrc
  have hheader12 : header.length = 12 := length_manifestHeader _
  have hcrc4 : crc.length = 4 := length_putFixed32 _
  have hdecode : LittleEndian.decode crc = crc32c (header ++ payload) := by
    rw [← crc32c₂_eq]
    exact LittleEndian.decode_encode_of_lt (crc32c₂_lt header payload)
  have hframe : manifestFrame payload = header ++ (crc ++ payload) := rfl
  rw [hframe] at hc ⊢
  rcases hc.append with ⟨hc, hset⟩ | ⟨hc, hset⟩
  · -- the header: under the version-1 rule it is left out, otherwise its change shows
    rw [hset, storedChecksum_append (by simpa using hheader12) hcrc4, Option.getD_some, hdecode,
      manifestChecksum_append (by simpa using hheader12) hcrc4]
    split
    · rw [← crc32c₂_eq]
      exact crc32c_payload_ne hlimit
    · obtain ⟨a, ha, hne⟩ := hc.exists_old
      have hold : (header ++ payload)[p]? = some a := by
        rw [List.getElem?_append_left hc.lt, ha]
      rw [← List.set_append_left _ _ hc.lt]
      exact crc32c_set_ne hold hne
  rw [hset]
  rcases hc.append with ⟨hc, hset⟩ | ⟨hc, hset⟩
  · -- the stored checksum: its four bytes determine the value
    rw [hset, storedChecksum_append hheader12 (by simpa using hcrc4), Option.getD_some,
      manifestChecksum_append hheader12 (by simpa using hcrc4), manifestVersion_append,
      if_neg (by decide), ← hdecode]
    intro heq
    have hbytes := congrArg (LittleEndian.encode 4) heq
    rw [← hcrc4, LittleEndian.encode_decode, ← List.length_set (i := p - header.length) (a := v),
      LittleEndian.encode_decode] at hbytes
    apply hc.ne
    rw [hbytes, List.getElem?_set_self hc.lt]
  · -- the payload
    rw [hset, storedChecksum_append hheader12 hcrc4, Option.getD_some, hdecode,
      manifestChecksum_append hheader12 hcrc4, manifestVersion_append, if_neg (by decide)]
    obtain ⟨a, ha, hne⟩ := hc.exists_old
    have hold : (header ++ payload)[header.length + (p - header.length - crc.length)]? = some a := by
      rw [List.getElem?_append_right (by omega), Nat.add_sub_cancel_left, ha]
    have hmoved := crc32c_set_ne hold hne
    rwa [List.set_append_right _ _ (by omega), Nat.add_sub_cancel_left] at hmoved

/-- Any one changed byte of an encoded Manifest is reported as corruption. -/
theorem manifest_damage_detected (parse : Bytes → Option ManifestMessage) {s : ManifestSnapshot}
    {bytes : Bytes} (henc : encodeManifest s = .ok bytes) {p : ℕ} {v : UInt8}
    (hc : ByteChange bytes p v) :
    ∃ message, decodeManifest parse (bytes.set p v) = .error (.corruption message) := by
  obtain ⟨-, rfl, hlimit⟩ := encodeManifest_eq_ok_iff.mp henc
  unfold decodeManifest
  split
  · exact ⟨_, rfl⟩
  split
  · exact ⟨_, rfl⟩
  rw [if_pos (manifestChecksum_set_ne hlimit hc)]
  exact ⟨_, rfl⟩

/-- The version byte changes from 3 to 1. -/
theorem manifest_damage_detected_version :
    ByteChange (manifestFrame sampleManifest.proto) 4 1 ∧
    ∃ message, decodeManifest parseSample ((manifestFrame sampleManifest.proto).set 4 1) =
      .error (.corruption message) :=
  have hc : ByteChange (manifestFrame sampleManifest.proto) 4 1 := ⟨by decide, by decide⟩
  ⟨hc, manifest_damage_detected parseSample encodeManifest_sampleManifest hc⟩

end TinyLsm
