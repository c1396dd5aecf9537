import TinyLsm.Model.InternalEntry
import TinyLsm.Util.Status
import TinyLsm.Util.Crc32c
import TinyLsm.Util.Coding
import Mathlib.Data.List.Chain

/-!
# Manifest snapshots

`ManifestSnapshot` with the checks and the encoding of `manifest/manifest_codec.cpp`. The payload is
the proto3 wire format of `manifest.proto`: fields in the order of their numbers, scalar fields left
out when they are zero and byte fields when they are empty.
-/

namespace TinyLsm

/-- `TableMeta`. -/
structure TableMeta where
  fileNumber : ℕ
  fileSize : ℕ
  smallestKey : Bytes
  largestKey : Bytes
  minSequence : ℕ
  maxSequence : ℕ
deriving DecidableEq, Repr

/-- `ManifestSnapshot`. -/
structure ManifestSnapshot where
  activeWalNumber : ℕ := 0
  nextFileNumber : ℕ := 1
  lastSequence : ℕ := 0
  liveTables : List TableMeta := []
  immutableWalNumber : ℕ := 0
deriving DecidableEq, Repr

namespace ManifestSnapshot

/-- The table checks of `ValidateSnapshot`, behind the tables `before`. -/
def validateTables (s : ManifestSnapshot) : List TableMeta → List TableMeta → Option String
  | _, [] => none
  | before, table :: rest =>
    if table.fileNumber = 0 ∨ table.fileNumber = s.activeWalNumber ∨
        table.fileNumber = s.immutableWalNumber ∨ s.nextFileNumber ≤ table.fileNumber ∨
        table.fileNumber ∈ before.map TableMeta.fileNumber then
      some "manifest table file numbers are invalid"
    else if table.fileSize = 0 ∨ table.largestKey < table.smallestKey then
      some "manifest table key metadata is invalid"
    else if table.minSequence = 0 ∨ table.maxSequence = 0 ∨ table.maxSequence < table.minSequence ∨
        s.lastSequence < table.maxSequence then
      some "manifest table sequence metadata is invalid"
    else if ∃ previous ∈ before.getLast?, table.minSequence ≤ previous.maxSequence then
      some "manifest table sequence ranges are not strictly ordered"
    else validateTables s (before ++ [table]) rest

/-- `ValidateSnapshot`. -/
def validate (s : ManifestSnapshot) : Option String :=
  if s.activeWalNumber = 0 then some "manifest active WAL number is invalid"
  else if s.immutableWalNumber = s.activeWalNumber then
    some "manifest active and immutable WAL numbers collide"
  else if s.nextFileNumber ≤ s.activeWalNumber ∨ s.nextFileNumber ≤ s.immutableWalNumber then
    some "manifest next file number is invalid"
  else validateTables s [] s.liveTables

end ManifestSnapshot

/-! ## The proto3 encoding -/

/-- A base-128 varint of at most `fuel` more bytes. -/
def putVarint : ℕ → ℕ → Bytes
  | 0, n => [UInt8.ofNat n]
  | fuel + 1, n =>
    if n < 128 then [UInt8.ofNat n] else UInt8.ofNat (n % 128 + 128) :: putVarint fuel (n / 128)

/-- The varint of a 64-bit value. -/
def varint (n : ℕ) : Bytes := putVarint 9 n

/-- A `uint64` field. -/
def putUint64Field (field n : ℕ) : Bytes := if n = 0 then [] else varint (8 * field) ++ varint n

/-- A length-delimited field that is always written. -/
def putMessageField (field : ℕ) (bytes : Bytes) : Bytes :=
  varint (8 * field + 2) ++ (varint bytes.length ++ bytes)

/-- A `bytes` field. -/
def putBytesField (field : ℕ) (bytes : Bytes) : Bytes :=
  if bytes = [] then [] else putMessageField field bytes

/-- `TableMetaProto`. -/
def TableMeta.proto (t : TableMeta) : Bytes :=
  putUint64Field 1 t.fileNumber ++ (putUint64Field 2 t.fileSize ++
    (putBytesField 3 t.smallestKey ++ (putBytesField 4 t.largestKey ++
      (putUint64Field 5 t.minSequence ++ putUint64Field 6 t.maxSequence))))

/-- `ManifestSnapshotProto`. -/
def ManifestSnapshot.proto (s : ManifestSnapshot) : Bytes :=
  putUint64Field 1 s.activeWalNumber ++ (putUint64Field 2 s.nextFileNumber ++
    (putUint64Field 3 s.lastSequence ++
      (s.liveTables.flatMap (fun t => putMessageField 4 t.proto) ++
        putUint64Field 5 s.immutableWalNumber)))

-- the payload of the golden Manifest of one table in `core_test.cpp`
example : (⟨7, 11, 42, [⟨9, 100, [0x61], [0x7a], 1, 42⟩], 0⟩ : ManifestSnapshot).proto =
    [0x08, 0x07, 0x10, 0x0b, 0x18, 0x2a, 0x22, 0x0e, 0x08, 0x09, 0x10, 0x64, 0x1a, 0x01, 0x61, 0x22,
      0x01, 0x7a, 0x28, 0x01, 0x30, 0x2a] := by
  decide

/-- `kManifestHeaderBytes`. -/
def kManifestHeaderBytes : ℕ := 16

/-- `kMaxManifestFileBytes`. -/
def kMaxManifestFileBytes : ℕ := 128 * 1024 * 1024

/-- `kMagic` (`manifest_codec.cpp`). -/
def kManifestMagic : ℕ := 0x31464e4d

/-- `kVersion3`. -/
def kManifestVersion3 : ℕ := 3

/-- `ManifestCodec::Encode`. -/
def encodeManifest (s : ManifestSnapshot) : Result Bytes :=
  match s.validate with
  | some invalid => .error (.invalidArgument invalid)
  | none =>
    if ∃ t ∈ s.liveTables, kMaxManifestFileBytes - kManifestHeaderBytes < t.smallestKey.length ∨
        kMaxManifestFileBytes - kManifestHeaderBytes < t.largestKey.length then
      .error (.resourceExhausted "manifest exceeds the file size limit")
    else if kMaxManifestFileBytes - kManifestHeaderBytes < s.proto.length then
      .error (.resourceExhausted "manifest exceeds the file size limit")
    else
      let header := putFixed32 kManifestMagic ++ (putFixed16 kManifestVersion3 ++
        (putFixed16 0 ++ putFixed32 s.proto.length))
      .ok (header ++ (putFixed32 (crc32c₂ header s.proto) ++ s.proto))

/-! ## What the validator accepts -/

/-- The rules of `ValidateSnapshot` for one table. -/
structure TableMeta.Valid (s : ManifestSnapshot) (t : TableMeta) : Prop where
  number_pos : t.fileNumber ≠ 0
  number_ne_active : t.fileNumber ≠ s.activeWalNumber
  number_ne_immutable : t.fileNumber ≠ s.immutableWalNumber
  number_lt : t.fileNumber < s.nextFileNumber
  size_pos : t.fileSize ≠ 0
  keys_le : t.smallestKey ≤ t.largestKey
  min_pos : t.minSequence ≠ 0
  max_pos : t.maxSequence ≠ 0
  sequences_le : t.minSequence ≤ t.maxSequence
  max_le : t.maxSequence ≤ s.lastSequence

/-- A snapshot that `ValidateSnapshot` accepts. -/
structure ManifestSnapshot.Valid (s : ManifestSnapshot) : Prop where
  active_pos : s.activeWalNumber ≠ 0
  wals_ne : s.immutableWalNumber ≠ s.activeWalNumber
  active_lt : s.activeWalNumber < s.nextFileNumber
  immutable_lt : s.immutableWalNumber < s.nextFileNumber
  tables : ∀ t ∈ s.liveTables, t.Valid s
  numbers : (s.liveTables.map TableMeta.fileNumber).Nodup
  increasing : s.liveTables.IsChain fun a b => a.maxSequence < b.minSequence

namespace ManifestSnapshot

theorem validateTables_eq_none_iff {s : ManifestSnapshot} {before rest : List TableMeta} :
    validateTables s before rest = none ↔
      (∀ t ∈ rest, t.Valid s) ∧
      (∀ t ∈ rest, t.fileNumber ∉ before.map TableMeta.fileNumber) ∧
      (rest.map TableMeta.fileNumber).Nodup ∧
      (before.getLast?.toList ++ rest).IsChain fun a b => a.maxSequence < b.minSequence := by
  induction rest generalizing before with
  | nil => cases before.getLast? <;> simp [validateTables]
  | cons t rest ih =>
    simp only [validateTables]
    constructor
    · intro h
      split at h
      · cases h
      rename_i hnumber
      split at h
      · cases h
      rename_i hkeys
      split at h
      · cases h
      rename_i hsequences
      split at h
      · cases h
      rename_i hprevious
      simp only [not_or, not_le, not_lt] at hnumber hkeys hsequences
      obtain ⟨hvalid, hfresh, hnodup, hchain⟩ := ih.mp h
      have ht : t.Valid s := ⟨hnumber.1, hnumber.2.1, hnumber.2.2.1, hnumber.2.2.2.1, hkeys.1, hkeys.2,
        hsequences.1, hsequences.2.1, hsequences.2.2.1, hsequences.2.2.2⟩
      refine ⟨List.forall_mem_cons.mpr ⟨ht, hvalid⟩, ?_, ?_, ?_⟩
      · refine List.forall_mem_cons.mpr ⟨hnumber.2.2.2.2, fun u hu hmem => hfresh u hu ?_⟩
        simp only [List.map_append, List.mem_append]
        exact .inl hmem
      · rw [List.map_cons, List.nodup_cons]
        refine ⟨fun hmem => ?_, hnodup⟩
        obtain ⟨u, hu, heq⟩ := List.mem_map.mp hmem
        exact hfresh u hu (by simp [heq])
      · rw [List.getLast?_append] at hchain
        cases hlast : before.getLast? with
        | none => simpa using hchain
        | some previous =>
          rw [hlast] at hprevious
          have hlt : previous.maxSequence < t.minSequence := by
            by_contra hle
            exact hprevious ⟨previous, rfl, not_lt.mp hle⟩
          simpa using ⟨hlt, by simpa using hchain⟩
    · rintro ⟨hvalid, hfresh, hnodup, hchain⟩
      obtain ⟨ht, hvalid⟩ := List.forall_mem_cons.mp hvalid
      obtain ⟨hnew, hfresh⟩ := List.forall_mem_cons.mp hfresh
      rw [List.map_cons, List.nodup_cons] at hnodup
      rw [if_neg, if_neg, if_neg, if_neg, ih]
      · refine ⟨hvalid, fun u hu hmem => ?_, hnodup.2, ?_⟩
        · simp only [List.map_append, List.map_cons, List.map_nil, List.mem_append,
            List.mem_singleton] at hmem
          rcases hmem with hmem | hmem
          · exact hfresh u hu hmem
          · exact hnodup.1 (hmem ▸ List.mem_map_of_mem hu)
        · rw [List.getLast?_append]
          simpa using hchain.right_of_append
      · rintro ⟨previous, hprevious, hle⟩
        rw [Option.mem_def] at hprevious
        rw [hprevious] at hchain
        simp only [Option.toList_some, List.singleton_append, List.isChain_cons_cons] at hchain
        omega
      · rintro (h | h | h | h)
        · exact ht.min_pos h
        · exact ht.max_pos h
        · exact absurd ht.sequences_le (not_le.mpr h)
        · exact absurd ht.max_le (not_le.mpr h)
      · rintro (h | h)
        · exact ht.size_pos h
        · exact absurd ht.keys_le (not_le.mpr h)
      · rintro (h | h | h | h | h)
        · exact ht.number_pos h
        · exact ht.number_ne_active h
        · exact ht.number_ne_immutable h
        · exact absurd ht.number_lt (not_lt.mpr h)
        · exact hnew h

/-- `ValidateSnapshot` accepts exactly the valid snapshots. -/
theorem validate_eq_none_iff {s : ManifestSnapshot} : s.validate = none ↔ s.Valid := by
  unfold validate
  constructor
  · intro h
    split at h
    · cases h
    rename_i hactive
    split at h
    · cases h
    rename_i hwals
    split at h
    · cases h
    rename_i hnext
    rw [not_or, not_le, not_le] at hnext
    obtain ⟨hvalid, -, hnodup, hchain⟩ := validateTables_eq_none_iff.mp h
    exact ⟨hactive, hwals, hnext.1, hnext.2, hvalid, hnodup, by simpa using hchain⟩
  · intro h
    rw [if_neg h.active_pos, if_neg h.wals_ne, if_neg, validateTables_eq_none_iff]
    · exact ⟨h.tables, by simp, h.numbers, by simpa using h.increasing⟩
    · rw [not_or, not_le, not_le]
      exact ⟨h.active_lt, h.immutable_lt⟩

end ManifestSnapshot

theorem valid_of_encodeManifest {m : ManifestSnapshot} {bytes : Bytes}
    (h : encodeManifest m = .ok bytes) : m.Valid := by
  unfold encodeManifest at h
  split at h
  · cases h
  · rename_i hvalid
    exact ManifestSnapshot.validate_eq_none_iff.mp hvalid

end TinyLsm
