import TinyLsm.Model.InternalEntry
import TinyLsm.Util.Status
import TinyLsm.Util.Crc32c

/-!
# SSTable sections

The encoders and decoders of `sstable/sstable_builder.cpp`: data blocks of both versions, the index,
the properties section and the two footers. A v2 data block stores the entries with shared key
prefixes, then the restart offsets, the two counts and a checksum; every `restart_interval`-th entry
is stored with its whole key and its offset is listed as a restart.
-/

namespace TinyLsm

/-- `kSstableMagic`. -/
def kSstableMagic : ℕ := 0x315453534d534c54

/-- `kSstableVersionV1`. -/
def kSstableVersionV1 : ℕ := 1

/-- `kSstableVersion`. -/
def kSstableVersion : ℕ := 2

/-- `kSstableV1FooterSize`. -/
def kSstableV1FooterSize : ℕ := 36

/-- `kSstableFooterSize`. -/
def kSstableFooterSize : ℕ := 52

/-- `BlockMeta`: the key range and the position of a data block. -/
structure BlockMeta where
  firstKey : Bytes
  lastKey : Bytes
  offset : ℕ
  size : ℕ
deriving DecidableEq, Repr

/-- `Footer`. -/
structure Footer where
  version : ℕ
  indexOffset : ℕ
  indexSize : ℕ
  propertiesOffset : ℕ
  propertiesSize : ℕ
deriving DecidableEq, Repr

/-- `TableProperties`: the persisted summary of a table. -/
structure TableProperties where
  entryCount : ℕ
  smallestKey : Bytes
  largestKey : Bytes
  minSequence : ℕ
  maxSequence : ℕ
deriving DecidableEq, Repr

/-! ## Version 2 data blocks -/

/-- The number of leading bytes two keys share (`std::mismatch` in `EncodeDataBlock`). -/
def sharedPrefix : Bytes → Bytes → ℕ
  | a :: as, b :: bs => if a = b then sharedPrefix as bs + 1 else 0
  | _, _ => 0

/-- The bytes of one v2 entry whose key shares `shared` bytes with the preceding key. -/
def encodeV2Entry (shared : ℕ) (e : InternalEntry) : Bytes :=
  putFixed32 shared ++ (putFixed32 (e.userKey.length - shared) ++ (putFixed64 e.sequence ++
    ([e.type.toByte] ++ (putFixed32 e.value.length ++ (e.userKey.drop shared ++ e.value)))))

/-- The key that the next entry may share a prefix with. -/
def previousKey : Option InternalEntry → Bytes
  | some previous => previous.userKey
  | none => []

/-- The prefix length `EncodeDataBlock` uses for the entry with index `i` of the block. -/
def sharedLength (restartInterval i : ℕ) (previous : Option InternalEntry) (key : Bytes) : ℕ :=
  if i % restartInterval = 0 then 0 else sharedPrefix (previousKey previous) key

/-- The loop of `EncodeDataBlock` from the entry with index `i` on. `out` and `restarts` are what
the loop has written so far. -/
def encodeEntries (restartInterval : ℕ) :
    ℕ → Option InternalEntry → Bytes → List ℕ → List InternalEntry → Result (Bytes × List ℕ)
  | _, _, out, restarts, [] => .ok (out, restarts)
  | i, previous, out, restarts, entry :: rest =>
    if (∃ p, previous = some p ∧ ¬ InternalLess p entry) ∨
        (entry.type = .tombstone ∧ entry.value ≠ []) then
      .error (.invalidArgument "SSTable entries are not strictly ordered")
    else
      let shared := sharedLength restartInterval i previous entry.userKey
      if ¬ (fitsU32 out.length ∧ fitsU32 shared ∧ fitsU32 (entry.userKey.length - shared) ∧
          fitsU32 entry.value.length) then
        .error (.invalidArgument "SSTable entry is too large")
      else
        encodeEntries restartInterval (i + 1) (some entry) (out ++ encodeV2Entry shared entry)
          (if i % restartInterval = 0 then restarts ++ [out.length] else restarts) rest

/-- The part of a v2 block that its checksum covers. -/
def blockBody (area : Bytes) (restarts : List ℕ) (entryCount : ℕ) : Bytes :=
  area ++ (restarts.flatMap putFixed32 ++ (putFixed32 restarts.length ++ putFixed32 entryCount))

/-- `EncodeDataBlock`. -/
def encodeDataBlock (entries : List InternalEntry) (restartInterval : ℕ) : Result Bytes :=
  if entries = [] then
    .error (.invalidArgument "cannot encode empty data block")
  else if restartInterval = 0 then
    .error (.invalidArgument "SSTable restart interval must be non-zero")
  else
    match encodeEntries restartInterval 0 none [] [] entries with
    | .error s => .error s
    | .ok (out, restarts) =>
      let body := blockBody out restarts entries.length
      .ok (body ++ putFixed32 (crc32c body))

/-- `DecodeV2Entry`: the entry at `position` and the position behind it. -/
def decodeV2Entry (bytes : Bytes) (position entriesEnd : ℕ) (previous : Bytes) :
    Option (InternalEntry × ℕ) := do
  let shared ← getFixed32 bytes position
  let unshared ← getFixed32 bytes (position + 4)
  let sequence ← getFixed64 bytes (position + 8)
  let valueSize ← getFixed32 bytes (position + 17)
  if previous.length < shared ∨ entriesEnd < position ∨ entriesEnd - position < 21 ∨
      entriesEnd - position - 21 < unshared + valueSize then none
  else
    let type ← ValueType.ofByte? (bytes.getD (position + 16) 0)
    if sequence = 0 then none
    else
      let key := previous.take shared ++ (bytes.drop (position + 21)).take unshared
      let value := (bytes.drop (position + 21 + unshared)).take valueSize
      if type = .tombstone ∧ value ≠ [] then none
      else some (⟨key, sequence, type, value⟩, position + 21 + unshared + valueSize)

/-- `V2BlockLayout`. -/
structure V2BlockLayout where
  entriesEnd : ℕ
  restarts : List ℕ
  entryCount : ℕ
deriving DecidableEq, Repr

/-- The restart loop of `ParseV2BlockLayout` with `remaining` offsets to read from index `i` on;
`restarts` are those read so far. -/
def parseRestarts (bytes : Bytes) (restartsBegin : ℕ) : ℕ → ℕ → List ℕ → Result (List ℕ)
  | 0, _, restarts => .ok restarts
  | remaining + 1, i, restarts =>
    let restart := (getFixed32 bytes (restartsBegin + 4 * i)).getD 0
    if restartsBegin ≤ restart ∨ (∃ last, restarts.getLast? = some last ∧ restart ≤ last) then
      .error (.corruption "v2 data block restart offset is invalid")
    else parseRestarts bytes restartsBegin remaining (i + 1) (restarts ++ [restart])

/-- `ParseV2BlockLayout`. -/
def parseV2BlockLayout (bytes : Bytes) : Result V2BlockLayout :=
  if bytes.length < 12 then .error (.corruption "v2 data block is truncated")
  else
    let restartCount := (getFixed32 bytes (bytes.length - 12)).getD 0
    let entryCount := (getFixed32 bytes (bytes.length - 8)).getD 0
    let expected := (getFixed32 bytes (bytes.length - 4)).getD 0
    if crc32c (bytes.take (bytes.length - 4)) ≠ expected then
      .error (.corruption "v2 data block checksum mismatch")
    else if entryCount = 0 ∨ restartCount = 0 ∨ entryCount < restartCount then
      .error (.corruption "v2 data block restart count is invalid")
    else if bytes.length - 12 < 4 * restartCount then
      .error (.corruption "v2 data block restarts are truncated")
    else
      let restartsBegin := bytes.length - 12 - 4 * restartCount
      match parseRestarts bytes restartsBegin restartCount 0 [] with
      | .error s => .error s
      | .ok restarts =>
        if restarts.head? ≠ some 0 then
          .error (.corruption "v2 data block first restart is invalid")
        else .ok ⟨restartsBegin, restarts, entryCount⟩

/-- The entry loop of `DecodeDataBlockV2` with `remaining` entries to decode. -/
def decodeV2Entries (bytes : Bytes) (layout : V2BlockLayout) :
    ℕ → ℕ → ℕ → Bytes → List InternalEntry → Result (List InternalEntry × ℕ × ℕ)
  | 0, position, restartIndex, _, out => .ok (out, position, restartIndex)
  | remaining + 1, position, restartIndex, previous, out =>
    let atRestart := layout.restarts[restartIndex]? = some position
    match decodeV2Entry bytes position layout.entriesEnd (if atRestart then [] else previous) with
    | none => .error (.corruption "v2 data block entry is invalid")
    | some (entry, next) =>
      if ∃ last, out.getLast? = some last ∧ ¬ InternalLess last entry then
        .error (.corruption "v2 data block entries are not strictly ordered")
      else
        decodeV2Entries bytes layout remaining next
          (if atRestart then restartIndex + 1 else restartIndex) entry.userKey (out ++ [entry])

/-- `DecodeDataBlockV2`. -/
def decodeDataBlockV2 (bytes : Bytes) : Result (List InternalEntry) :=
  match parseV2BlockLayout bytes with
  | .error s => .error s
  | .ok layout =>
    match decodeV2Entries bytes layout layout.entryCount 0 0 [] [] with
    | .error s => .error s
    | .ok (out, position, restartIndex) =>
      if position ≠ layout.entriesEnd ∨ restartIndex ≠ layout.restarts.length then
        .error (.corruption "v2 data block entry or restart layout is invalid")
      else .ok out

/-! ## Version 1 data blocks -/

/-- The entry loop of `DecodeDataBlockV1` with `remaining` entries to decode from index `i` on. -/
def decodeV1Entries (bytes : Bytes) (offsetsStart : ℕ) :
    ℕ → ℕ → List InternalEntry → Result (List InternalEntry)
  | 0, _, out => .ok out
  | remaining + 1, i, out =>
    let offset := (getFixed32 bytes (offsetsStart + 4 * i)).getD 0
    let next := if remaining = 0 then offsetsStart % 2 ^ 32
      else (getFixed32 bytes (offsetsStart + 4 * (i + 1))).getD 0
    if next < offset ∨ offsetsStart < next ∨ next - offset < 17 then
      .error (.corruption "data block entry offset is invalid")
    else
      let sequence := (getFixed64 bytes offset).getD 0
      let keySize := (getFixed32 bytes (offset + 9)).getD 0
      let valueSize := (getFixed32 bytes (offset + 13)).getD 0
      if 17 + keySize + valueSize ≠ next - offset then
        .error (.corruption "data block entry length is invalid")
      else
        match ValueType.ofByte? (bytes.getD (offset + 8) 0) with
        | none => .error (.corruption "data block type is invalid")
        | some type =>
          let entry : InternalEntry :=
            ⟨(bytes.drop (offset + 17)).take keySize, sequence, type,
              (bytes.drop (offset + 17 + keySize)).take valueSize⟩
          if (∃ last, out.getLast? = some last ∧ ¬ InternalLess last entry) ∨
              (entry.type = .tombstone ∧ entry.value ≠ []) then
            .error (.corruption "data block entries are not strictly ordered")
          else decodeV1Entries bytes offsetsStart remaining (i + 1) (out ++ [entry])

/-- `DecodeDataBlockV1`. -/
def decodeDataBlockV1 (bytes : Bytes) : Result (List InternalEntry) :=
  if bytes.length < 8 then .error (.corruption "data block is truncated")
  else
    let count := (getFixed32 bytes (bytes.length - 8)).getD 0
    let expected := (getFixed32 bytes (bytes.length - 4)).getD 0
    if crc32c (bytes.take (bytes.length - 4)) ≠ expected then
      .error (.corruption "data block checksum mismatch")
    else if bytes.length < 8 + 4 * count then
      .error (.corruption "data block offsets are truncated")
    else decodeV1Entries bytes (bytes.length - (8 + 4 * count)) count 0 []

/-- `DecodeDataBlock`. -/
def decodeDataBlock (bytes : Bytes) (version : ℕ) : Result (List InternalEntry) :=
  if version = kSstableVersionV1 then decodeDataBlockV1 bytes
  else if version = kSstableVersion then decodeDataBlockV2 bytes
  else .error (.corruption "SSTable data block version is unsupported")

/-! ## Point search in a data block -/

/-- The v1 loop of `FindDataBlockEntry` over the decoded entries. -/
def scanEntries (key : Bytes) (sequence : ℕ) : List InternalEntry → Result InternalEntry
  | [] => .error (.notFound "key has no visible version")
  | entry :: rest =>
    if key < entry.userKey then .error (.notFound "key has no visible version")
    else if entry.userKey = key ∧ entry.sequence ≤ sequence then .ok entry
    else scanEntries key sequence rest

/-- The `restart_key` lambda of `FindDataBlockEntry`. -/
def restartKey (bytes : Bytes) (layout : V2BlockLayout) (index : ℕ) : Result Bytes :=
  match decodeV2Entry bytes (layout.restarts.getD index 0) layout.entriesEnd [] with
  | none => .error (.corruption "v2 data block restart entry is invalid")
  | some (entry, position) =>
    if layout.entriesEnd < position then
      .error (.corruption "v2 data block restart entry is invalid")
    else .ok entry.userKey

/-- The binary search of `FindDataBlockEntry` for the number of restart keys at most `key`, with at
most `fuel` halvings. -/
def searchRestarts (bytes : Bytes) (layout : V2BlockLayout) (key : Bytes) :
    ℕ → ℕ → ℕ → Result ℕ
  | 0, first, _ => .ok first
  | fuel + 1, first, last =>
    if first < last then
      let middle := first + (last - first) / 2
      match restartKey bytes layout middle with
      | .error s => .error s
      | .ok candidate =>
        if ¬ key < candidate then searchRestarts bytes layout key fuel (middle + 1) last
        else searchRestarts bytes layout key fuel first middle
    else .ok first

/-- The group loop of `FindDataBlockEntry`: decode entries from `position` to `groupEnd`, with at
most `fuel` entries. -/
def scanRestartGroup (bytes : Bytes) (layout : V2BlockLayout) (key : Bytes) (sequence groupEnd : ℕ) :
    ℕ → ℕ → Bytes → Result InternalEntry
  | 0, _, _ => .error (.notFound "key has no visible version")
  | fuel + 1, position, previous =>
    if position < groupEnd then
      match decodeV2Entry bytes position layout.entriesEnd previous with
      | none => .error (.corruption "v2 data block restart group is invalid")
      | some (entry, next) =>
        if groupEnd < next then .error (.corruption "v2 data block restart group is invalid")
        else if entry.userKey < key then
          scanRestartGroup bytes layout key sequence groupEnd fuel next entry.userKey
        else if key < entry.userKey then .error (.notFound "key has no visible version")
        else if entry.sequence ≤ sequence then .ok entry
        else scanRestartGroup bytes layout key sequence groupEnd fuel next entry.userKey
    else .error (.notFound "key has no visible version")

/-- `FindDataBlockEntry`. -/
def findDataBlockEntry (bytes : Bytes) (version : ℕ) (key : Bytes) (sequence : ℕ) :
    Result InternalEntry :=
  if version = kSstableVersionV1 then
    match decodeDataBlockV1 bytes with
    | .error s => .error s
    | .ok entries => scanEntries key sequence entries
  else if version ≠ kSstableVersion then
    .error (.corruption "SSTable data block version is unsupported")
  else
    match parseV2BlockLayout bytes with
    | .error s => .error s
    | .ok layout =>
      match searchRestarts bytes layout key layout.restarts.length 0 layout.restarts.length with
      | .error s => .error s
      | .ok first =>
        let group := if first = 0 then 0 else first - 1
        let groupEnd := if group + 1 = layout.restarts.length then layout.entriesEnd
          else layout.restarts.getD (group + 1) 0
        let position := layout.restarts.getD group 0
        scanRestartGroup bytes layout key sequence groupEnd (groupEnd - position) position []

/-! ## Index, properties and footers -/

/-- One index entry as `EncodeIndex` writes it. -/
def encodeBlockMeta (b : BlockMeta) : Bytes :=
  putFixed32 b.firstKey.length ++ (putFixed32 b.lastKey.length ++ (putFixed64 b.offset ++
    (putFixed64 b.size ++ (b.firstKey ++ b.lastKey))))

/-- `EncodeIndex`. -/
def encodeIndex (blocks : List BlockMeta) : Result Bytes :=
  if ∃ b ∈ blocks, ¬ (fitsU32 b.firstKey.length ∧ fitsU32 b.lastKey.length) then
    .error (.invalidArgument "index key too large")
  else
    let out := putFixed32 blocks.length ++ blocks.flatMap encodeBlockMeta
    .ok (out ++ putFixed32 (crc32c out))

/-- The loop of `DecodeIndex` with `remaining` entries to read at position `p`. -/
def decodeBlockMetas (bytes : Bytes) : ℕ → ℕ → List BlockMeta → Result (List BlockMeta × ℕ)
  | 0, p, out => .ok (out, p)
  | remaining + 1, p, out =>
    match getFixed32 bytes p, getFixed32 bytes (p + 4), getFixed64 bytes (p + 8),
        getFixed64 bytes (p + 16) with
    | some first, some last, some offset, some size =>
      -- unsigned: when the 24 header bytes overlap the checksum the subtraction wraps
      if (bytes.length + 2 ^ 64 - 4 - (p + 24)) % 2 ^ 64 < first + last then
        .error (.corruption "index key length is invalid")
      else
        let b : BlockMeta := ⟨(bytes.drop (p + 24)).take first,
          (bytes.drop (p + 24 + first)).take last, offset, size⟩
        if b.lastKey < b.firstKey ∨ (∃ l, out.getLast? = some l ∧ ¬ l.lastKey < b.firstKey) then
          .error (.corruption "index key ranges overlap")
        else decodeBlockMetas bytes remaining (p + 24 + first + last) (out ++ [b])
    | _, _, _, _ => .error (.corruption "index entry is truncated")

/-- `DecodeIndex`. -/
def decodeIndex (bytes : Bytes) : Result (List BlockMeta) :=
  if bytes.length < 8 then .error (.corruption "index is truncated")
  else
    let expected := (getFixed32 bytes (bytes.length - 4)).getD 0
    let count := (getFixed32 bytes 0).getD 0
    if crc32c (bytes.take (bytes.length - 4)) ≠ expected then
      .error (.corruption "index checksum mismatch")
    else
      match decodeBlockMetas bytes count 4 [] with
      | .error s => .error s
      | .ok (out, p) =>
        if p ≠ bytes.length - 4 then .error (.corruption "index has trailing bytes") else .ok out

/-- The part of the properties section that its checksum covers. -/
def propertiesBody (p : TableProperties) : Bytes :=
  putFixed64 p.entryCount ++ (putFixed64 p.minSequence ++ (putFixed64 p.maxSequence ++
    (putFixed32 p.smallestKey.length ++ (putFixed32 p.largestKey.length ++
      (p.smallestKey ++ p.largestKey)))))

/-- `EncodeProperties`. -/
def encodeProperties (p : TableProperties) : Result Bytes :=
  if p.entryCount = 0 ∨ p.minSequence = 0 ∨ p.maxSequence < p.minSequence ∨
      p.largestKey < p.smallestKey ∨ ¬ fitsU32 p.smallestKey.length ∨
      ¬ fitsU32 p.largestKey.length then
    .error (.invalidArgument "SSTable properties are invalid")
  else .ok (propertiesBody p ++ putFixed32 (crc32c (propertiesBody p)))

/-- `DecodeProperties`. -/
def decodeProperties (bytes : Bytes) : Result TableProperties :=
  if bytes.length < 36 then .error (.corruption "SSTable properties are truncated")
  else
    let entryCount := (getFixed64 bytes 0).getD 0
    let minSequence := (getFixed64 bytes 8).getD 0
    let maxSequence := (getFixed64 bytes 16).getD 0
    let smallestSize := (getFixed32 bytes 24).getD 0
    let largestSize := (getFixed32 bytes 28).getD 0
    let expected := (getFixed32 bytes (bytes.length - 4)).getD 0
    if crc32c (bytes.take (bytes.length - 4)) ≠ expected then
      .error (.corruption "SSTable properties checksum mismatch")
    else if entryCount = 0 ∨ minSequence = 0 ∨ maxSequence < minSequence ∨
        smallestSize + largestSize ≠ bytes.length - 36 then
      .error (.corruption "SSTable properties length is invalid")
    else
      let smallestKey := (bytes.drop 32).take smallestSize
      let largestKey := (bytes.drop (32 + smallestSize)).take largestSize
      if largestKey < smallestKey then
        .error (.corruption "SSTable properties key range is invalid")
      else .ok ⟨entryCount, smallestKey, largestKey, minSequence, maxSequence⟩

/-- The part of a v2 footer that its checksum covers. -/
def footerBody (f : Footer) : Bytes :=
  putFixed32 f.version ++ (putFixed64 f.indexOffset ++ (putFixed64 f.indexSize ++
    (putFixed64 f.propertiesOffset ++ (putFixed64 f.propertiesSize ++ putFixed64 kSstableMagic))))

/-- `EncodeFooter`. -/
def encodeFooter (f : Footer) : Bytes :=
  footerBody f ++ (putFixed32 (crc32c (footerBody f)) ++ putFixed32 0)

/-- `DecodeFooter`: the layout is chosen by the length of the span. -/
def decodeFooter (bytes : Bytes) : Result Footer :=
  if bytes.length ≠ kSstableV1FooterSize ∧ bytes.length ≠ kSstableFooterSize then
    .error (.corruption "footer size is invalid")
  else
    let isV1Layout : Bool := bytes.length = kSstableV1FooterSize
    let version := (getFixed32 bytes 0).getD 0
    let indexOffset := (getFixed64 bytes 4).getD 0
    let indexSize := (getFixed64 bytes 12).getD 0
    let propertiesOffset := if isV1Layout then 0 else (getFixed64 bytes 20).getD 0
    let propertiesSize := if isV1Layout then 0 else (getFixed64 bytes 28).getD 0
    let magicOffset := if isV1Layout then 20 else 36
    let checksumOffset := if isV1Layout then 28 else 44
    let reservedOffset := if isV1Layout then 32 else 48
    let magic := (getFixed64 bytes magicOffset).getD 0
    let expected := (getFixed32 bytes checksumOffset).getD 0
    let reserved := (getFixed32 bytes reservedOffset).getD 0
    if (isV1Layout ∧ version ≠ kSstableVersionV1) ∨ (¬ isV1Layout ∧ version ≠ kSstableVersion) ∨
        magic ≠ kSstableMagic ∨ reserved ≠ 0 ∨ crc32c (bytes.take checksumOffset) ≠ expected then
      .error (.corruption "footer is invalid")
    else .ok ⟨version, indexOffset, indexSize, propertiesOffset, propertiesSize⟩

end TinyLsm
