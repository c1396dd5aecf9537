import TinyLsm.Sstable.Builder

/-!
# SSTableReader

`SSTableReader` of `sstable/sstable_reader.cpp` over an immutable file. A block is read and decoded
where the source asks for it; the block cache only decides which of the two lookup paths `Get`
takes.
-/

namespace TinyLsm

/-- `SSTableProperties`. -/
structure SSTableProperties where
  fileSize : ℕ
  entryCount : ℕ
  smallestKey : Bytes
  largestKey : Bytes
  minSequence : ℕ
  maxSequence : ℕ
deriving DecidableEq, Repr

/-- `ReadExactly` (`io/file.cpp`) on the contents of a file. -/
def readExactly (file : Bytes) (offset size : ℕ) : Result Bytes :=
  if size = 0 then .ok []
  else if offset + size ≤ file.length then .ok ((file.drop offset).take size)
  else .error (.corruption "unexpected end of file")

/-- An open `SSTableReader`. -/
structure SSTableReader where
  file : Bytes
  fileSize : ℕ
  version : ℕ
  blocks : List BlockMeta
  persistedProperties : Option TableProperties
  tableNumber : ℕ
deriving DecidableEq, Repr

namespace SSTableReader

/-- The footer `SSTableReader::Open` takes: the v1 layout is tried first. -/
def readFooter (file : Bytes) : Result Footer :=
  if file.length < kSstableV1FooterSize then .error (.corruption "SSTable is too short")
  else
    match readExactly file (file.length - kSstableV1FooterSize) kSstableV1FooterSize with
    | .error s => .error s
    | .ok v1Bytes =>
      match decodeFooter v1Bytes with
      | .ok footer => .ok footer
      | .error s =>
        if file.length < kSstableFooterSize then .error s
        else
          match readExactly file (file.length - kSstableFooterSize) kSstableFooterSize with
          | .error s => .error s
          | .ok v2Bytes => decodeFooter v2Bytes

/-- The section checks of `SSTableReader::Open` on the footer. -/
def checkSections (file : Bytes) (footer : Footer) : Result Unit :=
  let footerSize := if footer.version = kSstableVersionV1 then kSstableV1FooterSize
    else kSstableFooterSize
  let sectionsEnd := file.length - footerSize
  if sectionsEnd < footer.indexOffset ∨ sectionsEnd - footer.indexOffset < footer.indexSize then
    .error (.corruption "SSTable index range is invalid")
  else if footer.version = kSstableVersionV1 then
    if footer.indexOffset + footer.indexSize ≠ sectionsEnd then
      .error (.corruption "v1 SSTable contains unreferenced bytes")
    else .ok ()
  else if footer.indexOffset + footer.indexSize ≠ footer.propertiesOffset ∨
      sectionsEnd < footer.propertiesOffset ∨
      sectionsEnd - footer.propertiesOffset < footer.propertiesSize ∨
      footer.propertiesOffset + footer.propertiesSize ≠ sectionsEnd then
    .error (.corruption "v2 SSTable section ranges are invalid")
  else .ok ()

/-- The persisted properties `SSTableReader::Open` reads from a v2 file. -/
def readProperties (file : Bytes) (footer : Footer) : Result (Option TableProperties) :=
  if footer.version = kSstableVersion then
    match readExactly file footer.propertiesOffset footer.propertiesSize with
    | .error s => .error s
    | .ok bytes =>
      match decodeProperties bytes with
      | .error s => .error s
      | .ok properties => .ok (some properties)
  else .ok none

/-- `SSTableReader::Open`. -/
def «open» (file : Bytes) (tableNumber : ℕ) : Result SSTableReader :=
  match readFooter file with
  | .error s => .error s
  | .ok footer =>
    match checkSections file footer with
    | .error s => .error s
    | .ok _ =>
      match readExactly file footer.indexOffset footer.indexSize with
      | .error s => .error s
      | .ok indexBytes =>
        match decodeIndex indexBytes with
        | .error s => .error s
        | .ok blocks =>
          match readProperties file footer with
          | .error s => .error s
          | .ok persisted =>
            if ∃ b ∈ blocks, footer.indexOffset < b.offset ∨
                footer.indexOffset - b.offset < b.size then
              .error (.corruption "SSTable block range is invalid")
            else .ok ⟨file, file.length, footer.version, blocks, persisted, tableNumber⟩

/-- `SSTableReader::ReadBlock`: the checked, decoded entries of a block. -/
def readBlock (r : SSTableReader) (m : BlockMeta) : Result (List InternalEntry) :=
  match readExactly r.file m.offset m.size with
  | .error s => .error s
  | .ok bytes =>
    match decodeDataBlock bytes r.version with
    | .error s => .error s
    | .ok entries =>
      match entries.head?, entries.getLast? with
      | some front, some back =>
        if front.userKey ≠ m.firstKey ∨ back.userKey ≠ m.lastKey then
          .error (.corruption "SSTable index key range does not match data block")
        else if ∃ e ∈ entries, e.sequence = 0 then
          .error (.corruption "SSTable entry sequence is invalid")
        else .ok entries
      | _, _ => .error (.corruption "SSTable contains an empty data block")

/-- `SSTableReader::FindInV2Block`. -/
def findInV2Block (r : SSTableReader) (m : BlockMeta) (key : Bytes) (sequence : ℕ) :
    Result InternalEntry :=
  match readExactly r.file m.offset m.size with
  | .error s => .error s
  | .ok bytes => findDataBlockEntry bytes kSstableVersion key sequence

/-- One entry of the summary loop of `ValidateAndGetProperties`. -/
def addProperties (p : SSTableProperties) (e : InternalEntry) : SSTableProperties :=
  { p with
    smallestKey := if p.entryCount = 0 then e.userKey else p.smallestKey
    largestKey := e.userKey
    minSequence := if p.entryCount = 0 then e.sequence else min p.minSequence e.sequence
    maxSequence := if p.entryCount = 0 then e.sequence else max p.maxSequence e.sequence
    entryCount := p.entryCount + 1 }

/-- The block loop of `ValidateAndGetProperties`; `previous` is the last key of the block before. -/
def validateBlocks (r : SSTableReader) :
    Option Bytes → SSTableProperties → List BlockMeta → Result SSTableProperties
  | _, p, [] => .ok p
  | previous, p, block :: rest =>
    match r.readBlock block with
    | .error s => .error s
    | .ok entries =>
      if ∃ last, previous = some last ∧
          ∃ front, entries.head? = some front ∧ ¬ last < front.userKey then
        .error (.corruption "SSTable data block keys are not strictly ordered")
      else
        validateBlocks r (entries.getLast?.map (·.userKey)) (entries.foldl addProperties p) rest

/-- `SSTableReader::ValidateAndGetProperties`. -/
def validateAndGetProperties (r : SSTableReader) : Result SSTableProperties :=
  if r.blocks = [] then .error (.corruption "SSTable contains no data blocks")
  else
    match validateBlocks r none ⟨r.fileSize, 0, [], [], 0, 0⟩ r.blocks with
    | .error s => .error s
    | .ok p =>
      if ∃ q, r.persistedProperties = some q ∧ (p.entryCount ≠ q.entryCount ∨
          p.smallestKey ≠ q.smallestKey ∨ p.largestKey ≠ q.largestKey ∨
          p.minSequence ≠ q.minSequence ∨ p.maxSequence ≠ q.maxSequence) then
        .error (.corruption "SSTable properties do not match data blocks")
      else .ok p

/-- The version loop of `SSTableReader::Get`: the entries of `key` at the front of the list. -/
def scanVersions (key : Bytes) (sequence : ℕ) : List InternalEntry → Result InternalEntry
  | [] => .error (.notFound "key has no visible version")
  | e :: rest =>
    if e.userKey = key then
      if e.sequence ≤ sequence then .ok e else scanVersions key sequence rest
    else .error (.notFound "key has no visible version")

/-- The part of `SSTableReader::Get` behind `ReadBlock`: `lower_bound` by key, then the versions. -/
def searchDecoded (key : Bytes) (sequence : ℕ) (entries : List InternalEntry) :
    Result InternalEntry :=
  match entries.dropWhile (·.userKey < key) with
  | [] => .error (.notFound "key is absent")
  | e :: rest =>
    if e.userKey ≠ key then .error (.notFound "key is absent")
    else scanVersions key sequence (e :: rest)

/-- `SSTableReader::Get`. `cached` says whether there is an enabled block cache: with one, the
whole block is decoded; without, a v2 block is searched by its restart keys. -/
def get (r : SSTableReader) (cached : Bool) (key : Bytes) (sequence : ℕ) : Result InternalEntry :=
  match r.blocks.dropWhile (·.lastKey < key) with
  | [] => .error (.notFound "key is absent")
  | m :: _ =>
    if key < m.firstKey then .error (.notFound "key is absent")
    else if r.version = kSstableVersion ∧ cached = false then r.findInV2Block m key sequence
    else
      match r.readBlock m with
      | .error s => .error s
      | .ok entries => searchDecoded key sequence entries

end SSTableReader

end TinyLsm
