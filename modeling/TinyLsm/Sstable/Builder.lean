import TinyLsm.Sstable.Format

/-!
# SSTableBuilder

`SSTableBuilder` of `sstable/sstable_builder.cpp`. The spans handed to `WritableFile::Append` are
kept in order, so that the file after a successful `Finish` is their concatenation; failures of the
file itself are added where the database drives the builder.
-/

namespace TinyLsm

/-- `BuiltTableInfo`. -/
structure BuiltTableInfo where
  fileSize : ℕ
  entryCount : ℕ
  smallestKey : Bytes
  largestKey : Bytes
  minSequence : ℕ
  maxSequence : ℕ
deriving DecidableEq, Repr

/-- The state of an `SSTableBuilder`. `appended` are the spans written to `file_` so far. -/
structure SSTableBuilder where
  blockBytes : ℕ
  restartInterval : ℕ
  pending : List InternalEntry
  pendingBytes : ℕ
  blocks : List BlockMeta
  offset : ℕ
  info : BuiltTableInfo
  hasEntries : Bool
  finished : Bool
  appended : List Bytes

namespace SSTableBuilder

/-- The constructor of `SSTableBuilder`. -/
def new (blockBytes restartInterval : ℕ) : SSTableBuilder :=
  { blockBytes, restartInterval, pending := [], pendingBytes := 0, blocks := [], offset := 0,
    info := ⟨0, 0, [], [], 0, 0⟩, hasEntries := false, finished := false, appended := [] }

/-- `SSTableBuilder::FlushBlock`. -/
def flushBlock (b : SSTableBuilder) : Result SSTableBuilder :=
  match b.pending.head?, b.pending.getLast? with
  | some front, some back =>
    match encodeDataBlock b.pending b.restartInterval with
    | .error s => .error s
    | .ok encoded =>
      if 2 ^ 64 - 1 - b.offset < encoded.length then
        .error (.resourceExhausted "SSTable offset space is exhausted")
      else
        .ok { b with
          appended := b.appended ++ [encoded]
          offset := b.offset + encoded.length
          blocks := b.blocks ++ [⟨front.userKey, back.userKey, b.offset, encoded.length⟩]
          pending := []
          pendingBytes := 0 }
  | _, _ => .ok b

/-- The size `Add` accounts for an entry. -/
def estimate (e : InternalEntry) : ℕ := 21 + e.userKey.length + e.value.length

/-- Whether `Add` starts a new block before taking the entry: only between different keys, and
only when the entry would exceed the block size. -/
def startsBlock (b : SSTableBuilder) (e : InternalEntry) : Prop :=
  ∃ last, b.pending.getLast? = some last ∧ last.userKey ≠ e.userKey ∧
    b.blockBytes < b.pendingBytes + estimate e + (b.pending.length + 1) * 4 + 8

instance (b : SSTableBuilder) (e : InternalEntry) : Decidable (startsBlock b e) := by
  unfold startsBlock; infer_instance

/-- The table summary after one more entry (`info_` in `Add`). -/
def addInfo (b : SSTableBuilder) (e : InternalEntry) : BuiltTableInfo :=
  { b.info with
    smallestKey := if b.hasEntries then b.info.smallestKey else e.userKey
    largestKey := e.userKey
    minSequence := if b.hasEntries then min b.info.minSequence e.sequence else e.sequence
    maxSequence := if b.hasEntries then max b.info.maxSequence e.sequence else e.sequence
    entryCount := b.info.entryCount + 1 }

/-- The end of `Add`: the entry joins the pending block. -/
def push (b : SSTableBuilder) (e : InternalEntry) : Result SSTableBuilder :=
  if b.info.entryCount = 2 ^ 64 - 1 then
    .error (.resourceExhausted "SSTable entry count is exhausted")
  else
    .ok { b with
      info := addInfo b e
      hasEntries := true
      pendingBytes := b.pendingBytes + estimate e
      pending := b.pending ++ [e] }

/-- `SSTableBuilder::Add`. -/
def add (b : SSTableBuilder) (e : InternalEntry) : Result SSTableBuilder :=
  if b.finished then .error (.invalidArgument "SSTable builder is finished")
  else if b.restartInterval = 0 then
    .error (.invalidArgument "SSTable restart interval must be non-zero")
  else if (∃ last, b.pending.getLast? = some last ∧ ¬ InternalLess last e) ∨
      (∃ block, b.blocks.getLast? = some block ∧ ¬ block.lastKey < e.userKey) then
    .error (.invalidArgument "SSTable keys must increase")
  else if startsBlock b e then
    match flushBlock b with
    | .error s => .error s
    | .ok b => push b e
  else push b e

/-- `SSTableBuilder::Finish`: the builder behind the call, and the result. -/
def finish (b : SSTableBuilder) : SSTableBuilder × Result BuiltTableInfo :=
  if b.finished then (b, .error (.invalidArgument "SSTable builder already finished"))
  else if b.pending = [] ∧ b.blocks = [] then
    (b, .error (.invalidArgument "cannot build empty SSTable"))
  else
    match flushBlock b with
    | .error s => (b, .error s)
    | .ok b =>
      match encodeIndex b.blocks with
      | .error s => (b, .error s)
      | .ok index =>
        if 2 ^ 64 - 1 - b.offset < index.length then
          (b, .error (.resourceExhausted "SSTable index offset space is exhausted"))
        else
          let indexOffset := b.offset
          -- from here on the index stands in the file
          let b := { b with
            appended := b.appended ++ [index]
            offset := b.offset + index.length }
          match encodeProperties ⟨b.info.entryCount, b.info.smallestKey, b.info.largestKey,
              b.info.minSequence, b.info.maxSequence⟩ with
          | .error s => (b, .error s)
          | .ok properties =>
            if 2 ^ 64 - 1 - b.offset < properties.length then
              (b, .error (.resourceExhausted "SSTable properties offset space is exhausted"))
            else
              let footer := encodeFooter ⟨kSstableVersion, indexOffset, index.length, b.offset,
                properties.length⟩
              -- the offset is a 64-bit counter; the footer's length is added without a check
              let fileSize := (b.offset + properties.length + footer.length) % 2 ^ 64
              let info := { b.info with fileSize := fileSize }
              ({ b with
                appended := b.appended ++ [properties, footer]
                offset := fileSize
                finished := true
                info := info }, .ok info)

/-- Adding entries one by one until the first failure; the builder is the one the failing `Add` was
called on. -/
def addAll (b : SSTableBuilder) : List InternalEntry → SSTableBuilder × Option Status
  | [] => (b, none)
  | e :: rest =>
    match add b e with
    | .error s => (b, some s)
    | .ok b => addAll b rest

end SSTableBuilder

/-- The spans a builder writes for `entries`, and how it ends: `Add` for each entry, then `Finish`,
as `FlushImmutableMemTable` and `CompactTablePrefix` drive it. -/
def buildTable (blockBytes restartInterval : ℕ) (entries : List InternalEntry) :
    List Bytes × Result BuiltTableInfo :=
  match (SSTableBuilder.new blockBytes restartInterval).addAll entries with
  | (b, some s) => (b.appended, .error s)
  | (b, none) =>
    match b.finish with
    | (b, result) => (b.appended, result)

end TinyLsm
