import TinyLsm.Sstable.Validation

/-!
# Data blocks decoded with machine integers

`DecodeDataBlock` and `FindDataBlockEntry` with every read, every unsigned computation and every loop
checked: on blocks below 4 GiB they do not fault, and return what the plain functions return. A block
that is accepted is a sequence of ordered entries, and in version 2 the encoding of one.
-/

namespace TinyLsm

namespace Machine

open Faulting

/-! ## Version 2 entries and layout -/

/-- The four fields of a v2 entry; `DecodeV2Entry` stops at the first that is truncated. -/
def readV2Header (bytes : Bytes) (position : ℕ) : Faulting (Option (ℕ × ℕ × ℕ × ℕ)) :=
  bindSome (getFixed32 bytes position) fun shared =>
    bindSome (do getFixed32 bytes (← add 64 position 4)) fun unshared =>
      bindSome (do getFixed64 bytes (← add 64 position 8)) fun sequence =>
        bindSome (do getFixed32 bytes (← add 64 position 17)) fun valueSize =>
          .ok (some (shared, unshared, sequence, valueSize))

/-- `DecodeV2Entry`. -/
def decodeV2Entry (bytes : Bytes) (position entriesEnd : ℕ) (previous : Bytes) :
    Faulting (Option (InternalEntry × ℕ)) := do
  match ← readV2Header bytes position with
  | none => return none
  | some (shared, unshared, sequence, valueSize) =>
    let invalid ← orElse (previous.length < shared ∨ entriesEnd < position) do
      orElse ((← sub entriesEnd position) < 21) do
        let room ← sub (← sub entriesEnd position) 21
        return decide (room < (← add 64 unshared valueSize))
    if invalid then return none
    match ValueType.ofByte? (← load bytes (← add 64 position 16)) with
    | none => return none
    | some type =>
      if sequence = 0 then return none
      let front ← slice previous 0 shared
      let body ← add 64 position 21
      let key := front ++ (← slice bytes body unshared)
      let value ← slice bytes (← add 64 body unshared) valueSize
      let position ← add 64 position (← add 64 (← add 64 21 unshared) valueSize)
      if type = .tombstone ∧ value ≠ [] then return none
      return some (⟨key, sequence, type, value⟩, position)

/-- The `i`th 32-bit offset of an array in the block. -/
def readOffset (bytes : Bytes) (start i : ℕ) : Faulting ℕ := do
  return (← getFixed32 bytes (← add 64 start (← mul 64 4 i))).getD 0

/-- The restart loop of `ParseV2BlockLayout`. -/
def parseRestarts (bytes : Bytes) (restartsBegin : ℕ) :
    ℕ → ℕ → List ℕ → Faulting (Result (List ℕ))
  | 0, _, restarts => .ok (.ok restarts)
  | remaining + 1, i, restarts => do
    let restart ← readOffset bytes restartsBegin i
    if restartsBegin ≤ restart ∨ (∃ last, restarts.getLast? = some last ∧ restart ≤ last) then
      return .error (.corruption "v2 data block restart offset is invalid")
    parseRestarts bytes restartsBegin remaining (← add 32 i 1) (restarts ++ [restart])

/-- `ParseV2BlockLayout`. -/
def parseV2BlockLayout (bytes : Bytes) : Faulting (Result V2BlockLayout) :=
  if bytes.length < 12 then .ok (.error (.corruption "v2 data block is truncated"))
  else do
    let restartCount := (← getFixed32 bytes (← sub bytes.length 12)).getD 0
    let entryCount := (← getFixed32 bytes (← sub bytes.length 8)).getD 0
    let expected := (← getFixed32 bytes (← sub bytes.length 4)).getD 0
    if crc32c (← slice bytes 0 (← sub bytes.length 4)) ≠ expected then
      return .error (.corruption "v2 data block checksum mismatch")
    if entryCount = 0 ∨ restartCount = 0 ∨ entryCount < restartCount then
      return .error (.corruption "v2 data block restart count is invalid")
    let restartBytes ← mul 64 4 restartCount
    if (← sub bytes.length 12) < restartBytes then
      return .error (.corruption "v2 data block restarts are truncated")
    let restartsBegin ← sub (← sub bytes.length 12) restartBytes
    match ← parseRestarts bytes restartsBegin restartCount 0 [] with
    | .error s => return .error s
    | .ok restarts =>
      if (← load restarts 0) ≠ 0 then
        return .error (.corruption "v2 data block first restart is invalid")
      return .ok ⟨restartsBegin, restarts, entryCount⟩

/-- The entry loop of `DecodeDataBlockV2`. -/
def decodeV2Entries (bytes : Bytes) (layout : V2BlockLayout) :
    ℕ → ℕ → ℕ → Bytes → List InternalEntry → Faulting (Result (List InternalEntry × ℕ × ℕ))
  | 0, position, restartIndex, _, out => .ok (.ok (out, position, restartIndex))
  | remaining + 1, position, restartIndex, previous, out => do
    let atRestart ← andAlso (restartIndex < layout.restarts.length) do
      return decide (position = (← load layout.restarts restartIndex))
    let restartIndex ← (if atRestart then add 64 restartIndex 1 else .ok restartIndex)
    match ← decodeV2Entry bytes position layout.entriesEnd (if atRestart then [] else previous) with
    | none => return .error (.corruption "v2 data block entry is invalid")
    | some (entry, next) =>
      if ∃ last, out.getLast? = some last ∧ ¬ InternalLess last entry then
        return .error (.corruption "v2 data block entries are not strictly ordered")
      decodeV2Entries bytes layout remaining next restartIndex entry.userKey (out ++ [entry])

/-- `DecodeDataBlockV2`. -/
def decodeDataBlockV2 (bytes : Bytes) : Faulting (Result (List InternalEntry)) := do
  match ← parseV2BlockLayout bytes with
  | .error s => return .error s
  | .ok layout =>
    match ← decodeV2Entries bytes layout layout.entryCount 0 0 [] [] with
    | .error s => return .error s
    | .ok (out, position, restartIndex) =>
      if position ≠ layout.entriesEnd ∨ restartIndex ≠ layout.restarts.length then
        return .error (.corruption "v2 data block entry or restart layout is invalid")
      return .ok out

/-! ## Version 1 blocks -/

/-- The entry loop of `DecodeDataBlockV1` with `remaining` entries to decode from index `i` on. The
offsets are 32-bit. -/
def decodeV1Entries (bytes : Bytes) (offsetsStart : ℕ) :
    ℕ → ℕ → List InternalEntry → Faulting (Result (List InternalEntry))
  | 0, _, out => .ok (.ok out)
  | remaining + 1, i, out => do
    let offset ← readOffset bytes offsetsStart i
    let start ← narrow 32 offsetsStart
    let following ← add 32 i 1
    let next ← (if remaining = 0 then .ok start else readOffset bytes offsetsStart following)
    let invalid ← orElse (next < offset ∨ offsetsStart < next) do
      return decide ((← sub next offset) < 17)
    if invalid then return .error (.corruption "data block entry offset is invalid")
    let sequence := (← getFixed64 bytes offset).getD 0
    let keySize := (← getFixed32 bytes (← add 32 offset 9)).getD 0
    let valueSize := (← getFixed32 bytes (← add 32 offset 13)).getD 0
    if (← add 64 (← add 64 17 keySize) valueSize) ≠ (← sub next offset) then
      return .error (.corruption "data block entry length is invalid")
    match ValueType.ofByte? (← load bytes (← add 32 offset 8)) with
    | none => return .error (.corruption "data block type is invalid")
    | some type =>
      let entry : InternalEntry := ⟨← slice bytes (offset + 17) keySize, sequence, type,
        ← slice bytes (offset + 17 + keySize) valueSize⟩
      if (∃ last, out.getLast? = some last ∧ ¬ InternalLess last entry) ∨
          (entry.type = .tombstone ∧ entry.value ≠ []) then
        return .error (.corruption "data block entries are not strictly ordered")
      decodeV1Entries bytes offsetsStart remaining following (out ++ [entry])

/-- `DecodeDataBlockV1`. -/
def decodeDataBlockV1 (bytes : Bytes) : Faulting (Result (List InternalEntry)) :=
  if bytes.length < 8 then .ok (.error (.corruption "data block is truncated"))
  else do
    let count := (← getFixed32 bytes (← sub bytes.length 8)).getD 0
    let expected := (← getFixed32 bytes (← sub bytes.length 4)).getD 0
    if crc32c (← slice bytes 0 (← sub bytes.length 4)) ≠ expected then
      return .error (.corruption "data block checksum mismatch")
    let trailer ← add 64 8 (← mul 64 4 count)
    if bytes.length < trailer then
      return .error (.corruption "data block offsets are truncated")
    decodeV1Entries bytes (← sub bytes.length trailer) count 0 []

/-- `DecodeDataBlock`. -/
def decodeDataBlock (bytes : Bytes) (version : ℕ) : Faulting (Result (List InternalEntry)) :=
  if version = kSstableVersionV1 then decodeDataBlockV1 bytes
  else if version = kSstableVersion then decodeDataBlockV2 bytes
  else .ok (.error (.corruption "SSTable data block version is unsupported"))

/-! ## Point search -/

/-- The `restart_key` lambda of `FindDataBlockEntry`. -/
def restartKey (bytes : Bytes) (layout : V2BlockLayout) (index : ℕ) : Faulting (Result Bytes) := do
  match ← decodeV2Entry bytes (← load layout.restarts index) layout.entriesEnd [] with
  | none => return .error (.corruption "v2 data block restart entry is invalid")
  | some (entry, position) =>
    if layout.entriesEnd < position then
      return .error (.corruption "v2 data block restart entry is invalid")
    return .ok entry.userKey

/-- The binary search of `FindDataBlockEntry`. It faults when `fuel` halvings do not end it. -/
def searchRestarts (bytes : Bytes) (layout : V2BlockLayout) (key : Bytes) :
    ℕ → ℕ → ℕ → Faulting (Result ℕ)
  | 0, first, last => if first < last then .error .outOfFuel else .ok (.ok first)
  | fuel + 1, first, last =>
    if first < last then do
      let middle ← add 64 first ((← sub last first) / 2)
      match ← restartKey bytes layout middle with
      | .error s => return .error s
      | .ok candidate =>
        if ¬ key < candidate then searchRestarts bytes layout key fuel (← add 64 middle 1) last
        else searchRestarts bytes layout key fuel first middle
    else .ok (.ok first)

/-- The group loop of `FindDataBlockEntry`. It faults when `fuel` entries do not end it. -/
def scanRestartGroup (bytes : Bytes) (layout : V2BlockLayout) (key : Bytes) (sequence groupEnd : ℕ) :
    ℕ → ℕ → Bytes → Faulting (Result InternalEntry)
  | 0, position, _ =>
    if position < groupEnd then .error .outOfFuel
    else .ok (.error (.notFound "key has no visible version"))
  | fuel + 1, position, previous =>
    if position < groupEnd then do
      match ← decodeV2Entry bytes position layout.entriesEnd previous with
      | none => return .error (.corruption "v2 data block restart group is invalid")
      | some (entry, next) =>
        if groupEnd < next then
          return .error (.corruption "v2 data block restart group is invalid")
        if entry.userKey < key then
          scanRestartGroup bytes layout key sequence groupEnd fuel next entry.userKey
        else if key < entry.userKey then
          return .error (.notFound "key has no visible version")
        else if entry.sequence ≤ sequence then return .ok entry
        else scanRestartGroup bytes layout key sequence groupEnd fuel next entry.userKey
    else .ok (.error (.notFound "key has no visible version"))

/-- `FindDataBlockEntry`. The search takes at most one round for each restart, and the scan one for
each byte of the group. -/
def findDataBlockEntry (bytes : Bytes) (version : ℕ) (key : Bytes) (sequence : ℕ) :
    Faulting (Result InternalEntry) :=
  if version = kSstableVersionV1 then do
    match ← decodeDataBlockV1 bytes with
    | .error s => return .error s
    | .ok entries => return scanEntries key sequence entries
  else if version ≠ kSstableVersion then
    .ok (.error (.corruption "SSTable data block version is unsupported"))
  else do
    match ← parseV2BlockLayout bytes with
    | .error s => return .error s
    | .ok layout =>
      match ← searchRestarts bytes layout key layout.restarts.length 0 layout.restarts.length with
      | .error s => return .error s
      | .ok first =>
        let group ← (if first = 0 then .ok 0 else sub first 1)
        let following ← add 64 group 1
        let groupEnd ← (if following = layout.restarts.length then .ok layout.entriesEnd
          else load layout.restarts following)
        let position ← load layout.restarts group
        scanRestartGroup bytes layout key sequence groupEnd (groupEnd - position) position []

/-! ## No faults -/

variable {bytes : Bytes}

theorem readV2Header_eq (h : bytes.length < 2 ^ 32) (position : ℕ) :
    readV2Header bytes position = .ok (if position + 21 ≤ bytes.length then
      some ((TinyLsm.getFixed32 bytes position).getD 0,
        (TinyLsm.getFixed32 bytes (position + 4)).getD 0,
        (TinyLsm.getFixed64 bytes (position + 8)).getD 0,
        (TinyLsm.getFixed32 bytes (position + 17)).getD 0)
      else none) := by
  unfold readV2Header
  have h64 : bytes.length < 2 ^ 64 := by omega
  simp (disch := omega) only [bindSome_getFixed32 h64, bindSome_getFixed64 h64, add_of_lt, ok_bind]
  split_ifs <;> first | rfl | omega

/-- The entry whose header lies inside the block. -/
theorem plain_decodeV2Entry {position : ℕ} (entriesEnd : ℕ) (previous : Bytes)
    (hle : position + 21 ≤ bytes.length) :
    TinyLsm.decodeV2Entry bytes position entriesEnd previous =
      let shared := (TinyLsm.getFixed32 bytes position).getD 0
      let unshared := (TinyLsm.getFixed32 bytes (position + 4)).getD 0
      let sequence := (TinyLsm.getFixed64 bytes (position + 8)).getD 0
      let valueSize := (TinyLsm.getFixed32 bytes (position + 17)).getD 0
      if previous.length < shared ∨ entriesEnd < position ∨ entriesEnd - position < 21 ∨
          entriesEnd - position - 21 < unshared + valueSize then none
      else (ValueType.ofByte? (bytes.getD (position + 16) 0)).bind fun type =>
        if sequence = 0 then none
        else
          let key := previous.take shared ++ (bytes.drop (position + 21)).take unshared
          let value := (bytes.drop (position + 21 + unshared)).take valueSize
          if type = .tombstone ∧ value ≠ [] then none
          else some (⟨key, sequence, type, value⟩, position + 21 + unshared + valueSize) := by
  have hread : ∀ {w off : ℕ}, off + w ≤ bytes.length →
      LittleEndian.readAt w bytes off = some ((LittleEndian.readAt w bytes off).getD 0) :=
    fun hle => by rw [LittleEndian.readAt_of_le hle, Option.getD_some]
  unfold TinyLsm.decodeV2Entry TinyLsm.getFixed32 TinyLsm.getFixed64
  rw [hread (by omega : position + 4 ≤ bytes.length),
    hread (by omega : position + 4 + 4 ≤ bytes.length),
    hread (by omega : position + 8 + 8 ≤ bytes.length),
    hread (by omega : position + 17 + 4 ≤ bytes.length)]
  rfl

theorem plain_decodeV2Entry_none {position : ℕ} (entriesEnd : ℕ) (previous : Bytes)
    (hlt : bytes.length < position + 21) :
    TinyLsm.decodeV2Entry bytes position entriesEnd previous = none := by
  have hlast : TinyLsm.getFixed32 bytes (position + 17) = none :=
    LittleEndian.readAt_eq_none_iff.mpr (by omega)
  unfold TinyLsm.decodeV2Entry
  rw [hlast]
  cases TinyLsm.getFixed32 bytes position with
  | none => rfl
  | some shared =>
    cases TinyLsm.getFixed32 bytes (position + 4) with
    | none => rfl
    | some unshared => cases TinyLsm.getFixed64 bytes (position + 8) <;> rfl

/-- `DecodeV2Entry` does not fault. -/
theorem decodeV2Entry_eq (h : bytes.length < 2 ^ 32) {entriesEnd : ℕ}
    (hend : entriesEnd ≤ bytes.length) (position : ℕ) (previous : Bytes) :
    decodeV2Entry bytes position entriesEnd previous =
      .ok (TinyLsm.decodeV2Entry bytes position entriesEnd previous) := by
  unfold decodeV2Entry
  rw [readV2Header_eq h, ok_bind]
  by_cases hle : position + 21 ≤ bytes.length
  · rw [if_pos hle, plain_decodeV2Entry entriesEnd previous hle]
    have hunshared : (TinyLsm.getFixed32 bytes (position + 4)).getD 0 < 2 ^ 32 :=
      LittleEndian.readAt_lt bytes _
    have hvalue : (TinyLsm.getFixed32 bytes (position + 17)).getD 0 < 2 ^ 32 :=
      LittleEndian.readAt_lt bytes _
    set shared := (TinyLsm.getFixed32 bytes position).getD 0
    set unshared := (TinyLsm.getFixed32 bytes (position + 4)).getD 0
    set valueSize := (TinyLsm.getFixed32 bytes (position + 17)).getD 0
    have hinvalid : (orElse (previous.length < shared ∨ entriesEnd < position) do
          orElse ((← sub entriesEnd position) < 21) do
            let room ← sub (← sub entriesEnd position) 21
            return decide (room < (← add 64 unshared valueSize))) =
        .ok (decide ((previous.length < shared ∨ entriesEnd < position) ∨
          entriesEnd - position < 21 ∨ entriesEnd - position - 21 < unshared + valueSize)) := by
      refine orElse_eq fun hin => ?_
      rw [sub_of_le (by omega), ok_bind]
      refine orElse_eq fun hheader => ?_
      rw [ok_bind, sub_of_le (not_lt.mp hheader), ok_bind, add_of_lt (by omega), ok_bind]
      rfl
    dsimp only
    rw [hinvalid, ok_bind]
    simp only [decide_eq_true_eq, or_assoc]
    refine ite_pure fun hfits => ?_
    simp only [not_or, not_lt] at hfits
    rw [add_of_lt (by omega), ok_bind, load_of_lt 0 (by omega), ok_bind]
    cases ValueType.ofByte? (bytes.getD (position + 16) 0) with
    | none => rfl
    | some type =>
      refine ite_pure fun _ => ?_
      rw [slice_of_le (by omega : 0 + shared ≤ previous.length), ok_bind, add_of_lt (by omega), ok_bind,
        slice_of_le (by omega), ok_bind, add_of_lt (by omega), ok_bind, slice_of_le (by omega), ok_bind,
        add_of_lt (by omega), ok_bind, add_of_lt (by omega), ok_bind, add_of_lt (by omega), ok_bind,
        List.drop_zero]
      have hnext : position + (21 + unshared + valueSize) = position + 21 + unshared + valueSize := by
        omega
      rw [hnext]
      exact ite_pure fun _ => rfl
  · rw [if_neg hle, plain_decodeV2Entry_none entriesEnd previous (not_le.mp hle)]
    rfl

theorem readOffset_eq (h : bytes.length < 2 ^ 32) {start i : ℕ} (hle : start + 4 * i ≤ bytes.length) :
    readOffset bytes start i = .ok ((TinyLsm.getFixed32 bytes (start + 4 * i)).getD 0) := by
  rw [readOffset, mul_of_lt (by omega), ok_bind, add_of_lt (by omega), ok_bind,
    getFixed32_eq (by omega), ok_bind]
  rfl

theorem parseRestarts_eq (h : bytes.length < 2 ^ 32) {restartsBegin remaining : ℕ} :
    ∀ {i : ℕ} {restarts : List ℕ}, restartsBegin + 4 * (i + remaining) ≤ bytes.length →
      parseRestarts bytes restartsBegin remaining i restarts =
        .ok (TinyLsm.parseRestarts bytes restartsBegin remaining i restarts) := by
  induction remaining with
  | zero => intros; rfl
  | succ remaining ih =>
    intro i restarts hle
    unfold parseRestarts TinyLsm.parseRestarts
    rw [readOffset_eq h (by omega), ok_bind]
    refine ite_pure fun _ => ?_
    rw [add_of_lt (by omega), ok_bind]
    exact ih (by omega)

/-- As many offsets are read as asked for. -/
theorem length_parseRestarts {restartsBegin remaining : ℕ} :
    ∀ {i : ℕ} {restarts out : List ℕ},
      TinyLsm.parseRestarts bytes restartsBegin remaining i restarts = .ok out →
      out.length = restarts.length + remaining := by
  induction remaining with
  | zero =>
    intro i restarts out hout
    rw [← Except.ok.inj hout]
    rfl
  | succ remaining ih =>
    intro i restarts out hout
    unfold TinyLsm.parseRestarts at hout
    dsimp only at hout
    split at hout
    · cases hout
    · rw [ih hout, List.length_append, List.length_singleton]
      omega

/-- `ParseV2BlockLayout` does not fault. -/
theorem parseV2BlockLayout_eq (h : bytes.length < 2 ^ 32) :
    parseV2BlockLayout bytes = .ok (TinyLsm.parseV2BlockLayout bytes) := by
  unfold parseV2BlockLayout TinyLsm.parseV2BlockLayout
  split
  · rfl
  rename_i hlen
  have h64 : bytes.length < 2 ^ 64 := by omega
  have hcount : (TinyLsm.getFixed32 bytes (bytes.length - 12)).getD 0 < 2 ^ 32 :=
    LittleEndian.readAt_lt bytes _
  simp (disch := omega) only [sub_of_le, ok_bind, getFixed32_eq h64, slice_of_le, mul_of_lt,
    List.drop_zero]
  set restartCount := (TinyLsm.getFixed32 bytes (bytes.length - 12)).getD 0
  refine ite_pure fun _ => ite_pure fun hcounts => ite_pure fun hroom => ?_
  rw [sub_of_le (by omega), ok_bind, parseRestarts_eq h (by omega), ok_bind]
  cases hparse : TinyLsm.parseRestarts bytes (bytes.length - 12 - 4 * restartCount) restartCount 0 []
    with
  | error s => rfl
  | ok restarts =>
    dsimp only
    have hlength := length_parseRestarts hparse
    rw [List.length_nil, Nat.zero_add] at hlength
    obtain ⟨first, rest, rfl⟩ := List.exists_cons_of_length_pos
      (by omega : 0 < restarts.length)
    have hfirst : load (first :: rest) 0 = .ok first := rfl
    rw [hfirst, ok_bind]
    simp only [List.head?_cons, ne_eq, Option.some.injEq]
    exact ite_pure fun _ => rfl

/-- The layout of a block lies inside it. -/
structure LayoutInside (bytes : Bytes) (layout : V2BlockLayout) : Prop where
  entriesEnd_le : layout.entriesEnd ≤ bytes.length
  restarts_pos : 0 < layout.restarts.length
  restarts_le : layout.restarts.length ≤ bytes.length
  restarts_lt : ∀ r ∈ layout.restarts, r < layout.entriesEnd

theorem parseRestarts_lt {restartsBegin remaining : ℕ} :
    ∀ {i : ℕ} {restarts out : List ℕ}, (∀ r ∈ restarts, r < restartsBegin) →
      TinyLsm.parseRestarts bytes restartsBegin remaining i restarts = .ok out →
      ∀ r ∈ out, r < restartsBegin := by
  induction remaining with
  | zero =>
    intro i restarts out hlt hout
    rwa [← Except.ok.inj hout]
  | succ remaining ih =>
    intro i restarts out hlt hout
    unfold TinyLsm.parseRestarts at hout
    dsimp only at hout
    split at hout
    · cases hout
    · rename_i hcheck
      refine ih (fun r hr => ?_) hout
      rcases List.mem_append.mp hr with hr | hr
      · exact hlt r hr
      · obtain rfl := List.mem_singleton.mp hr
        exact not_le.mp fun hle => hcheck (.inl hle)

theorem layoutInside {layout : V2BlockLayout} (h : TinyLsm.parseV2BlockLayout bytes = .ok layout) :
    LayoutInside bytes layout := by
  unfold TinyLsm.parseV2BlockLayout at h
  dsimp only at h
  split at h
  · cases h
  split at h
  · cases h
  split at h
  · cases h
  rename_i hcounts
  split at h
  · cases h
  rename_i hroom
  split at h
  · cases h
  rename_i restarts hparse
  split at h
  · cases h
  obtain rfl := Except.ok.inj h
  have hlength := length_parseRestarts hparse
  rw [List.length_nil, Nat.zero_add] at hlength
  refine ⟨by dsimp only; omega, by dsimp only; omega, by dsimp only; omega, ?_⟩
  exact parseRestarts_lt (by simp) hparse

variable {layout : V2BlockLayout}

/-- The entry loop of version 2 stays inside the block. -/
theorem decodeV2Entries_eq (h : bytes.length < 2 ^ 32) (hin : LayoutInside bytes layout)
    {remaining : ℕ} : ∀ {position restartIndex : ℕ} {previous : Bytes} {out : List InternalEntry},
      decodeV2Entries bytes layout remaining position restartIndex previous out =
        .ok (TinyLsm.decodeV2Entries bytes layout remaining position restartIndex previous out) := by
  have hend := hin.entriesEnd_le
  have hrestarts := hin.restarts_le
  induction remaining with
  | zero => intros; rfl
  | succ remaining ih =>
    intro position restartIndex previous out
    have hat : (andAlso (restartIndex < layout.restarts.length) do
          return decide (position = (← load layout.restarts restartIndex))) =
        .ok (decide (layout.restarts[restartIndex]? = some position)) := by
      unfold andAlso
      split
      · rename_i hlt
        rw [load_of_lt 0 hlt, ok_bind, List.getElem?_eq_getElem hlt, List.getD_eq_getElem _ _ hlt]
        simp only [Option.some.injEq, eq_comm]
        rfl
      · rename_i hge
        rw [List.getElem?_eq_none (not_lt.mp hge)]
        rfl
    unfold decodeV2Entries TinyLsm.decodeV2Entries
    rw [hat, ok_bind]
    by_cases hrestart : layout.restarts[restartIndex]? = some position
    · obtain ⟨hlt, -⟩ := List.getElem?_eq_some_iff.mp hrestart
      simp only [hrestart, decide_true, if_true]
      rw [add_of_lt (by omega), ok_bind, decodeV2Entry_eq h hend, ok_bind]
      rcases TinyLsm.decodeV2Entry bytes position layout.entriesEnd [] with _ | ⟨entry, next⟩
      · rfl
      · exact ite_pure fun _ => ih
    · simp only [hrestart, decide_false, if_false, Bool.false_eq_true]
      rw [ok_bind, decodeV2Entry_eq h hend, ok_bind]
      rcases TinyLsm.decodeV2Entry bytes position layout.entriesEnd previous with _ | ⟨entry, next⟩
      · rfl
      · exact ite_pure fun _ => ih

/-- `DecodeDataBlockV2` does not fault. -/
theorem decodeDataBlockV2_eq (h : bytes.length < 2 ^ 32) :
    decodeDataBlockV2 bytes = .ok (TinyLsm.decodeDataBlockV2 bytes) := by
  unfold decodeDataBlockV2 TinyLsm.decodeDataBlockV2
  rw [parseV2BlockLayout_eq h, ok_bind]
  cases hlayout : TinyLsm.parseV2BlockLayout bytes with
  | error s => rfl
  | ok layout =>
    dsimp only
    rw [decodeV2Entries_eq h (layoutInside hlayout), ok_bind]
    rcases TinyLsm.decodeV2Entries bytes layout layout.entryCount 0 0 [] [] with s | ⟨out, position, i⟩
    · rfl
    · exact ite_pure fun _ => rfl

/-- The entry loop of version 1 stays inside the block. -/
theorem decodeV1Entries_eq (h : bytes.length < 2 ^ 32) {offsetsStart remaining : ℕ} :
    ∀ {i : ℕ} {out : List InternalEntry}, offsetsStart + 4 * (i + remaining) ≤ bytes.length →
      decodeV1Entries bytes offsetsStart remaining i out =
        .ok (TinyLsm.decodeV1Entries bytes offsetsStart remaining i out) := by
  have h64 : bytes.length < 2 ^ 64 := by omega
  induction remaining with
  | zero => intros; rfl
  | succ remaining ih =>
    intro i out hle
    unfold decodeV1Entries TinyLsm.decodeV1Entries
    rw [readOffset_eq h (by omega), ok_bind, narrow_of_lt (by omega), ok_bind,
      add_of_lt (by omega), ok_bind]
    set offset := (TinyLsm.getFixed32 bytes (offsetsStart + 4 * i)).getD 0
    have hnext : (if remaining = 0 then (.ok offsetsStart : Faulting ℕ)
          else readOffset bytes offsetsStart (i + 1)) =
        .ok (if remaining = 0 then offsetsStart % 2 ^ 32
          else (TinyLsm.getFixed32 bytes (offsetsStart + 4 * (i + 1))).getD 0) := by
      split
      · rw [Nat.mod_eq_of_lt (by omega)]
      · exact readOffset_eq h (by omega)
    rw [hnext, ok_bind]
    dsimp only
    generalize (if remaining = 0 then offsetsStart % 2 ^ 32
      else (TinyLsm.getFixed32 bytes (offsetsStart + 4 * (i + 1))).getD 0) = next
    have hinvalid : (orElse (next < offset ∨ offsetsStart < next) do
          return decide ((← sub next offset) < 17)) =
        .ok (decide ((next < offset ∨ offsetsStart < next) ∨ next - offset < 17)) := by
      refine orElse_eq fun hin => ?_
      rw [sub_of_le (by omega), ok_bind]
      rfl
    rw [hinvalid, ok_bind]
    simp only [decide_eq_true_eq, or_assoc]
    refine ite_pure fun hin => ?_
    simp only [not_or, not_lt] at hin
    have hkey : (TinyLsm.getFixed32 bytes (offset + 9)).getD 0 < 2 ^ 32 :=
      LittleEndian.readAt_lt bytes _
    have hvalue : (TinyLsm.getFixed32 bytes (offset + 13)).getD 0 < 2 ^ 32 :=
      LittleEndian.readAt_lt bytes _
    simp (disch := omega) only [getFixed64_eq h64, getFixed32_eq h64, ok_bind, add_of_lt, sub_of_le]
    refine ite_pure fun hsize => ?_
    rw [not_not] at hsize
    rw [load_of_lt 0 (by omega), ok_bind]
    cases ValueType.ofByte? (bytes.getD (offset + 8) 0) with
    | none => rfl
    | some type =>
      simp (disch := omega) only [slice_of_le, ok_bind]
      exact ite_pure fun _ => ih (by omega)

/-- `DecodeDataBlockV1` does not fault. -/
theorem decodeDataBlockV1_eq (h : bytes.length < 2 ^ 32) :
    decodeDataBlockV1 bytes = .ok (TinyLsm.decodeDataBlockV1 bytes) := by
  unfold decodeDataBlockV1 TinyLsm.decodeDataBlockV1
  split
  · rfl
  rename_i hlen
  have h64 : bytes.length < 2 ^ 64 := by omega
  have hcount : (TinyLsm.getFixed32 bytes (bytes.length - 8)).getD 0 < 2 ^ 32 :=
    LittleEndian.readAt_lt bytes _
  simp (disch := omega) only [sub_of_le, ok_bind, getFixed32_eq h64, slice_of_le, mul_of_lt, add_of_lt,
    List.drop_zero]
  refine ite_pure fun _ => ite_pure fun hroom => ?_
  rw [sub_of_le (not_lt.mp hroom), ok_bind]
  exact decodeV1Entries_eq h (by omega)

/-- `DecodeDataBlock` does not fault. -/
theorem decodeDataBlock_eq (h : bytes.length < 2 ^ 32) (version : ℕ) :
    decodeDataBlock bytes version = .ok (TinyLsm.decodeDataBlock bytes version) := by
  unfold decodeDataBlock TinyLsm.decodeDataBlock
  split
  · exact decodeDataBlockV1_eq h
  · split
    · exact decodeDataBlockV2_eq h
    · rfl

theorem restartKey_eq (h : bytes.length < 2 ^ 32) (hin : LayoutInside bytes layout) {index : ℕ}
    (hlt : index < layout.restarts.length) :
    restartKey bytes layout index = .ok (TinyLsm.restartKey bytes layout index) := by
  unfold restartKey TinyLsm.restartKey
  rw [load_of_lt 0 hlt, ok_bind, decodeV2Entry_eq h hin.entriesEnd_le, ok_bind]
  rcases TinyLsm.decodeV2Entry bytes (layout.restarts.getD index 0) layout.entriesEnd [] with
    _ | ⟨entry, position⟩
  · rfl
  · exact ite_pure fun _ => rfl

/-- The binary search ends: each round halves what is left of the restarts. -/
theorem searchRestarts_eq (h : bytes.length < 2 ^ 32) (hin : LayoutInside bytes layout) {key : Bytes}
    {fuel : ℕ} : ∀ {first last : ℕ}, last ≤ layout.restarts.length → last - first ≤ fuel →
      searchRestarts bytes layout key fuel first last =
        .ok (TinyLsm.searchRestarts bytes layout key fuel first last) := by
  have hrestarts := hin.restarts_le
  induction fuel with
  | zero =>
    intro first last _ hfuel
    unfold searchRestarts
    rw [if_neg (by omega)]
    rfl
  | succ fuel ih =>
    intro first last hlast hfuel
    unfold searchRestarts TinyLsm.searchRestarts
    split
    · rename_i hlt
      rw [sub_of_le hlt.le, ok_bind, add_of_lt (by omega), ok_bind, restartKey_eq h hin (by omega),
        ok_bind]
      dsimp only
      cases TinyLsm.restartKey bytes layout (first + (last - first) / 2) with
      | error s => rfl
      | ok candidate =>
        dsimp only
        split
        · rw [add_of_lt (by omega), ok_bind]
          exact ih hlast (by omega)
        · exact ih (by omega) (by omega)
    · rfl

theorem decodeV2Entry_advances {position entriesEnd next : ℕ} {previous : Bytes} {e : InternalEntry}
    (hentry : TinyLsm.decodeV2Entry bytes position entriesEnd previous = some (e, next)) :
    position + 21 ≤ next ∧ next ≤ entriesEnd := by
  by_cases hle : position + 21 ≤ bytes.length
  · rw [plain_decodeV2Entry entriesEnd previous hle] at hentry
    dsimp only at hentry
    split at hentry
    · cases hentry
    rename_i hfits
    obtain ⟨type, -, hentry⟩ := Option.bind_eq_some_iff.mp hentry
    split at hentry
    · cases hentry
    split at hentry
    · cases hentry
    obtain ⟨-, rfl⟩ := Prod.mk.inj (Option.some.inj hentry)
    simp only [not_or, not_lt] at hfits
    omega
  · rw [plain_decodeV2Entry_none entriesEnd previous (not_le.mp hle)] at hentry
    cases hentry

/-- The group loop ends: each entry takes at least its header. -/
theorem scanRestartGroup_eq (h : bytes.length < 2 ^ 32) (hin : LayoutInside bytes layout) {key : Bytes}
    {sequence groupEnd fuel : ℕ} : ∀ {position : ℕ} {previous : Bytes}, groupEnd - position ≤ fuel →
      scanRestartGroup bytes layout key sequence groupEnd fuel position previous =
        .ok (TinyLsm.scanRestartGroup bytes layout key sequence groupEnd fuel position previous) := by
  induction fuel with
  | zero =>
    intro position previous hfuel
    unfold scanRestartGroup
    rw [if_neg (by omega)]
    rfl
  | succ fuel ih =>
    intro position previous hfuel
    unfold scanRestartGroup TinyLsm.scanRestartGroup
    split
    · rw [decodeV2Entry_eq h hin.entriesEnd_le, ok_bind]
      cases hentry : TinyLsm.decodeV2Entry bytes position layout.entriesEnd previous with
      | none => rfl
      | some result =>
        obtain ⟨entry, next⟩ := result
        have hnext := decodeV2Entry_advances hentry
        refine ite_pure fun _ => ?_
        split
        · exact ih (by omega)
        refine ite_pure fun _ => ite_pure fun _ => ?_
        exact ih (by omega)
    · rfl

theorem searchRestarts_le {key : Bytes} {fuel : ℕ} :
    ∀ {first last found : ℕ}, first ≤ last →
      TinyLsm.searchRestarts bytes layout key fuel first last = .ok found → found ≤ last := by
  induction fuel with
  | zero =>
    intro first last found hle hfound
    rw [← Except.ok.inj hfound]
    exact hle
  | succ fuel ih =>
    intro first last found hle hfound
    unfold TinyLsm.searchRestarts at hfound
    split at hfound
    · dsimp only at hfound
      split at hfound
      · cases hfound
      · split at hfound
        · exact ih (by omega) hfound
        · exact (ih (by omega) hfound).trans (by omega)
    · rw [← Except.ok.inj hfound]
      exact hle

/-- `FindDataBlockEntry` does not fault. -/
theorem findDataBlockEntry_eq (h : bytes.length < 2 ^ 32) (version : ℕ) (key : Bytes)
    (sequence : ℕ) :
    findDataBlockEntry bytes version key sequence =
      .ok (TinyLsm.findDataBlockEntry bytes version key sequence) := by
  unfold findDataBlockEntry TinyLsm.findDataBlockEntry
  split
  · rw [decodeDataBlockV1_eq h, ok_bind]
    cases TinyLsm.decodeDataBlockV1 bytes <;> rfl
  split
  · rfl
  rw [parseV2BlockLayout_eq h, ok_bind]
  cases hlayout : TinyLsm.parseV2BlockLayout bytes with
  | error s => rfl
  | ok layout =>
    have hin := layoutInside hlayout
    have hpos := hin.restarts_pos
    have hle := hin.restarts_le
    dsimp only
    rw [searchRestarts_eq h hin le_rfl (by omega), ok_bind]
    cases hsearch : TinyLsm.searchRestarts bytes layout key layout.restarts.length 0
        layout.restarts.length with
    | error s => rfl
    | ok first =>
      have hfirst := searchRestarts_le (Nat.zero_le _) hsearch
      have hgroup : (if first = 0 then (.ok 0 : Faulting ℕ) else sub first 1) =
          .ok (if first = 0 then 0 else first - 1) := by
        split
        · rfl
        · exact sub_of_le (by omega)
      dsimp only
      rw [hgroup, ok_bind]
      have hlt : (if first = 0 then 0 else first - 1) < layout.restarts.length := by
        split <;> omega
      generalize (if first = 0 then 0 else first - 1) = group at hlt
      have hgroupEnd : (if group + 1 = layout.restarts.length then (.ok layout.entriesEnd : Faulting ℕ)
            else load layout.restarts (group + 1)) =
          .ok (if group + 1 = layout.restarts.length then layout.entriesEnd
            else layout.restarts.getD (group + 1) 0) := by
        split
        · rfl
        · exact load_of_lt 0 (by omega)
      rw [add_of_lt (by omega), ok_bind, hgroupEnd, ok_bind, load_of_lt 0 hlt, ok_bind]
      exact scanRestartGroup_eq h hin le_rfl

end Machine

end TinyLsm
