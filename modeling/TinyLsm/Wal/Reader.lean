import TinyLsm.Wal.Codec
import Mathlib.Data.List.Forall2

/-!
# WAL replay

`WalReader::Replay` of `wal/wal_reader.cpp`: complete records are applied in file order, an
incomplete last record is reported as a torn tail. `replay_frames` says what replay does on a log of
complete records followed by any strict prefix of one more.

The file hands out its bytes in chunks of its own choosing; `replayFile_eq` shows that the chunks do
not matter, so that the rest of the development speaks of the bytes of the file.
-/

namespace TinyLsm

/-- `WalReplayResult`. -/
structure WalReplayResult where
  maxSequence : ℕ := 0
  validBytes : ℕ := 0
  truncatedTail : Bool := false
deriving DecidableEq, Repr

/-- The largest payload `Replay` accepts for a record version. -/
def maxPayload (limits : DecodeLimits) (version : ℕ) : ℕ :=
  if version = kWalVersion then kWalPayloadHeaderSize + limits.maxKeyBytes + limits.maxValueBytes
  else kMaxWalBatchBytes

/-- The entries of one complete record, checked against the sequence before it. -/
def decodeFrame (limits : DecodeLimits) (version previousSequence : ℕ) (record : Bytes) :
    Result (List InternalEntry) :=
  if version = kWalVersion then
    match decodeWalRecord record limits with
    | .error s => .error s
    | .ok e =>
      if e.sequence ≤ previousSequence then
        .error (.corruption "WAL sequence did not strictly increase")
      else .ok [e]
  else
    match decodeWalBatch record limits with
    | .error s => .error s
    | .ok entries =>
      match entries.head? with
      | some front =>
        if front.sequence ≤ previousSequence then
          .error (.corruption "WAL batch sequence did not strictly increase")
        else .ok entries
      | none => .ok entries

/-- The last sequence of a non-empty group. -/
def lastSequence (group : List InternalEntry) (default : ℕ) : ℕ :=
  match group.getLast? with
  | some e => e.sequence
  | none => default

section
variable {σ : Type} (apply : σ → List InternalEntry → Result σ) (limits : DecodeLimits)

/-- The loop of `Replay` on the bytes that are not read yet; `fuel` bounds the number of records. -/
def replayLoop : ℕ → Bytes → ℕ → WalReplayResult → σ → Result (WalReplayResult × σ)
  | 0, _, _, result, target => .ok (result, target)
  | fuel + 1, rest, previousSequence, result, target =>
    if rest = [] then .ok (result, target)
    else if rest.length < kWalHeaderSize then .ok ({ result with truncatedTail := true }, target)
    else
      let magic := (getFixed32 rest 0).getD 0
      let version := (getFixed16 rest 4).getD 0
      let payloadSize := (getFixed32 rest 8).getD 0
      if magic ≠ kWalMagic ∨ (version ≠ kWalVersion ∧ version ≠ kWalBatchVersion) then
        .error (.corruption "invalid WAL record in the middle of the log")
      else if maxPayload limits version < payloadSize then
        .error (.corruption "WAL payload exceeds decode limits")
      else if rest.length - kWalHeaderSize < payloadSize then
        .ok ({ result with truncatedTail := true }, target)
      else
        let size := kWalHeaderSize + payloadSize
        match decodeFrame limits version previousSequence (rest.take size) with
        | .error s => .error s
        | .ok entries =>
          match apply target entries with
          | .error s => .error s
          | .ok target =>
            let previousSequence := lastSequence entries previousSequence
            replayLoop fuel (rest.drop size) previousSequence
              { result with
                maxSequence := previousSequence
                validBytes := result.validBytes + size } target

/-- `WalReader::Replay`; `apply` is the callback with the state it updates. -/
def replay (floor : ℕ) (file : Bytes) (target : σ) : Result (WalReplayResult × σ) :=
  replayLoop apply limits (file.length + 1) file floor {} target

/-- `DB::Impl::RecoverWal` on the contents of a WAL: the largest sequence and the updated target, and
the file it leaves behind. -/
def recoverWal (floor : ℕ) (file : Bytes) (target : σ) : Result (ℕ × σ) × Bytes :=
  match replay apply limits floor file target with
  | .error s => (.error (s.withContext "replay WAL"), file)
  | .ok (result, target) =>
    (.ok (max floor result.maxSequence, target),
      if result.truncatedTail then file.take result.validBytes else file)

/-! ## Reading in chunks -/

/-- A `SequentialFile`: the bytes ahead of the cursor and the number of reads so far. -/
structure SequentialFile where
  rest : Bytes
  reads : ℕ
deriving DecidableEq, Repr

variable (chunk : ℕ → ℕ)

/-- `SequentialFile::Read` into `size` bytes. The `n`-th read hands out at most `chunk n + 1` bytes;
it is empty only at the end of the file. -/
def SequentialFile.read (f : SequentialFile) (size : ℕ) : Bytes × SequentialFile :=
  let n := min size (chunk f.reads + 1)
  (f.rest.take n, ⟨f.rest.drop n, f.reads + 1⟩)

/-- The loop of `ReadUpTo` with `size` bytes still wanted. -/
def readUpToLoop : ℕ → SequentialFile → ℕ → Bytes → Bytes × SequentialFile
  | 0, f, _, done => (done, f)
  | fuel + 1, f, size, done =>
    if size = 0 then (done, f)
    else
      let (bytes, f) := f.read chunk size
      if bytes = [] then (done, f)
      else readUpToLoop fuel f (size - bytes.length) (done ++ bytes)

/-- `ReadUpTo`: every read but the last hands out at least one byte. -/
def readUpTo (f : SequentialFile) (size : ℕ) : Bytes × SequentialFile :=
  readUpToLoop chunk (size + 1) f size []

/-- The loop of `Replay` over the file. -/
def replayFileLoop : ℕ → SequentialFile → ℕ → WalReplayResult → σ → Result (WalReplayResult × σ)
  | 0, _, _, result, target => .ok (result, target)
  | fuel + 1, f, previousSequence, result, target =>
    let (header, f) := readUpTo chunk f kWalHeaderSize
    if header.length = 0 then .ok (result, target)
    else if header.length < kWalHeaderSize then
      .ok ({ result with truncatedTail := true }, target)
    else
      let magic := (getFixed32 header 0).getD 0
      let version := (getFixed16 header 4).getD 0
      let payloadSize := (getFixed32 header 8).getD 0
      if magic ≠ kWalMagic ∨ (version ≠ kWalVersion ∧ version ≠ kWalBatchVersion) then
        .error (.corruption "invalid WAL record in the middle of the log")
      else if maxPayload limits version < payloadSize then
        .error (.corruption "WAL payload exceeds decode limits")
      else
        let (payload, f) := readUpTo chunk f payloadSize
        if payload.length < payloadSize then .ok ({ result with truncatedTail := true }, target)
        else
          match decodeFrame limits version previousSequence (header ++ payload) with
          | .error s => .error s
          | .ok entries =>
            match apply target entries with
            | .error s => .error s
            | .ok target =>
              let previousSequence := lastSequence entries previousSequence
              replayFileLoop fuel f previousSequence
                { result with
                  maxSequence := previousSequence
                  validBytes := result.validBytes + (header ++ payload).length } target

/-- `WalReader::Replay` over a file that hands out its bytes in the given chunks. -/
def replayFile (floor : ℕ) (file : Bytes) (target : σ) : Result (WalReplayResult × σ) :=
  replayFileLoop apply limits chunk (file.length + 1) ⟨file, 0⟩ floor {} target

theorem readUpToLoop_eq (fuel : ℕ) : ∀ (f : SequentialFile) (size : ℕ) (done : Bytes),
    size < fuel → ∃ n, readUpToLoop chunk fuel f size done =
      (done ++ f.rest.take size, ⟨f.rest.drop size, n⟩) := by
  induction fuel with
  | zero => intro f size done h; exact absurd h (Nat.not_lt_zero _)
  | succ fuel ih =>
    intro f size done h
    obtain ⟨rest, reads⟩ := f
    by_cases hsize : size = 0
    · exact ⟨reads, by simp [readUpToLoop, hsize]⟩
    · set n := min size (chunk reads + 1) with hn
      by_cases hnil : rest = []
      · exact ⟨reads + 1, by simp [readUpToLoop, SequentialFile.read, hnil, hsize]⟩
      · have hne : rest.take n ≠ [] := by
          rw [ne_eq, List.take_eq_nil_iff]
          rintro (h0 | h0)
          · omega
          · exact hnil h0
        have hpos : 0 < (rest.take n).length := List.length_pos_of_ne_nil hne
        obtain ⟨m, hrec⟩ := ih ⟨rest.drop n, reads + 1⟩ (size - (rest.take n).length)
          (done ++ rest.take n) (by omega)
        refine ⟨m, ?_⟩
        simp only [readUpToLoop, SequentialFile.read, hsize, if_false, ← hn, hne, hrec]
        rw [List.length_take]
        by_cases hle : n ≤ rest.length
        · have hsplit : size = n + (size - n) := by omega
          rw [Nat.min_eq_left hle, List.drop_drop, List.append_assoc, ← List.take_add, ← hsplit]
        · rw [Nat.min_eq_right (by omega), List.drop_of_length_le (by omega : rest.length ≤ n),
            List.take_of_length_le (by omega : rest.length ≤ n),
            List.take_of_length_le (by omega : rest.length ≤ size),
            List.drop_of_length_le (by omega : rest.length ≤ size)]
          simp

/-- `ReadUpTo` returns the next bytes of the file, whatever its chunks. -/
theorem readUpTo_eq (f : SequentialFile) (size : ℕ) :
    ∃ n, readUpTo chunk f size = (f.rest.take size, ⟨f.rest.drop size, n⟩) := by
  obtain ⟨n, h⟩ := readUpToLoop_eq chunk (size + 1) f size [] (Nat.lt_succ_self _)
  exact ⟨n, by simpa [readUpTo] using h⟩

theorem replayFileLoop_eq (fuel : ℕ) : ∀ (f : SequentialFile) (previous : ℕ)
    (result : WalReplayResult) (target : σ),
    replayFileLoop apply limits chunk fuel f previous result target =
      replayLoop apply limits fuel f.rest previous result target := by
  induction fuel with
  | zero => intros; rfl
  | succ fuel ih =>
    intro f previous result target
    obtain ⟨n, hheader⟩ := readUpTo_eq chunk f kWalHeaderSize
    set header := f.rest.take kWalHeaderSize with hdef
    simp only [replayFileLoop, replayLoop, hheader]
    have hlen : header.length = min 16 f.rest.length := List.length_take
    by_cases hnil : f.rest = []
    · rw [if_pos (by rw [hlen, hnil]; rfl), if_pos hnil]
    have hpos : 0 < f.rest.length := List.length_pos_of_ne_nil hnil
    rw [if_neg (by omega), if_neg hnil]
    by_cases hshort : f.rest.length < kWalHeaderSize
    · rw [if_pos hshort, if_pos (by rw [hlen]; simp only [kWalHeaderSize] at *; omega)]
    rw [if_neg hshort, if_neg (by rw [hlen]; simp only [kWalHeaderSize] at *; omega)]
    have hread : ∀ w off, off + w ≤ 16 →
        LittleEndian.readAt w header off = LittleEndian.readAt w f.rest off := by
      intro w off hle
      rw [← List.take_append_drop kWalHeaderSize f.rest, ← hdef]
      refine (LittleEndian.readAt_append_left ?_ _).symm
      simp only [kWalHeaderSize] at hshort
      omega
    have h0 : getFixed32 header 0 = getFixed32 f.rest 0 := hread 4 0 (by omega)
    have h4 : getFixed16 header 4 = getFixed16 f.rest 4 := hread 2 4 (by omega)
    have h8 : getFixed32 header 8 = getFixed32 f.rest 8 := hread 4 8 (by omega)
    rw [h0, h4, h8]
    split
    · rfl
    split
    · rfl
    set size := (getFixed32 f.rest 8).getD 0 with hsize
    obtain ⟨m, hpayload⟩ := readUpTo_eq chunk ⟨f.rest.drop kWalHeaderSize, n⟩ size
    simp only [hpayload]
    have hrecord : header ++ (f.rest.drop kWalHeaderSize).take size =
        f.rest.take (kWalHeaderSize + size) := List.take_add.symm
    by_cases hlt : f.rest.length - kWalHeaderSize < size
    · rw [if_pos hlt, if_pos (by rw [List.length_take, List.length_drop]; omega)]
    rw [if_neg hlt, if_neg (by rw [List.length_take, List.length_drop]; omega), hrecord]
    split
    · rfl
    rename_i entries hentries
    split
    · rfl
    rw [ih, List.drop_drop, List.length_take, Nat.min_eq_left (by omega)]

/-- The chunks of the file do not matter. -/
theorem replayFile_eq (floor : ℕ) (file : Bytes) (target : σ) :
    replayFile apply limits chunk floor file target = replay apply limits floor file target :=
  replayFileLoop_eq apply limits chunk _ ⟨file, 0⟩ floor {} target

/-! ## Logs -/

/-- The callback on several groups in order. -/
def applyGroups : σ → List (List InternalEntry) → Result σ
  | target, [] => .ok target
  | target, g :: gs =>
    match apply target g with
    | .error s => .error s
    | .ok target => applyGroups target gs

/-- Groups whose sequences increase from one to the next and lie above `floor`. -/
def GroupsAbove : ℕ → List (List InternalEntry) → Prop
  | _, [] => True
  | floor, g :: gs => (∀ e ∈ g, floor < e.sequence ∧ e.sequence < 2 ^ 64) ∧
    GroupsAbove (lastSequence g floor) gs

/-- The bytes are one complete record that holds the entries `g`. -/
structure FrameOf (g : List InternalEntry) (bytes : Bytes) (version : ℕ) (type : UInt8)
    (payload : Bytes) : Prop where
  ne_nil : g ≠ []
  version_cases : version = kWalVersion ∨ version = kWalBatchVersion
  payload_le : payload.length ≤ maxPayload limits version
  payload_lt : payload.length < 2 ^ 32
  bytes_eq : bytes = walFrame version type payload
  decode : ∀ previous, (∀ e ∈ g, previous < e.sequence ∧ e.sequence < 2 ^ 64) →
    decodeFrame limits version previous bytes = .ok g

/-- Some record holds the entries `g`. -/
def IsFrame (g : List InternalEntry) (bytes : Bytes) : Prop :=
  ∃ version type payload, FrameOf limits g bytes version type payload

/-- A strict prefix of a record: what an interrupted append leaves. -/
def TornTail (tail : Bytes) : Prop :=
  tail = [] ∨ ∃ g bytes, IsFrame limits g bytes ∧ tail <+: bytes ∧ tail.length < bytes.length

variable {apply limits}

theorem FrameOf.version_lt {g : List InternalEntry} {bytes : Bytes} {version : ℕ} {type : UInt8}
    {payload : Bytes} (h : FrameOf limits g bytes version type payload) : version < 2 ^ 16 := by
  rcases h.version_cases with rfl | rfl <;> decide

theorem FrameOf.length_eq {g : List InternalEntry} {bytes : Bytes} {version : ℕ} {type : UInt8}
    {payload : Bytes} (h : FrameOf limits g bytes version type payload) :
    bytes.length = 16 + payload.length := by
  rw [h.bytes_eq, length_walFrame]

/-- A batch is one record. -/
theorem EncodedBatch.isFrame {g : List InternalEntry} {bytes : Bytes}
    (h : EncodedBatch limits g bytes) : IsFrame limits g bytes := by
  have hsize := h.size_le
  have hv : kWalBatchVersion ≠ kWalVersion := by decide
  refine ⟨kWalBatchVersion, kWalBatchRecordType, walBatchPayload g, h.ne_nil, .inr rfl, ?_, ?_,
    h.bytes_eq, fun previous habove => ?_⟩
  · rw [maxPayload, if_neg hv]
    exact hsize
  · simp only [kMaxWalBatchBytes] at hsize
    omega
  · have hdecode := h.decode fun e he => (habove e he).2
    cases hg : g with
    | nil => exact absurd hg h.ne_nil
    | cons e es =>
      have hpos := (habove e (by rw [hg]; exact List.mem_cons_self)).1
      rw [hg] at hdecode
      simp only [decodeFrame, hv, if_false, hdecode, List.head?_cons]
      rw [if_neg (by omega)]

/-- A single entry is one record. -/
theorem EncodedRecord.isFrame {e : InternalEntry} {bytes : Bytes}
    (h : EncodedRecord limits e bytes) (hsize : (walRecordPayload e).length < 2 ^ 32) :
    IsFrame limits [e] bytes := by
  have hkey := h.key_le
  have hvalue := h.value_le
  have hpayload := length_walRecordPayload e
  refine ⟨kWalVersion, e.type.toByte, walRecordPayload e, List.cons_ne_nil _ _, .inl rfl, ?_,
    hsize, h.bytes_eq, fun previous habove => ?_⟩
  · rw [maxPayload, if_pos rfl, kWalPayloadHeaderSize]
    omega
  · obtain ⟨hpos, hlt⟩ := habove e List.mem_cons_self
    simp only [decodeFrame, if_true, h.decode hsize hlt]
    rw [if_neg (by omega)]

theorem replayLoop_torn {tail : Bytes} (h : TornTail limits tail) (fuel previous : ℕ)
    (result : WalReplayResult) (target : σ) (hnot : result.truncatedTail = false) :
    replayLoop apply limits (fuel + 1) tail previous result target =
      .ok ({ result with truncatedTail := decide (tail ≠ []) }, target) := by
  by_cases hnil : tail = []
  · subst hnil
    cases result
    simp only at hnot
    simp [replayLoop, hnot]
  · obtain ⟨g, bytes, ⟨version, type, payload, hframe⟩, ⟨rest, hrest⟩, hlt⟩ := h.resolve_left hnil
    have hlen := hframe.length_eq
    by_cases hshort : tail.length < 16
    · simp [replayLoop, hnil, kWalHeaderSize, hshort]
    · -- the header is complete; it is the header of the whole record
      obtain ⟨f1, f2, f3, -⟩ := walFrame_header type hframe.version_lt hframe.payload_lt []
      simp only [List.append_nil, ← hframe.bytes_eq, ← hrest] at f1 f2 f3
      have g1 : getFixed32 tail 0 = some kWalMagic := by
        rw [← f1]
        exact (LittleEndian.readAt_append_left (by omega) rest).symm
      have g2 : getFixed16 tail 4 = some version := by
        rw [← f2]
        exact (LittleEndian.readAt_append_left (by omega) rest).symm
      have g3 : getFixed32 tail 8 = some payload.length := by
        rw [← f3]
        exact (LittleEndian.readAt_append_left (by omega) rest).symm
      have hversion := hframe.version_cases
      have hle := hframe.payload_le
      simp only [replayLoop, hnil, if_false, kWalHeaderSize, hshort, g1, g2, g3, Option.getD_some]
      rw [if_neg (by simp only [ne_eq, not_true_eq_false, false_or]; tauto), if_neg (by omega),
        if_pos (by omega)]
      simp [hnil]

/-- One complete record at the front of the unread bytes. -/
theorem replayLoop_cons {g : List InternalEntry} {enc : Bytes} (henc : IsFrame limits g enc)
    {previous : ℕ} (habove : ∀ e ∈ g, previous < e.sequence ∧ e.sequence < 2 ^ 64) (rest : Bytes)
    (fuel : ℕ) (result : WalReplayResult) (target : σ) :
    replayLoop apply limits (fuel + 1) (enc ++ rest) previous result target =
      match apply target g with
      | .error s => .error s
      | .ok target => replayLoop apply limits fuel rest (lastSequence g previous)
        { result with
          maxSequence := lastSequence g previous
          validBytes := result.validBytes + enc.length } target := by
  obtain ⟨version, type, payload, hframe⟩ := henc
  obtain ⟨f1, f2, f3, -⟩ := walFrame_header type hframe.version_lt hframe.payload_lt rest
  rw [← hframe.bytes_eq] at f1 f2 f3
  have hlen := hframe.length_eq
  have hversion := hframe.version_cases
  have hle := hframe.payload_le
  have htake : (enc ++ rest).take (16 + payload.length) = enc := List.take_left' hlen
  have hdrop : (enc ++ rest).drop (16 + payload.length) = rest := List.drop_left' hlen
  have htotal : (enc ++ rest).length = 16 + payload.length + rest.length := by
    rw [List.length_append, hlen]
  have hne : enc ++ rest ≠ [] := by
    intro h
    rw [h, List.length_nil] at htotal
    omega
  simp only [replayLoop, hne, if_false, kWalHeaderSize, f1, f2, f3, Option.getD_some, htake, hdrop,
    hframe.decode previous habove]
  rw [if_neg (by omega), if_neg (by simp only [ne_eq, not_true_eq_false, false_or]; tauto),
    if_neg (by omega), if_neg (by omega), hlen]

/-- The last sequence of a log of groups. -/
def lastSequenceOf : ℕ → List (List InternalEntry) → ℕ
  | floor, [] => floor
  | floor, g :: gs => lastSequenceOf (lastSequence g floor) gs

/-- What replay returns for complete records `gs` of `size` bytes and a tail, when the callback
returns `applied`. -/
def framesResult (floor : ℕ) (gs : List (List InternalEntry)) (result : WalReplayResult) (size : ℕ)
    (torn : Bool) (applied : Result σ) : Result (WalReplayResult × σ) :=
  match applied with
  | .error s => .error s
  | .ok target => .ok (⟨if gs = [] then result.maxSequence else lastSequenceOf floor gs,
      result.validBytes + size, torn⟩, target)

theorem replayLoop_frames {gs : List (List InternalEntry)} {encs : List Bytes}
    (h : List.Forall₂ (IsFrame limits) gs encs) {tail : Bytes} (htail : TornTail limits tail) :
    ∀ (previous fuel : ℕ) (result : WalReplayResult) (target : σ),
      GroupsAbove previous gs → gs.length < fuel → result.truncatedTail = false →
      replayLoop apply limits fuel (encs.flatten ++ tail) previous result target =
        framesResult previous gs result encs.flatten.length (decide (tail ≠ []))
          (applyGroups apply target gs) := by
  induction h with
  | nil =>
    intro previous fuel result target _ hfuel hnot
    obtain ⟨fuel, rfl⟩ : ∃ n, fuel = n + 1 := ⟨fuel - 1, by simp at hfuel; omega⟩
    rw [List.flatten_nil, List.nil_append, replayLoop_torn htail fuel previous result target hnot]
    simp [framesResult, applyGroups]
  | @cons g enc gs encs hg _ ih =>
    intro previous fuel result target habove hfuel hnot
    obtain ⟨fuel, rfl⟩ : ∃ n, fuel = n + 1 := ⟨fuel - 1, by simp at hfuel; omega⟩
    rw [List.flatten_cons, List.append_assoc, replayLoop_cons hg habove.1, applyGroups]
    cases happ : apply target g with
    | error s => rfl
    | ok target₁ =>
      simp only
      rw [ih _ _ ⟨lastSequence g previous, result.validBytes + enc.length, result.truncatedTail⟩ _
        habove.2 (by simpa using hfuel) hnot]
      cases applyGroups apply target₁ gs with
      | error s => rfl
      | ok target₂ =>
        by_cases hnil : gs = []
        · simp [framesResult, hnil, lastSequenceOf, Nat.add_assoc]
        · simp [framesResult, hnil, lastSequenceOf, Nat.add_assoc]

theorem length_le_frames {gs : List (List InternalEntry)} {encs : List Bytes}
    (h : List.Forall₂ (IsFrame limits) gs encs) : gs.length ≤ encs.flatten.length := by
  induction h with
  | nil => simp
  | @cons g enc gs encs hg _ ih =>
    obtain ⟨version, type, payload, hframe⟩ := hg
    have := hframe.length_eq
    simp only [List.length_cons, List.flatten_cons, List.length_append]
    omega

/-- Replaying a log of complete records and a torn tail applies exactly the records. -/
theorem replay_frames {gs : List (List InternalEntry)} {encs : List Bytes}
    (h : List.Forall₂ (IsFrame limits) gs encs) {tail : Bytes} (htail : TornTail limits tail)
    {floor : ℕ} (habove : GroupsAbove floor gs) (target : σ) :
    replay apply limits floor (encs.flatten ++ tail) target =
      framesResult floor gs {} encs.flatten.length (decide (tail ≠ []))
        (applyGroups apply target gs) := by
  have hlen := length_le_frames h
  exact replayLoop_frames h htail floor _ {} target habove (by rw [List.length_append]; omega) rfl

end

end TinyLsm
