import TinyLsm.Wal.Reader

/-!
# WAL files

A WAL file is a sequence of records, each one entry or one write group. `wal_round_trip` puts the
codec and the reader together: what was appended is what replay hands to the callback, up to a record
the append of which was interrupted.
-/

namespace TinyLsm

/-- A record of the log: one entry (`EncodeWalRecord`) or a write group (`EncodeWalBatch`). -/
inductive WalRecord where
  | single (entry : InternalEntry)
  | batch (entries : List InternalEntry)
deriving DecidableEq, Repr

namespace WalRecord

/-- The entries of a record in their order. -/
def entries : WalRecord → List InternalEntry
  | single e => [e]
  | batch es => es

/-- The bytes of a record. -/
def encode (limits : DecodeLimits) : WalRecord → Result Bytes
  | single e => encodeWalRecord e limits
  | batch es => encodeWalBatch es limits

/-- The payload of a record. -/
def payload : WalRecord → Bytes
  | single e => walRecordPayload e
  | batch es => walBatchPayload es

/-- What the encoder wrote for a record. -/
def Encoded (limits : DecodeLimits) : WalRecord → Bytes → Prop
  | single e => EncodedRecord limits e
  | batch es => EncodedBatch limits es

variable {limits : DecodeLimits} {r : WalRecord} {bytes : Bytes}

theorem encode_eq_ok (h : r.encode limits = .ok bytes) : r.Encoded limits bytes := by
  cases r with
  | single e => exact encodeWalRecord_eq_ok h
  | batch es => exact encodeWalBatch_eq_ok h

theorem Encoded.isFrame (h : r.Encoded limits bytes) (hsize : r.payload.length < 2 ^ 32) :
    IsFrame limits r.entries bytes := by
  cases r with
  | single e => exact EncodedRecord.isFrame h hsize
  | batch es => exact EncodedBatch.isFrame h

theorem isFrame_of_encode (hlimits : limits.maxKeyBytes + limits.maxValueBytes + 16 < 2 ^ 32)
    (h : r.encode limits = .ok bytes) : IsFrame limits r.entries bytes := by
  refine (encode_eq_ok h).isFrame ?_
  cases r with
  | single e =>
    have henc := encodeWalRecord_eq_ok h
    have hkey := henc.key_le
    have hvalue := henc.value_le
    rw [payload, length_walRecordPayload]
    omega
  | batch es =>
    have hsize := (encodeWalBatch_eq_ok h).size_le
    rw [kMaxWalBatchBytes] at hsize
    rw [payload]
    omega

theorem forall₂_isFrame (hlimits : limits.maxKeyBytes + limits.maxValueBytes + 16 < 2 ^ 32)
    {records : List WalRecord} {encs : List Bytes}
    (h : List.Forall₂ (fun r enc => r.encode limits = .ok enc) records encs) :
    List.Forall₂ (IsFrame limits) (records.map entries) encs := by
  rw [List.forall₂_map_left_iff]
  exact h.imp fun r enc henc => isFrame_of_encode hlimits henc

end WalRecord

/-! ## Sequences -/

theorem lastSequence_append {g : List InternalEntry} {es : List InternalEntry} (floor : ℕ) :
    lastSequence (g ++ es) floor = lastSequence es (lastSequence g floor) := by
  unfold lastSequence
  rw [List.getLast?_append]
  cases es.getLast? <;> simp

theorem lastSequenceOf_eq (gs : List (List InternalEntry)) (floor : ℕ) :
    lastSequenceOf floor gs = lastSequence gs.flatten floor := by
  induction gs generalizing floor with
  | nil => rfl
  | cons g gs ih => rw [lastSequenceOf, ih, List.flatten_cons, lastSequence_append]

theorem flatten_ne_nil_of_frames {limits : DecodeLimits} {gs : List (List InternalEntry)}
    {encs : List Bytes} (h : List.Forall₂ (IsFrame limits) gs encs) (hne : gs ≠ []) :
    gs.flatten ≠ [] := by
  cases h with
  | nil => exact absurd rfl hne
  | cons hg _ =>
    obtain ⟨_, _, _, hframe⟩ := hg
    rw [List.flatten_cons]
    exact fun hnil => hframe.ne_nil (List.append_eq_nil_iff.mp hnil).1

/-- Groups are above the floor when the entries of the whole log increase from it. -/
theorem groupsAbove_of_pairwise {gs : List (List InternalEntry)} :
    ∀ {floor : ℕ}, gs.flatten.Pairwise (fun a b => a.sequence < b.sequence) →
      (∀ e ∈ gs.flatten, floor < e.sequence ∧ e.sequence < 2 ^ 64) → GroupsAbove floor gs := by
  induction gs with
  | nil => intro _ _ _; trivial
  | cons g gs ih =>
    intro floor hinc habove
    rw [List.flatten_cons] at hinc habove
    obtain ⟨-, hrest, hcross⟩ := List.pairwise_append.mp hinc
    refine ⟨fun e he => habove e (List.mem_append_left _ he), ih hrest fun e he => ⟨?_, ?_⟩⟩
    · unfold lastSequence
      cases hlast : g.getLast? with
      | none => exact (habove e (List.mem_append_right _ he)).1
      | some l => exact hcross l (List.mem_of_getLast? hlast) e he
    · exact (habove e (List.mem_append_right _ he)).2

theorem groupsAbove_append {gs gs' : List (List InternalEntry)} {floor : ℕ} :
    GroupsAbove floor (gs ++ gs') ↔
      GroupsAbove floor gs ∧ GroupsAbove (lastSequenceOf floor gs) gs' := by
  induction gs generalizing floor with
  | nil => simp [GroupsAbove, lastSequenceOf]
  | cons g gs ih => rw [List.cons_append, GroupsAbove, ih, GroupsAbove, lastSequenceOf, and_assoc]

theorem le_lastSequence {g : List InternalEntry} {floor : ℕ}
    (h : ∀ e ∈ g, floor < e.sequence ∧ e.sequence < 2 ^ 64) : floor ≤ lastSequence g floor := by
  unfold lastSequence
  split
  · rename_i e he
    exact (h e (List.mem_of_getLast? he)).1.le
  · exact le_rfl

theorem GroupsAbove.le_lastSequenceOf {gs : List (List InternalEntry)} {floor : ℕ}
    (h : GroupsAbove floor gs) : floor ≤ lastSequenceOf floor gs := by
  induction gs generalizing floor with
  | nil => exact le_rfl
  | cons g gs ih => exact (le_lastSequence h.1).trans (ih h.2)

/-! ## Round trip -/

section
variable {σ : Type} (apply : σ → List InternalEntry → σ)

/-- A callback that accepts every record. -/
def accepting (target : σ) (g : List InternalEntry) : Result σ := .ok (apply target g)

theorem applyGroups_accepting (gs : List (List InternalEntry)) (target : σ) :
    applyGroups (accepting apply) target gs = .ok (gs.foldl apply target) := by
  induction gs generalizing target with
  | nil => rfl
  | cons g gs ih => rw [applyGroups, accepting, List.foldl_cons, ← ih]

/-- Replaying complete records and a strict prefix of one more calls the callback once for each
complete record, in order and with its entries, and reports the tail; on the file cut to the valid
bytes it does the same and finds no tail. -/
theorem wal_round_trip {limits : DecodeLimits}
    (hlimits : limits.maxKeyBytes + limits.maxValueBytes + 16 < 2 ^ 32) {floor : ℕ}
    {records : List WalRecord} {encs : List Bytes}
    (henc : List.Forall₂ (fun r enc => r.encode limits = .ok enc) records encs)
    (hinc : (records.flatMap WalRecord.entries).Pairwise (fun a b => a.sequence < b.sequence))
    (habove : ∀ e ∈ records.flatMap WalRecord.entries, floor < e.sequence ∧ e.sequence < 2 ^ 64)
    {tail : Bytes} (htail : ∃ r enc, WalRecord.encode limits r = .ok enc ∧ tail <+: enc ∧
      tail.length < enc.length) (chunk chunk' : ℕ → ℕ) (target : σ) :
    replayFile (accepting apply) limits chunk floor (encs.flatten ++ tail) target =
        .ok (⟨lastSequence (records.flatMap WalRecord.entries) 0, encs.flatten.length,
          decide (tail ≠ [])⟩, (records.map WalRecord.entries).foldl apply target) ∧
      replayFile (accepting apply) limits chunk' floor
          ((encs.flatten ++ tail).take encs.flatten.length) target =
        .ok (⟨lastSequence (records.flatMap WalRecord.entries) 0, encs.flatten.length, false⟩,
          (records.map WalRecord.entries).foldl apply target) := by
  have hframes := WalRecord.forall₂_isFrame hlimits henc
  rw [List.flatMap_def] at hinc habove ⊢
  have hgroups := groupsAbove_of_pairwise hinc habove
  obtain ⟨r, enc, hr, hpre, hlt⟩ := htail
  have htorn : TornTail limits tail :=
    .inr ⟨_, enc, WalRecord.isFrame_of_encode hlimits hr, hpre, hlt⟩
  have hmax : (if records.map WalRecord.entries = [] then (0 : ℕ)
      else lastSequenceOf floor (records.map WalRecord.entries)) =
      lastSequence (records.map WalRecord.entries).flatten 0 := by
    split
    · rename_i hnil
      rw [hnil]
      rfl
    · rename_i hne
      rw [lastSequenceOf_eq, lastSequence, lastSequence,
        List.getLast?_eq_some_getLast (flatten_ne_nil_of_frames hframes hne)]
  have happly := applyGroups_accepting apply (records.map WalRecord.entries) target
  constructor
  · rw [replayFile_eq, replay_frames hframes htorn hgroups, happly]
    simp only [framesResult, hmax, Nat.zero_add]
  · have hintact : replay (accepting apply) limits floor (encs.flatten ++ []) target = _ :=
      replay_frames hframes (.inl rfl) hgroups target
    rw [List.append_nil] at hintact
    rw [replayFile_eq, List.take_left' rfl, hintact, happly]
    simp only [framesResult, hmax, Nat.zero_add]
    rfl

end

/-- A single entry, a write group and the first 20 bytes of another single entry, read two bytes at
a time. -/
theorem wal_round_trip_mixed :
    ∃ encs tail, List.Forall₂ (fun r enc => WalRecord.encode ⟨16, 16⟩ r = .ok enc)
        [.single ⟨[107], 4, .value, [49]⟩, .batch [⟨[107], 5, .tombstone, []⟩, ⟨[108], 6, .value, [50]⟩]]
        encs ∧ tail.length = 20 ∧
      replayFile (accepting fun log g => log ++ [g]) ⟨16, 16⟩ (fun _ => 1) 3 (encs.flatten ++ tail)
          [] =
        .ok (⟨6, 97, true⟩, [[⟨[107], 4, .value, [49]⟩],
          [⟨[107], 5, .tombstone, []⟩, ⟨[108], 6, .value, [50]⟩]]) := by
  set single := walFrame kWalVersion 1 (walRecordPayload ⟨[107], 4, .value, [49]⟩) with hsingle
  set batch := walFrame kWalBatchVersion kWalBatchRecordType
    (walBatchPayload [⟨[107], 5, .tombstone, []⟩, ⟨[108], 6, .value, [50]⟩]) with hbatch
  set torn := walFrame kWalVersion 1 (walRecordPayload ⟨[109], 7, .value, [51]⟩) with htorn
  have henc : List.Forall₂ (fun r enc => WalRecord.encode ⟨16, 16⟩ r = .ok enc)
      [.single ⟨[107], 4, .value, [49]⟩, .batch [⟨[107], 5, .tombstone, []⟩, ⟨[108], 6, .value, [50]⟩]]
      [single, batch] :=
    .cons (by rw [hsingle]; decide +kernel) (.cons (by rw [hbatch]; decide +kernel) .nil)
  have hrecord : WalRecord.encode ⟨16, 16⟩ (.single ⟨[109], 7, .value, [51]⟩) = .ok torn := by
    rw [htorn]
    decide +kernel
  have hlen : torn.length = 34 := by
    rw [htorn]
    decide +kernel
  refine ⟨[single, batch], torn.take 20, henc, by rw [List.length_take, hlen]; rfl, ?_⟩
  have htrip := (wal_round_trip (fun log g => log ++ [g]) (by decide) henc (by decide)
    (by decide : ∀ e ∈ _, 3 < InternalEntry.sequence e ∧ InternalEntry.sequence e < 2 ^ 64)
    ⟨_, torn, hrecord, List.take_prefix 20 torn, by rw [List.length_take, hlen]; decide⟩ (fun _ => 1)
    (fun _ => 0) []).1
  have hbytes : [single, batch].flatten.length = 97 := by
    rw [hsingle, hbatch]
    decide +kernel
  have hne : torn.take 20 ≠ [] := by
    rw [htorn]
    decide +kernel
  rw [htrip, hbytes, decide_eq_true hne]
  rfl

end TinyLsm
