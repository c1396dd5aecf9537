import TinyLsm.Memtable.MemTable
import TinyLsm.Wal.Codec

/-!
# Options and write batches

`include/tinylsm/options.h`, `include/tinylsm/write_batch.h` and the validation of a batch
(`DB::Impl::ValidateWriteBatch`).
-/

namespace TinyLsm

/-- `Options` (`options.h`). -/
structure Options where
  memtableBytes : ℕ := 4 * 1024 * 1024
  createIfMissing : Bool := true
  syncOnWrite : Bool := true
  maxKeyBytes : ℕ := 4 * 1024 * 1024
  maxValueBytes : ℕ := 64 * 1024 * 1024
  sstableBlockBytes : ℕ := 16 * 1024
  sstableRestartInterval : ℕ := 16
  blockCacheBytes : ℕ := 8 * 1024 * 1024
  compactionTableTrigger : ℕ := 4
  maxActiveSnapshots : ℕ := 1024
  maxPendingWriteRequests : ℕ := 64
  maxPendingWriteBytes : ℕ := 8 * 1024 * 1024
  maxGroupCommitRequests : ℕ := 8
  maxGroupCommitBytes : ℕ := 1024 * 1024
deriving DecidableEq, Repr

/-- The option checks of `DB::Impl::Open`, and what the field types bound. -/
structure Options.Accepted (o : Options) : Prop where
  memtable_pos : o.memtableBytes ≠ 0
  block_pos : o.sstableBlockBytes ≠ 0
  restart_pos : o.sstableRestartInterval ≠ 0
  pendingRequests_pos : o.maxPendingWriteRequests ≠ 0
  pendingBytes_pos : o.maxPendingWriteBytes ≠ 0
  groupRequests_pos : o.maxGroupCommitRequests ≠ 0
  groupBytes_pos : o.maxGroupCommitBytes ≠ 0
  trigger_ne_one : o.compactionTableTrigger ≠ 1
  key_lt : o.maxKeyBytes < 2 ^ 32
  value_lt : o.maxValueBytes < 2 ^ 32
  pendingBytes_lt : o.maxPendingWriteBytes < 2 ^ 64
  groupBytes_lt : o.maxGroupCommitBytes < 2 ^ 64

/-- `Limits` (`db_impl.cpp`). -/
def Options.limits (o : Options) : DecodeLimits := ⟨o.maxKeyBytes, o.maxValueBytes⟩

/-- `WriteBatch::Operation`; a delete has no value. -/
inductive Operation where
  | put (key value : Bytes)
  | delete (key : Bytes)
deriving DecidableEq, Repr

namespace Operation

def key : Operation → Bytes
  | put key _ => key
  | delete key => key

def value : Operation → Bytes
  | put _ value => value
  | delete _ => []

/-- The stored type of an operation (`ApplyWriteGroup`). -/
def type : Operation → ValueType
  | put _ _ => .value
  | delete _ => .tombstone

/-- The version an operation commits at a sequence. -/
def entry (op : Operation) (sequence : ℕ) : InternalEntry := ⟨op.key, sequence, op.type, op.value⟩

end Operation

/-- `WriteBatch`. -/
abbrev WriteBatch := List Operation

section
variable [EntrySize] (o : Options)

/-- The operation loop of `ValidateWriteBatch` with `queueBytes` counted so far. -/
def validateOperations : ℕ → WriteBatch → Result ℕ
  | queueBytes, [] => .ok queueBytes
  | queueBytes, op :: rest =>
    if o.maxKeyBytes < op.key.length ∨ o.maxValueBytes < op.value.length then
      .error (.invalidArgument "batch key or value exceeds configured limit")
    else
      let bytes := EntrySize.sizeofInternalEntry + op.key.length + op.value.length
      if 2 ^ 64 - 1 - queueBytes < bytes then
        .error (.resourceExhausted "batch size accounting overflow")
      else validateOperations (queueBytes + bytes) rest

/-- `DB::Impl::ValidateWriteBatch`: the bytes a batch takes in the writer queue. -/
def validateWriteBatch (batch : WriteBatch) : Result ℕ :=
  if batch = [] then .ok 0
  else if kMaxWalBatchOperations < batch.length then
    .error (.resourceExhausted "batch exceeds operation limit")
  else
    match validateOperations o 0 batch with
    | .error s => .error s
    | .ok queueBytes =>
      if kMaxWalBatchBytes < queueBytes then
        .error (.invalidArgument "batch exceeds encoded size limit")
      else .ok queueBytes

theorem validateWriteBatch_eq_ok {batch : WriteBatch} {queueBytes : ℕ}
    (h : validateWriteBatch o batch = .ok queueBytes) :
    batch.length ≤ kMaxWalBatchOperations ∧ queueBytes ≤ kMaxWalBatchBytes := by
  unfold validateWriteBatch at h
  split at h
  · rename_i hnil
    obtain rfl := Except.ok.inj h
    rw [hnil]
    exact ⟨Nat.zero_le _, Nat.zero_le _⟩
  split at h
  · cases h
  rename_i hcount
  split at h
  · cases h
  split at h
  · cases h
  rename_i hbytes
  obtain rfl := Except.ok.inj h
  exact ⟨not_lt.mp hcount, not_lt.mp hbytes⟩

theorem validateOperations_error {queueBytes : ℕ} {batch : WriteBatch} {status : Status}
    (h : validateOperations o queueBytes batch = .error status) : status.ok = false := by
  induction batch generalizing queueBytes with
  | nil => cases h
  | cons op rest ih =>
    simp only [validateOperations] at h
    split at h
    · obtain rfl := Except.error.inj h
      rfl
    split at h
    · obtain rfl := Except.error.inj h
      rfl
    · exact ih h

theorem validateWriteBatch_error {batch : WriteBatch} {status : Status}
    (h : validateWriteBatch o batch = .error status) : status.ok = false := by
  unfold validateWriteBatch at h
  split at h
  · cases h
  split at h
  · obtain rfl := Except.error.inj h
    rfl
  split at h
  · rename_i hoperations
    obtain rfl := Except.error.inj h
    exact validateOperations_error o hoperations
  split at h
  · obtain rfl := Except.error.inj h
    rfl
  · cases h

end

end TinyLsm
