import TinyLsm.Db.WriterQueueSafety
import TinyLsm.Wal.Log

/-!
# Group commit

`ApplyWriteGroup` of `db_impl.cpp` with `PrepareForWrite`, `RotateMemTable` and what the flush and
compaction workers do to the MemTables and tables meanwhile. Over the writer queue it commits the
admitted batches exactly as committing them one at a time does.
-/

namespace TinyLsm

/-! ## The commit of one batch -/

/-- The entries of operations on consecutive sequences. -/
def assignSequences : ℕ → List Operation → List InternalEntry
  | _, [] => []
  | sequence, op :: ops => op.entry sequence :: assignSequences (sequence + 1) ops

@[simp] theorem length_assignSequences (sequence : ℕ) (ops : List Operation) :
    (assignSequences sequence ops).length = ops.length := by
  induction ops generalizing sequence with
  | nil => rfl
  | cons op ops ih => simp [assignSequences, ih]

theorem assignSequences_append (sequence : ℕ) (ops ops' : List Operation) :
    assignSequences sequence (ops ++ ops') =
      assignSequences sequence ops ++ assignSequences (sequence + ops.length) ops' := by
  induction ops generalizing sequence with
  | nil => rfl
  | cons op ops ih =>
    rw [List.cons_append, assignSequences, ih, assignSequences, List.length_cons, List.cons_append,
      Nat.add_right_comm, Nat.add_assoc sequence]

theorem sequence_assignSequences {sequence : ℕ} {ops : List Operation} {e : InternalEntry}
    (he : e ∈ assignSequences sequence ops) :
    sequence ≤ e.sequence ∧ e.sequence < sequence + ops.length := by
  induction ops generalizing sequence with
  | nil => cases he
  | cons op ops ih =>
    rw [List.length_cons]
    rcases List.mem_cons.mp he with rfl | he
    · exact ⟨le_rfl, by simp only [Operation.entry]; omega⟩
    · have := ih he
      omega

theorem pairwise_assignSequences (sequence : ℕ) (ops : List Operation) :
    (assignSequences sequence ops).Pairwise (fun a b => a.sequence < b.sequence) := by
  induction ops generalizing sequence with
  | nil => exact List.Pairwise.nil
  | cons op ops ih =>
    refine List.Pairwise.cons (fun e he => ?_) (ih _)
    exact Nat.lt_of_succ_le (sequence_assignSequences he).1

/-- What commits are for: the committed versions and the next sequence. -/
structure Committed where
  versions : List InternalEntry
  nextSequence : ℕ

/-- One batch on consecutive sequences, in its own order. -/
def Committed.commit (c : Committed) (batch : WriteBatch) : Committed :=
  ⟨c.versions ++ assignSequences c.nextSequence batch, c.nextSequence + batch.length⟩

/-- Batches one at a time. -/
def Committed.commitAll (c : Committed) (batches : List WriteBatch) : Committed :=
  batches.foldl Committed.commit c

theorem Committed.commitAll_eq (c : Committed) (batches : List WriteBatch) :
    c.commitAll batches = ⟨c.versions ++ assignSequences c.nextSequence batches.flatten,
      c.nextSequence + batches.flatten.length⟩ := by
  unfold commitAll
  induction batches generalizing c with
  | nil => simp [assignSequences]
  | cons batch batches ih =>
    rw [List.foldl_cons, ih, List.flatten_cons, assignSequences_append, List.length_append]
    simp [commit, Nat.add_assoc]

/-! ## The state that a commit changes -/

/-- A status of a failure. -/
abbrev Failure := { status : Status // status.ok = false }

/-- What `ApplyWriteGroup` reads and writes, with the WALs written since `Open`. -/
structure CommitState where
  memtable : MemTable
  /-- `immutable_memtable_`. -/
  immutable : Option MemTable
  /-- The entries of the live tables, oldest table first. -/
  tables : List (List InternalEntry)
  nextSequence : ℕ
  /-- What `CheckOpen` returns. -/
  openStatus : Status
  /-- The bytes of the active WAL. -/
  wal : Bytes
  /-- History: the bytes of the earlier WALs, oldest first. -/
  sealedWals : List Bytes
  /-- History: the versions that compactions dropped. -/
  dropped : List InternalEntry

namespace CommitState

/-- All committed versions, over the MemTables and the tables together. -/
def versions (s : CommitState) : List InternalEntry :=
  s.memtable.contents ++ (s.immutable.map MemTable.contents).getD [] ++ s.tables.flatten ++ s.dropped

/-- The WAL files, oldest first. -/
def files (s : CommitState) : List Bytes := s.sealedWals ++ [s.wal]

/-- `RotateMemTable`; the failure is one of creating the WAL or publishing the Manifest. -/
def rotateMemTable (s : CommitState) (fault : Option Failure) : CommitState × Status :=
  if s.immutable.isSome then (s, .corruption "cannot rotate while immutable MemTable exists")
  else if s.memtable.isEmpty then (s, .okay)
  else
    match fault with
    | some status => (s, status.1)
    | none =>
      ({ s with
          memtable := .empty
          immutable := some s.memtable
          wal := []
          sealedWals := s.sealedWals ++ [s.wal] }, .okay)

end CommitState

/-- The failures of one `ApplyWriteGroup`. -/
structure CommitFaults where
  rotateBefore : Option Failure := none
  /-- The append failed behind some bytes. -/
  append : Option (Failure × ℕ) := none
  sync : Option Failure := none
  rotateAfter : Option Failure := none

section
variable [EntrySize] (o : Options)

/-- `PrepareForWrite`: none while it waits for the flush. -/
def prepareForWrite (s : CommitState) (fault : Option Failure) : Option (CommitState × Status) :=
  if s.immutable.isSome ∧ o.memtableBytes ≤ s.memtable.bytes then none
  else if s.openStatus.ok = false then some (s, s.openStatus)
  else if s.immutable.isNone ∧ o.memtableBytes ≤ s.memtable.bytes then
    some (s.rotateMemTable fault)
  else some (s, .okay)

/-- The operation loop of a request's byte count, `logicalBytes` counted so far. -/
def countBytes : ℕ → List Operation → Result ℕ
  | logicalBytes, [] => .ok logicalBytes
  | logicalBytes, op :: ops =>
    if 2 ^ 64 - 1 - logicalBytes < op.key.length + op.value.length then
      .error (.resourceExhausted "group logical bytes are exhausted")
    else countBytes (logicalBytes + (op.key.length + op.value.length)) ops

/-- The counting loop of `ApplyWriteGroup`. -/
def countGroup : ℕ → ℕ → List WriterRequest → Result ℕ
  | operationCount, _, [] => .ok operationCount
  | operationCount, logicalBytes, r :: group =>
    if 2 ^ 64 - 1 - operationCount < r.batch.length then
      .error (.resourceExhausted "group operation count is exhausted")
    else
      match countBytes logicalBytes r.batch with
      | .error s => .error s
      | .ok logicalBytes => countGroup (operationCount + r.batch.length) logicalBytes group

/-- `WalWriter::AppendBatch` on the active WAL. -/
def appendBatch (s : CommitState) (entries : List InternalEntry) (fault : Option (Failure × ℕ)) :
    CommitState × Status :=
  match encodeWalBatch entries o.limits with
  | .error status => (s, status)
  | .ok bytes =>
    match fault with
    | some (status, written) => ({ s with wal := s.wal ++ bytes.take written }, status.1)
    | none => ({ s with wal := s.wal ++ bytes }, .okay)

/-- `ApplyWriteGroup` behind the WAL: the sequences are taken, the MemTable gets the entries and may
be rotated. -/
def storeEntries (f : CommitFaults) (s : CommitState) (entries : List InternalEntry) :
    CommitState × Status :=
  let s := { s with nextSequence := s.nextSequence + entries.length }
  match s.memtable.applyBatch entries with
  | .error status => (s, status)
  | .ok memtable =>
    let s := { s with memtable }
    if o.memtableBytes ≤ s.memtable.bytes ∧ s.immutable.isNone then s.rotateMemTable f.rotateAfter
    else (s, .okay)

/-- `ApplyWriteGroup` behind `PrepareForWrite`. -/
def commitGroup (f : CommitFaults) (s : CommitState) (group : List WriterRequest) :
    CommitState × Status :=
  match countGroup 0 0 group with
  | .error status => (s, status)
  | .ok operationCount =>
    if 2 ^ 64 - 1 - s.nextSequence < operationCount then
      (s, .resourceExhausted "group exceeds sequence space")
    else
      let entries := assignSequences s.nextSequence (group.flatMap WriterRequest.batch)
      let (s, status) := appendBatch o s entries f.append
      if status.ok = false then (s, status)
      else
        match f.sync.filter fun _ => o.syncOnWrite with
        | some status => (s, status.1)
        | none => storeEntries o f s entries

/-- `ApplyWriteGroup`: none while it waits for the flush. -/
def applyWriteGroup (f : CommitFaults) (s : CommitState) (group : List WriterRequest) :
    Option (CommitState × Status) :=
  if group = [] then some (s, .okay)
  else
    match prepareForWrite o s f.rotateBefore with
    | none => none
    | some (s, status) => if status.ok = false then some (s, status) else some (commitGroup o f s group)

/-- How a call of `ApplyWriteGroup` can end; an exception may leave anything behind. -/
inductive Applies : CommitState → List WriterRequest → CommitState → Outcome → Prop
  | returns {s group s' status} (f : CommitFaults)
      (h : applyWriteGroup o f s group = some (s', status)) : Applies s group s' (.returned status)
  | throws {s group s'} : Applies s group s' .threw

end

/-- What the rest of the database does between commits: flush, rotate (`Close`), compact a prefix of
the tables, and change what `CheckOpen` returns. -/
inductive CommitEnv : CommitState → CommitState → Prop
  | flush {s m} (h : s.immutable = some m) :
      CommitEnv s { s with immutable := none, tables := s.tables ++ [m.scan [] []] }
  | rotate {s} (fault : Option Failure) : CommitEnv s (s.rotateMemTable fault).1
  | compact {s} (n : ℕ) (kept dropped : List InternalEntry)
      (h : (s.tables.take n).flatten.Perm (kept ++ dropped)) :
      CommitEnv s { s with
        tables := kept :: s.tables.drop n, dropped := s.dropped ++ dropped }
  | openStatus {s} (status : Status) : CommitEnv s { s with openStatus := status }

/-! ## Logs over several files -/

/-- The callback that collects the replayed entries. -/
def collectEntries (target es : List InternalEntry) : Result (List InternalEntry) := .ok (target ++ es)

theorem applyGroups_collect (gs : List (List InternalEntry)) (target : List InternalEntry) :
    applyGroups collectEntries target gs = .ok (target ++ gs.flatten) := by
  induction gs generalizing target with
  | nil => simp [applyGroups]
  | cons g gs ih => simp [applyGroups, collectEntries, ih]

/-- Replay of WAL files one after another, each above the sequences of the earlier ones. -/
def replayFiles (limits : DecodeLimits) : ℕ → List Bytes → Result (List InternalEntry)
  | _, [] => .ok []
  | floor, file :: files =>
    match replay collectEntries limits floor file [] with
    | .error s => .error s
    | .ok (result, entries) =>
      match replayFiles limits (max floor result.maxSequence) files with
      | .error s => .error s
      | .ok rest => .ok (entries ++ rest)

/-- The files hold the groups `gs`, one complete record a group. -/
def Logged (limits : DecodeLimits) (gs : List (List InternalEntry)) (files : List Bytes) : Prop :=
  ∃ parts : List (List (List InternalEntry)), gs = parts.flatten ∧
    List.Forall₂ (fun part file => ∃ encs, List.Forall₂ (IsFrame limits) part encs ∧
      file = encs.flatten) parts files

namespace Logged

variable {limits : DecodeLimits} {gs : List (List InternalEntry)} {files : List Bytes}

/-- A new empty file. -/
theorem append_empty (h : Logged limits gs files) : Logged limits gs (files ++ [[]]) := by
  obtain ⟨parts, rfl, hparts⟩ := h
  refine ⟨parts ++ [[]], by simp, List.rel_append hparts (.cons ⟨[], .nil, rfl⟩ .nil)⟩

/-- One more record in the last file. -/
theorem append_frame {file enc : Bytes} {g : List InternalEntry}
    (h : Logged limits gs (files ++ [file])) (hframe : IsFrame limits g enc) :
    Logged limits (gs ++ [g]) (files ++ [file ++ enc]) := by
  obtain ⟨parts, rfl, hparts⟩ := h
  have hfront := List.forall₂_take_append _ _ _ hparts
  have hlast := List.forall₂_drop_append _ _ _ hparts
  cases hdrop : parts.drop files.length with
  | nil => rw [hdrop] at hlast; cases hlast
  | cons last rest =>
    rw [hdrop] at hlast
    obtain ⟨⟨encs, hencs, rfl⟩, hrest⟩ := List.forall₂_cons.mp hlast
    obtain rfl := List.forall₂_nil_right_iff.mp hrest
    refine ⟨parts.take files.length ++ [last ++ [g]], ?_, ?_⟩
    · have hsplit := congrArg List.flatten (List.take_append_drop files.length parts)
      rw [hdrop] at hsplit
      rw [← hsplit]
      simp
    · refine List.rel_append hfront (.cons ⟨encs ++ [enc], ?_, by simp⟩ .nil)
      exact List.rel_append hencs (.cons hframe .nil)

theorem replayFiles_eq {floor : ℕ} (h : Logged limits gs files) (habove : GroupsAbove floor gs) :
    replayFiles limits floor files = .ok gs.flatten := by
  obtain ⟨parts, rfl, hparts⟩ := h
  induction hparts generalizing floor with
  | nil => rfl
  | @cons part file parts files hfile _ ih =>
    obtain ⟨encs, hencs, rfl⟩ := hfile
    rw [List.flatten_cons, groupsAbove_append] at habove
    have hreplay : replay collectEntries limits floor (encs.flatten ++ []) [] = _ :=
      replay_frames hencs (.inl rfl) habove.1 []
    rw [List.append_nil] at hreplay
    have hfloor : max floor (if part = [] then 0 else lastSequenceOf floor part) =
        lastSequenceOf floor part := by
      split
      · rename_i hpart
        rw [hpart]
        exact Nat.max_eq_left (Nat.zero_le _)
      · exact Nat.max_eq_right habove.1.le_lastSequenceOf
    rw [replayFiles, hreplay, applyGroups_collect]
    simp only [framesResult]
    rw [hfloor, ih habove.2, List.nil_append, List.flatten_cons, List.flatten_append]

end Logged

/-! ## Steps that commit nothing -/

namespace CommitState

/-- The MemTables are well formed. -/
structure Inv (s : CommitState) : Prop where
  memtable : s.memtable.Inv
  immutable : ∀ m, s.immutable = some m → m.Inv

/-- Versions move between the MemTables and the tables, and new WALs are started. -/
structure Moves (s s' : CommitState) : Prop where
  inv : s.Inv → s'.Inv
  next_eq : s'.nextSequence = s.nextSequence
  mem_versions : ∀ e, e ∈ s'.versions ↔ e ∈ s.versions
  files_eq : s'.files = s.files ∨ s'.files = s.files ++ [[]]

theorem Moves.refl (s : CommitState) : Moves s s := ⟨id, rfl, fun _ => Iff.rfl, .inl rfl⟩

theorem moves_rotateMemTable (s : CommitState) (fault : Option Failure) :
    Moves s (s.rotateMemTable fault).1 := by
  unfold rotateMemTable
  split
  · exact .refl s
  split
  · exact .refl s
  rename_i himm _
  have hnone : s.immutable = none := by simpa using himm
  cases fault with
  | some status => exact .refl s
  | none =>
    refine ⟨fun h => ⟨MemTable.inv_empty, ?_⟩, rfl, fun e => ?_, .inr rfl⟩
    · rintro m ⟨⟩
      exact h.memtable
    · simp [versions, hnone, MemTable.empty, MemTable.contents]

theorem CommitEnv.moves {s s' : CommitState} (h : CommitEnv s s') : Moves s s' := by
  cases h with
  | @flush m hm =>
    refine ⟨fun h => ⟨h.memtable, nofun⟩, rfl, fun e => ?_, .inl rfl⟩
    simp only [versions, hm, MemTable.scan_all, Option.map_some, Option.getD_some, Option.map_none,
      Option.getD_none, List.flatten_append, List.flatten_singleton, List.mem_append]
    tauto
  | rotate fault => exact moves_rotateMemTable s fault
  | compact n kept dropped hperm =>
    refine ⟨fun h => ⟨h.memtable, h.immutable⟩, rfl, fun e => ?_, .inl rfl⟩
    have hsplit : e ∈ s.tables.flatten ↔
        (e ∈ kept ∨ e ∈ dropped) ∨ e ∈ (s.tables.drop n).flatten := by
      rw [← List.mem_append, ← hperm.mem_iff, ← List.mem_append, ← List.flatten_append,
        List.take_append_drop]
    simp only [versions, List.flatten_cons, List.mem_append, hsplit]
    tauto
  | openStatus status => exact ⟨fun h => ⟨h.memtable, h.immutable⟩, rfl, fun _ => Iff.rfl, .inl rfl⟩

end CommitState

/-! ## Errors are failures -/

theorem countBytes_error {logicalBytes : ℕ} {ops : List Operation} {status : Status}
    (h : countBytes logicalBytes ops = .error status) : status.ok = false := by
  induction ops generalizing logicalBytes with
  | nil => cases h
  | cons op ops ih =>
    simp only [countBytes] at h
    split at h
    · obtain rfl := Except.error.inj h
      rfl
    · exact ih h

theorem countGroup_error {operationCount logicalBytes : ℕ} {group : List WriterRequest}
    {status : Status} (h : countGroup operationCount logicalBytes group = .error status) :
    status.ok = false := by
  induction group generalizing operationCount logicalBytes with
  | nil => cases h
  | cons r group ih =>
    simp only [countGroup] at h
    split at h
    · obtain rfl := Except.error.inj h
      rfl
    split at h
    · rename_i hbytes
      obtain rfl := Except.error.inj h
      exact countBytes_error hbytes
    · exact ih h

/-! ## One group -/

section
variable [EntrySize] {o : Options}

omit [EntrySize] in
/-- A successful count is the number of operations. -/
theorem countGroup_eq_ok {operationCount logicalBytes count : ℕ} {group : List WriterRequest}
    (h : countGroup operationCount logicalBytes group = .ok count) :
    count = operationCount + (group.flatMap WriterRequest.batch).length := by
  induction group generalizing operationCount logicalBytes with
  | nil =>
    obtain rfl := Except.ok.inj h
    rfl
  | cons r group ih =>
    simp only [countGroup] at h
    split at h
    · cases h
    split at h
    · cases h
    rw [ih h, List.flatMap_cons, List.length_append, Nat.add_assoc]

/-- The entries of a group. -/
def groupEntries (nextSequence : ℕ) (group : List WriterRequest) : List InternalEntry :=
  assignSequences nextSequence (group.flatMap WriterRequest.batch)

/-- What a successful commit of one group does: one WAL record with the entries of its batches in
order, and the same entries in the versions. -/
structure CommitsGroup (o : Options) (s : CommitState) (group : List WriterRequest)
    (s' : CommitState) : Prop where
  inv : s.Inv → s'.Inv
  next_eq : s'.nextSequence = s.nextSequence + (group.flatMap WriterRequest.batch).length
  next_lt : s.nextSequence < 2 ^ 64 → s'.nextSequence < 2 ^ 64
  mem_versions : s.Inv →
    ∀ e, e ∈ s'.versions ↔ e ∈ s.versions ∨ e ∈ groupEntries s.nextSequence group
  encoded : ∃ enc, encodeWalBatch (groupEntries s.nextSequence group) o.limits = .ok enc ∧
    (s'.files = s.sealedWals ++ [s.wal ++ enc] ∨ s'.files = s.sealedWals ++ [s.wal ++ enc] ++ [[]])

omit [EntrySize] in
theorem appendBatch_ok {s : CommitState} {entries : List InternalEntry}
    {fault : Option (Failure × ℕ)} (hok : (appendBatch o s entries fault).2.ok = true) :
    ∃ enc, encodeWalBatch entries o.limits = .ok enc ∧
      (appendBatch o s entries fault).1 = { s with wal := s.wal ++ enc } := by
  unfold appendBatch at hok ⊢
  cases henc : encodeWalBatch entries o.limits with
  | error status =>
    rw [henc] at hok
    rw [encodeWalBatch_error henc] at hok
    cases hok
  | ok enc =>
    rw [henc] at hok
    cases fault with
    | none => exact ⟨enc, rfl, rfl⟩
    | some p =>
      dsimp only at hok
      rw [p.1.2] at hok
      cases hok

/-- The part behind the WAL, when it succeeds. -/
theorem storeEntries_ok {f : CommitFaults} {s : CommitState} {entries : List InternalEntry}
    (hok : (storeEntries o f s entries).2.ok = true) :
    let s' := (storeEntries o f s entries).1
    (s.Inv → s'.Inv) ∧ s'.nextSequence = s.nextSequence + entries.length ∧
      (s.Inv → ∀ e, e ∈ s'.versions ↔ e ∈ s.versions ∨ e ∈ entries) ∧
      (s'.files = s.files ∨ s'.files = s.files ++ [[]]) := by
  unfold storeEntries at hok ⊢
  dsimp only at hok ⊢
  cases happly : s.memtable.applyBatch entries with
  | error status =>
    rw [happly] at hok
    rw [MemTable.applyBatch_error happly] at hok
    cases hok
  | ok memtable =>
    dsimp only
    -- the entries are in the MemTable before a rotation moves it
    set stored : CommitState :=
      { s with nextSequence := s.nextSequence + entries.length, memtable } with hstored
    have hmem : s.Inv → ∀ e, e ∈ stored.versions ↔ e ∈ s.versions ∨ e ∈ entries := by
      intro hinv e
      have := (hinv.memtable.applyBatch happly).2.1 e
      simp only [hstored, CommitState.versions, List.mem_append, this]
      tauto
    have hinv : s.Inv → stored.Inv := fun hinv =>
      ⟨(hinv.memtable.applyBatch happly).1, hinv.immutable⟩
    split
    · have hmoves := stored.moves_rotateMemTable f.rotateAfter
      refine ⟨fun h => hmoves.inv (hinv h), hmoves.next_eq, fun h e => ?_, hmoves.files_eq⟩
      rw [hmoves.mem_versions, hmem h]
    · exact ⟨hinv, rfl, hmem, .inl rfl⟩

/-- A successful commit behind `PrepareForWrite`. -/
theorem commitGroup_ok {f : CommitFaults} {s : CommitState} {group : List WriterRequest}
    (hok : (commitGroup o f s group).2.ok = true) :
    CommitsGroup o s group (commitGroup o f s group).1 := by
  unfold commitGroup at hok ⊢
  cases hcount : countGroup 0 0 group with
  | error status =>
    rw [hcount] at hok
    rw [countGroup_error hcount] at hok
    cases hok
  | ok count =>
    rw [hcount] at hok
    dsimp only at hok ⊢
    have hlength := countGroup_eq_ok hcount
    rw [Nat.zero_add] at hlength
    split at hok
    · cases hok
    rename_i hspace
    rw [if_neg hspace]
    split at hok
    · rename_i hfailed
      rw [hfailed] at hok
      cases hok
    rename_i happended
    rw [if_neg happended]
    rw [Bool.not_eq_false] at happended
    obtain ⟨enc, henc, hstate⟩ := appendBatch_ok happended
    cases hsync : f.sync.filter fun _ => o.syncOnWrite with
    | some status =>
      rw [hsync] at hok
      dsimp only at hok
      rw [status.2] at hok
      cases hok
    | none =>
      rw [hsync] at hok
      dsimp only at hok ⊢
      rw [hstate] at hok ⊢
      obtain ⟨hinv, hnext, hmem, hfiles⟩ := storeEntries_ok hok
      rw [length_assignSequences] at hnext
      refine ⟨fun h => hinv ⟨h.memtable, h.immutable⟩, hnext, fun hlt => ?_,
        fun h => hmem ⟨h.memtable, h.immutable⟩, enc, henc, hfiles⟩
      have hlast : s.nextSequence + (group.flatMap WriterRequest.batch).length < 2 ^ 64 := by omega
      rw [hnext]
      exact hlast

/-- A successful `ApplyWriteGroup` commits the group, possibly behind a rotation. -/
theorem applyWriteGroup_ok {f : CommitFaults} {s s' : CommitState} {group : List WriterRequest}
    {status : Status} (hne : group ≠ [])
    (h : applyWriteGroup o f s group = some (s', status)) (hok : status.ok = true) :
    ∃ s₁, CommitState.Moves s s₁ ∧ CommitsGroup o s₁ group s' := by
  unfold applyWriteGroup at h
  rw [if_neg hne] at h
  have hprepare : ∀ s₁ status₁, prepareForWrite o s f.rotateBefore = some (s₁, status₁) →
      CommitState.Moves s s₁ := by
    intro s₁ status₁ hp
    unfold prepareForWrite at hp
    split at hp
    · cases hp
    split at hp
    · cases hp
      exact .refl s
    split at hp
    · have hfst : (s.rotateMemTable f.rotateBefore).1 = s₁ := congrArg Prod.fst (Option.some.inj hp)
      exact hfst ▸ s.moves_rotateMemTable f.rotateBefore
    · cases hp
      exact .refl s
  split at h
  · cases h
  rename_i s₁ status₁ hp
  split at h
  · rename_i hfailed
    cases h
    rw [hfailed] at hok
    cases hok
  · have heq := Option.some.inj h
    refine ⟨s₁, hprepare s₁ status₁ hp, ?_⟩
    have hstatus : (commitGroup o f s₁ group).2.ok = true := by
      rw [heq]
      exact hok
    have := commitGroup_ok hstatus
    rwa [heq] at this

end

/-! ## Runs -/

/-- The operations of groups, in order. -/
def operationsOf (groups : List (List WriterRequest)) : List Operation :=
  groups.flatten.flatMap WriterRequest.batch

/-- The entries of groups on consecutive sequences, group by group. -/
def numberGroups : ℕ → List (List WriterRequest) → List (List InternalEntry)
  | _, [] => []
  | next, group :: groups =>
    groupEntries next group ::
      numberGroups (next + (group.flatMap WriterRequest.batch).length) groups

theorem operationsOf_append (groups : List (List WriterRequest)) (group : List WriterRequest) :
    operationsOf (groups ++ [group]) = operationsOf groups ++ group.flatMap WriterRequest.batch := by
  simp [operationsOf]

theorem numberGroups_append (next : ℕ) (groups : List (List WriterRequest))
    (group : List WriterRequest) :
    numberGroups next (groups ++ [group]) =
      numberGroups next groups ++ [groupEntries (next + (operationsOf groups).length) group] := by
  induction groups generalizing next with
  | nil => simp [numberGroups, operationsOf]
  | cons g groups ih =>
    rw [List.cons_append, numberGroups, ih, numberGroups, List.cons_append]
    simp [operationsOf, Nat.add_assoc]

theorem flatten_numberGroups (next : ℕ) (groups : List (List WriterRequest)) :
    (numberGroups next groups).flatten = assignSequences next (operationsOf groups) := by
  induction groups generalizing next with
  | nil => rfl
  | cons g groups ih =>
    rw [numberGroups, List.flatten_cons, ih]
    simp [operationsOf, groupEntries, assignSequences_append]

/-- What `Open` leaves: the WALs hold the groups `log` above `floor`. -/
structure Recovered (o : Options) (floor : ℕ) (log : List (List InternalEntry)) (s : CommitState) :
    Prop where
  inv : s.Inv
  floor_lt : floor < s.nextSequence
  next_lt : s.nextSequence < 2 ^ 64
  logged : Logged o.limits log s.files
  increasing : log.flatten.Pairwise (fun a b => a.sequence < b.sequence)
  between : ∀ e ∈ log.flatten, floor < e.sequence ∧ e.sequence < s.nextSequence

/-- The groups are committed on top of what `Open` left, in order and one record a group. -/
structure GroupsCommitted (o : Options) (log : List (List InternalEntry)) (s₀ s : CommitState)
    (groups : List (List WriterRequest)) : Prop where
  inv : s.Inv
  next_eq : s.nextSequence = s₀.nextSequence + (operationsOf groups).length
  next_lt : s.nextSequence < 2 ^ 64
  mem_versions : ∀ e, e ∈ s.versions ↔
    e ∈ s₀.versions ∨ e ∈ assignSequences s₀.nextSequence (operationsOf groups)
  logged : Logged o.limits (log ++ numberGroups s₀.nextSequence groups) s.files
  frames : ∃ encs, List.Forall₂ (fun es enc => encodeWalBatch es o.limits = .ok enc)
    (numberGroups s₀.nextSequence groups) encs ∧ s.files.flatten = s₀.files.flatten ++ encs.flatten

namespace GroupsCommitted

variable {o : Options} {log : List (List InternalEntry)} {s₀ s s' : CommitState}
  {groups : List (List WriterRequest)}

theorem init {floor : ℕ} (h : Recovered o floor log s₀) : GroupsCommitted o log s₀ s₀ [] where
  inv := h.inv
  next_eq := rfl
  next_lt := h.next_lt
  mem_versions e := by simp [operationsOf, assignSequences]
  logged := by simpa [numberGroups] using h.logged
  frames := ⟨[], .nil, by simp⟩

theorem moves (h : GroupsCommitted o log s₀ s groups) (hmoves : CommitState.Moves s s') :
    GroupsCommitted o log s₀ s' groups where
  inv := hmoves.inv h.inv
  next_eq := hmoves.next_eq.trans h.next_eq
  next_lt := hmoves.next_eq ▸ h.next_lt
  mem_versions e := (hmoves.mem_versions e).trans (h.mem_versions e)
  logged := by
    rcases hmoves.files_eq with hfiles | hfiles <;> rw [hfiles]
    · exact h.logged
    · exact h.logged.append_empty
  frames := by
    obtain ⟨encs, hencs, hbytes⟩ := h.frames
    refine ⟨encs, hencs, ?_⟩
    rcases hmoves.files_eq with hfiles | hfiles <;> rw [hfiles]
    · exact hbytes
    · simpa using hbytes

theorem commit {group : List WriterRequest} (h : GroupsCommitted o log s₀ s groups)
    (hcommit : CommitsGroup o s group s') : GroupsCommitted o log s₀ s' (groups ++ [group]) := by
  obtain ⟨enc, henc, hfiles⟩ := hcommit.encoded
  have hentries : groupEntries s.nextSequence group =
      groupEntries (s₀.nextSequence + (operationsOf groups).length) group := by rw [h.next_eq]
  have hlogged : Logged o.limits (log ++ numberGroups s₀.nextSequence (groups ++ [group]))
      (s.sealedWals ++ [s.wal ++ enc]) := by
    rw [numberGroups_append, ← List.append_assoc, ← hentries]
    exact h.logged.append_frame (encodeWalBatch_eq_ok henc).isFrame
  refine ⟨hcommit.inv h.inv, ?_, hcommit.next_lt h.next_lt, fun e => ?_, ?_, ?_⟩
  · rw [hcommit.next_eq, h.next_eq, operationsOf_append, List.length_append, Nat.add_assoc]
  · rw [hcommit.mem_versions h.inv, h.mem_versions, operationsOf_append, assignSequences_append,
      List.mem_append, hentries, or_assoc]
    rfl
  · rcases hfiles with hfiles | hfiles <;> rw [hfiles]
    · exact hlogged
    · exact hlogged.append_empty
  · obtain ⟨encs, hencs, hbytes⟩ := h.frames
    refine ⟨encs ++ [enc], ?_, ?_⟩
    · rw [numberGroups_append, ← hentries]
      exact List.rel_append hencs (.cons henc .nil)
    · have hflat : s'.files.flatten = s.files.flatten ++ enc := by
        rcases hfiles with hfiles | hfiles <;> rw [hfiles] <;> simp [CommitState.files]
      rw [hflat, hbytes]
      simp

end GroupsCommitted

section
variable [EntrySize] {o : Options}

/-- The writer queue over the commit state. -/
def groupCommit (o : Options) (s₀ : CommitState) :
    TransitionSystem (WriterQueue.State CommitState) :=
  WriterQueue.system o (Applies o) CommitEnv (· = s₀)

/-- The group ended with an OK status. -/
def Outcome.isOk : Outcome → Bool
  | .returned status => status.ok
  | .threw => false

/-- While all groups succeed, they are committed in order. -/
theorem groupsCommitted_of_reachable (ho : o.Accepted) {floor : ℕ}
    {log : List (List InternalEntry)} {s₀ : CommitState} (h₀ : Recovered o floor log s₀)
    {s : WriterQueue.State CommitState} (hs : (groupCommit o s₀).Reachable s)
    (hok : ∀ p ∈ s.appliedGroups, p.2.isOk) :
    GroupsCommitted o log s₀ s.store (s.appliedGroups.map Prod.fst) := by
  revert hok
  refine hs.induction (fun s => (∀ p ∈ s.appliedGroups, p.2.isOk) →
    GroupsCommitted o log s₀ s.store (s.appliedGroups.map Prod.fst)) ?_ ?_
  · rintro _ ⟨store, rfl, rfl⟩ -
    exact .init h₀
  · intro s s' hreach hstep ih hok
    have hinv := WriterQueue.Inv.of_reachable ho hreach
    rcases hinv.appliedGroups_step hstep with ⟨heq, hstore⟩ | ⟨outcome, hne, heq, happlies⟩
    · rw [heq] at hok ⊢
      rcases hstore with hstore | henv
      · rw [hstore]
        exact ih hok
      · exact (ih hok).moves (CommitState.CommitEnv.moves henv)
    · rw [heq] at hok ⊢
      have hbefore := ih fun p hp => hok p (List.mem_append_left _ hp)
      have hgroup := hok (s.current, outcome) (List.mem_append_right _ List.mem_cons_self)
      rw [List.map_append]
      cases happlies with
      | throws => cases hgroup
      | returns f h =>
        obtain ⟨s₁, hmoves, hcommit⟩ := applyWriteGroup_ok hne h hgroup
        exact (hbefore.moves hmoves).commit hcommit

/-- **Group commit is sequential commit.** In every run over any options that `Open` accepts and from
any recovered state, while all groups succeed: the applied groups are, in order, the admitted
requests up to those still pending; versions and sequences are those of committing their batches one
at a time; replaying the WALs yields exactly the same entries behind the recovered ones; every group
is one WAL record with its whole batches; and every completed request received its group's status. -/
theorem group_commit_sequential (ho : o.Accepted) {floor : ℕ} {log : List (List InternalEntry)}
    {s₀ : CommitState} (h₀ : Recovered o floor log s₀) {s : WriterQueue.State CommitState}
    (hs : (groupCommit o s₀).Reachable s) (hok : ∀ p ∈ s.appliedGroups, p.2.isOk) :
    let groups := s.appliedGroups.map Prod.fst
    let committed := Committed.commitAll ⟨s₀.versions, s₀.nextSequence⟩
      (groups.flatten.map WriterRequest.batch)
    (∃ pending, s.admitted = groups.flatten ++ pending ∧ (s.leader = false → pending = [])) ∧
      s.admitted.Nodup ∧
      (∀ e, e ∈ s.store.versions ↔ e ∈ committed.versions) ∧
      s.store.nextSequence = committed.nextSequence ∧
      (∃ entries, committed.versions = s₀.versions ++ entries ∧
        replayFiles o.limits floor s.store.files = .ok (log.flatten ++ entries)) ∧
      (∃ encs, List.Forall₂ (fun es enc => encodeWalBatch es o.limits = .ok enc)
        (numberGroups s₀.nextSequence groups) encs ∧
        s.store.files.flatten = s₀.files.flatten ++ encs.flatten) ∧
      ∀ r status, (r, status) ∈ s.completions →
        ∃ group, (group, .returned status) ∈ s.appliedGroups ∧ r ∈ group := by
  intro groups committed
  have hinv := WriterQueue.Inv.of_reachable ho hs
  have hgroups := groupsCommitted_of_reachable ho h₀ hs hok
  have hthrew : ∀ p ∈ s.appliedGroups, p.2 ≠ .threw := by
    intro p hp heq
    have := hok p hp
    rw [heq] at this
    cases this
  have hcommitted : committed = ⟨s₀.versions ++ assignSequences s₀.nextSequence (operationsOf groups),
      s₀.nextSequence + (operationsOf groups).length⟩ := by
    show Committed.commitAll _ _ = _
    rw [Committed.commitAll_eq]
    rfl
  refine ⟨⟨_, hinv.admitted_of_applied hs hthrew, fun hleader => ?_⟩, hinv.nodup_admitted,
    fun e => ?_, ?_, ⟨_, by rw [hcommitted], ?_⟩, hgroups.frames, fun r status hr =>
    hinv.group_of_completion hs hthrew hr⟩
  · obtain ⟨hcurrent, -, hqueue⟩ := hinv.idle hleader
    rw [hcurrent, hqueue, ite_self, List.append_nil]
  · rw [hcommitted, hgroups.mem_versions, List.mem_append]
  · rw [hcommitted, hgroups.next_eq]
  · have hflat := flatten_numberGroups s₀.nextSequence groups
    rw [← hflat, ← List.flatten_append]
    apply hgroups.logged.replayFiles_eq
    -- the recovered records end below the first sequence of the new ones
    apply groupsAbove_of_pairwise
    · rw [List.flatten_append, hflat]
      refine List.pairwise_append.mpr ⟨h₀.increasing, pairwise_assignSequences _ _, ?_⟩
      intro a ha b hb
      exact lt_of_lt_of_le (h₀.between a ha).2 (sequence_assignSequences hb).1
    · have hnext : s.store.nextSequence = s₀.nextSequence + (operationsOf groups).length :=
        hgroups.next_eq
      have hlt := hgroups.next_lt
      have hfloor := h₀.floor_lt
      rw [List.flatten_append, hflat]
      intro e he
      rcases List.mem_append.mp he with he | he
      · have := h₀.between e he
        omega
      · have := sequence_assignSequences he
        omega

end

/-! ## A commit with the default options -/

/-- A database that was just created. -/
def freshCommit : CommitState := ⟨.empty, none, [], 1, .okay, [], [], []⟩

theorem recovered_freshCommit : Recovered {} 0 [] freshCommit where
  inv := ⟨MemTable.inv_empty, nofun⟩
  floor_lt := by decide
  next_lt := by decide
  logged := ⟨[[]], rfl, .cons ⟨[], .nil, rfl⟩ .nil⟩
  increasing := .nil
  between := nofun

/-- `ApplyWriteGroup` of two puts in a new database succeeds. -/
theorem applies_twoPuts :
    ∃ s', @Applies entrySize80 {} freshCommit WriterQueue.bothPuts s' (.returned .okay) := by
  let _ := entrySize80
  have hstatus : (applyWriteGroup {} {} freshCommit WriterQueue.bothPuts).map Prod.snd =
      some .okay := by
    decide +kernel
  obtain ⟨⟨s', _⟩, happly, rfl⟩ := Option.map_eq_some_iff.mp hstatus
  exact ⟨s', .returns {} happly⟩

/-- Two threads put a value each. The caller of the first put commits both, and they take two
sequences. -/
theorem group_commit_sequential_twoPuts :
    ∃ s, (@groupCommit entrySize80 {} freshCommit).Reachable s ∧
      s.appliedGroups = [(WriterQueue.bothPuts, .returned .okay)] ∧ s.store.nextSequence = 3 := by
  let _ := entrySize80
  obtain ⟨s', happly⟩ := applies_twoPuts
  have hinit : (groupCommit {} freshCommit).Reachable { store := freshCommit } :=
    .of_init ⟨freshCommit, rfl, rfl⟩
  have hcombined : (groupCommit {} freshCommit).Reachable (WriterQueue.combined freshCommit) :=
    hinit.run (WriterQueue.run_combined freshCommit)
  have happlied : (groupCommit {} freshCommit).Reachable
      (WriterQueue.State.applied _ 0 WriterQueue.firstRequest WriterQueue.bothPuts s'
        (.returned .okay)) :=
    hcombined.step (.applied (WriterQueue.combined_caller _) happly)
  have hok : ∀ p ∈ [(WriterQueue.bothPuts, Outcome.returned .okay)], p.2.isOk := by decide
  refine ⟨_, happlied, rfl, ?_⟩
  exact (group_commit_sequential WriterQueue.accepted_default recovered_freshCommit happlied
    hok).2.2.2.1

end TinyLsm
