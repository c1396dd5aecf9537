import TinyLsm.Db.CrashPoints

/-!
# The directory inside a commit

A record reaches the active WAL in parts. Until it is complete the directory restores the handle
before the commit; from then on it restores that handle and the group behind it, and once the
MemTable has the group, the handle behind the commit.
-/

namespace TinyLsm

/-! ## Room for a record -/

section
variable [EntrySize] {limits : DecodeLimits} {es : List InternalEntry} {bytes : Bytes}

/-- A record of any size fits the accounting of a MemTable below its limit. -/
def Options.HasRoom (o : Options) : Prop :=
  o.memtableBytes + kMaxWalBatchBytes + kMaxWalBatchOperations * EntrySize.sizeofInternalEntry ≤
    2 ^ 64

theorem sum_entryBytes_le (es : List InternalEntry) :
    (es.map entryBytes).sum ≤
      es.length * EntrySize.sizeofInternalEntry + (es.flatMap walBatchEntry).length := by
  induction es with
  | nil => simp
  | cons e es ih =>
    rw [List.map_cons, List.sum_cons, List.length_cons, List.flatMap_cons, List.length_append,
      length_walBatchEntry, Nat.add_one_mul, entryBytes]
    omega

theorem EncodedBatch.entryBytes_lt (h : EncodedBatch limits es bytes) :
    (es.map entryBytes).sum <
      kMaxWalBatchBytes + kMaxWalBatchOperations * EntrySize.sizeofInternalEntry := by
  have hsum := sum_entryBytes_le es
  have hcount := Nat.mul_le_mul_right EntrySize.sizeofInternalEntry h.count_le
  have hsize := h.size_le
  rw [walBatchPayload, List.length_append, length_putFixed32] at hsize
  omega

/-- The MemTable of a commit takes the group. -/
theorem exists_applyBatch {o : Options} {h : Handle} {w : Worker} (hroom : o.HasRoom)
    (hl : Layered o h w) (hbelow : h.memtable.bytes < o.memtableBytes) {group : List WriterRequest}
    (hencode : encodeWalBatch (groupEntries h.nextSequence group) o.limits = .ok bytes) :
    ∃ m, h.memtable.applyBatch (groupEntries h.nextSequence group) = .ok m := by
  have hbytes := (encodeWalBatch_eq_ok hencode).entryBytes_lt
  have hpos : 0 < h.nextSequence := (Nat.zero_le _).trans_lt hl.next
  refine hl.memtable.applyBatch_ok (fun e he => hpos.trans_le (sequence_assignSequences he).1)
    (pairwise_assignSequences _ _) (fun a ha e he => ?_) ?_
  · exact (hl.active a ha).2.trans_le (sequence_assignSequences he).1
  · simp only [Options.HasRoom] at hroom
    omega

end

/-! ## The sequences of a group -/

theorem lastSequence_assignSequences (sequence : ℕ) {ops : List Operation} (hne : ops ≠ []) :
    lastSequence (assignSequences sequence ops) (sequence - 1) = sequence + ops.length - 1 := by
  induction ops generalizing sequence with
  | nil => exact absurd rfl hne
  | cons op ops ih =>
    cases ops with
    | nil => simp [assignSequences, lastSequence, Operation.entry]
    | cons op' ops =>
      have hrest := ih (sequence + 1) (List.cons_ne_nil _ _)
      rw [assignSequences, lastSequence, List.getLast?_cons_of_ne_nil (by simp [assignSequences])]
      rw [lastSequence, List.getLast?_eq_some_getLast (by simp [assignSequences])] at hrest
      rw [List.getLast?_eq_some_getLast (by simp [assignSequences])]
      simp only [List.length_cons] at hrest ⊢
      omega

/-- The sequences of a group that fits. -/
theorem groupEntries_above {next : ℕ} {group : List WriterRequest} (hpos : 0 < next)
    (hspace : next + (groupEntries next group).length < 2 ^ 64) :
    ∀ e ∈ groupEntries next group, next - 1 < e.sequence ∧ e.sequence < 2 ^ 64 - 1 := by
  intro e he
  obtain ⟨hge, hlt⟩ := sequence_assignSequences he
  rw [groupEntries, length_assignSequences] at hspace
  omega

/-! ## What the layers answer -/

/-- The layers answer what the log says to the reads behind its last operation. -/
structure Handle.Holds (o : Options) (h : Handle) (log : List InternalEntry) : Prop where
  layered : Layered o h .waiting
  space : h.nextSequence < 2 ^ 64
  sorted : log.Pairwise fun a b => a.sequence ≤ b.sequence
  distinct : Distinct log
  below : ∀ e ∈ log, e.sequence < h.nextSequence
  visible : ∀ key value q, h.nextSequence ≤ q + 1 →
    (VisibleValue h.versions key q value ↔ VisibleValue log key q value)

namespace Handle.Holds

variable {o : Options} {h h' : Handle} {log g : List InternalEntry} {m m' : MemTable} {n : ℕ}

theorem pos (hh : h.Holds o log) : 0 < h.nextSequence := (Nat.zero_le _).trans_lt hh.layered.next

/-- The versions move between the layers. -/
theorem move (hh : h.Holds o log) (hl : Layered o h' .waiting) (hversions : SameVersions h h')
    (hnext : h'.nextSequence = h.nextSequence) : h'.Holds o log := by
  refine ⟨hl, hnext ▸ hh.space, hh.sorted, hh.distinct, hnext ▸ hh.below, fun key value q hq => ?_⟩
  rw [hnext] at hq
  exact (VisibleValue.congr hversions).trans (hh.visible key value q hq)

theorem onlyFiles (hh : h.Holds o log) (hfiles : OnlyFiles h h') : h'.Holds o log :=
  hh.move (hh.layered.onlyFiles hfiles) hfiles.sameVersions hfiles.sameReads.1

theorem rotate (hh : h.Holds o log) {fault : Option RotateFault} {status : Status}
    (hr : h.rotateMemTable fault = (h', status)) : h'.Holds o log :=
  hh.move (hh.layered.rotate hr) (sameVersions_rotate hr) (sameReads_rotate hr).1

/-- A group goes on top of the layers and behind the log. -/
theorem extend (hh : h.Holds o log) (hl : Layered o h' .waiting)
    (hle : h.nextSequence ≤ h'.nextSequence) (hspace : h'.nextSequence < 2 ^ 64)
    (hpairwise : g.Pairwise fun a b => a.sequence < b.sequence)
    (hbounds : ∀ e ∈ g, h.nextSequence ≤ e.sequence ∧ e.sequence < h'.nextSequence)
    (hmem : ∀ e, e ∈ h'.versions ↔ e ∈ h.versions ∨ e ∈ g) : h'.Holds o (log ++ g) := by
  have hlog : ∀ a ∈ log, ∀ b ∈ g, a.sequence < b.sequence := fun a ha b hb =>
    (hh.below a ha).trans_le (hbounds b hb).1
  have hlayers : ∀ a ∈ h.versions, ∀ b ∈ g, a.sequence < b.sequence := fun a ha b hb =>
    (hh.layered.versions_lt ha).trans_le (hbounds b hb).1
  refine ⟨hl, hspace, ?_, ?_, fun e he => ?_, fun key value q hq => ?_⟩
  · exact List.pairwise_append.mpr ⟨hh.sorted, hpairwise.imp fun hlt => hlt.le,
      fun a ha b hb => (hlog a ha b hb).le⟩
  · refine hh.distinct.append (hpairwise.imp fun hlt hsame => ?_) fun a ha b hb => (hlog a ha b hb).ne
    omega
  · rcases List.mem_append.mp he with he | he
    · exact (hh.below e he).trans_le hle
    · exact (hbounds e he).2
  · have hmem' : ∀ e, e ∈ h'.versions ↔ e ∈ h.versions ++ g := fun e => by
      rw [hmem e, List.mem_append]
    rw [VisibleValue.congr hmem', visibleValue_append hlayers, visibleValue_append hlog,
      hh.visible key value q (hle.trans hq)]

/-- The active MemTable takes a group. -/
theorem store [EntrySize] (hh : h.Holds o log) (hm : h.memtable.applyBatch g = .ok m)
    (hle : h.nextSequence ≤ n) (hspace : n < 2 ^ 64)
    (hbounds : ∀ e ∈ g, h.nextSequence ≤ e.sequence ∧ e.sequence < n) :
    Holds o { h with memtable := m, nextSequence := n } (log ++ g) := by
  have hl := hh.layered
  have hnext := hl.next
  obtain ⟨hinv, hmem, -, -, hpairwise⟩ := hl.memtable.applyBatch hm
  have hversion : ∀ e ∈ m.contents, e ∈ h.memtable.contents ∨
      h.nextSequence ≤ e.sequence ∧ e.sequence < n := fun e he =>
    ((hmem e).mp he).imp_right (hbounds e)
  refine hh.extend ⟨hl.valid, hl.tables, hinv, hl.immutable, fun e he => ?_, fun m' hm' e he => ?_,
    hnext.trans_le hle, trivial⟩ hle hspace hpairwise hbounds fun e => ?_
  · rcases hversion e he with he | he
    · exact ⟨(hl.active e he).1, (hl.active e he).2.trans_le hle⟩
    · exact ⟨hnext.trans_le he.1, he.2⟩
  · obtain ⟨hlast, hlt, hnewer⟩ := hl.sealed m' hm' e he
    refine ⟨hlast, hlt.trans_le hle, fun e' he' => ?_⟩
    rcases hversion e' he' with he' | he'
    · exact hnewer e' he'
    · exact hlt.trans_le he'.1
  · rw [mem_versions, mem_versions]
    simp only [hmem e, or_assoc]
    exact or_congr Iff.rfl (or_congr Iff.rfl or_comm)

/-- A sealed MemTable takes a group, below an empty active one. -/
theorem storeSealed [EntrySize] (hh : h.Holds o log) (himmutable : h.immutable = some m)
    (hempty : h.memtable = .empty) (hm : m.applyBatch g = .ok m') (hle : h.nextSequence ≤ n)
    (hspace : n < 2 ^ 64) (hbounds : ∀ e ∈ g, h.nextSequence ≤ e.sequence ∧ e.sequence < n) :
    Holds o { h with immutable := some m', nextSequence := n } (log ++ g) := by
  have hl := hh.layered
  have hnext := hl.next
  obtain ⟨hinv, hmem, -, -, hpairwise⟩ := (hl.immutable m himmutable).applyBatch hm
  have hnone : ∀ e, e ∉ h.memtable.contents := by
    simp [hempty, MemTable.empty, MemTable.contents]
  refine hh.extend ⟨hl.valid, hl.tables, hl.memtable, fun m₁ hm₁ => ?_,
    fun e he => absurd he (hnone e), fun m₁ hm₁ e he => ?_, hnext.trans_le hle, trivial⟩ hle hspace
    hpairwise hbounds fun e => ?_
  · obtain rfl := Option.some.inj hm₁
    exact hinv
  · obtain rfl := Option.some.inj hm₁
    rcases (hmem e).mp he with he | he
    · obtain ⟨hlast, hlt, -⟩ := hl.sealed m himmutable e he
      exact ⟨hlast, hlt.trans_le hle, fun e' he' => absurd he' (hnone e')⟩
    · exact ⟨hnext.trans_le (hbounds e he).1, (hbounds e he).2, fun e' he' => absurd he' (hnone e')⟩
  · rw [mem_versions, mem_versions, himmutable]
    simp only [Option.some.injEq, exists_eq_left', hmem e, or_assoc]

end Handle.Holds

/-! ## A record behind the log -/

namespace Handle

section
variable [EntrySize] {o : Options} {durable : Prop} {h : Handle} {left : Option (List InternalEntry)}
  {tail bytes : Bytes} {g : List InternalEntry} {m : MemTable} {n : ℕ}

/-- A part of a record is torn, or the record is complete. -/
theorem leftBehind_take (hframe : IsFrame o.limits g bytes)
    (habove : ∀ e ∈ g, n < e.sequence ∧ e.sequence < 2 ^ 64 - 1) {m₀ : MemTable}
    (happly : m₀.applyBatch g = .ok m) (written : ℕ) :
    LeftBehind o n m₀ (bytes.take written) (some []) ∨
      LeftBehind o n m₀ (bytes.take written) (some g) := by
  by_cases hlt : written < bytes.length
  · exact .inl (.torn (.inr ⟨g, bytes, hframe, List.take_prefix _ _, by simpa using hlt⟩))
  · rw [List.take_of_length_le (not_lt.mp hlt)]
    exact .inr (.whole hframe habove happly)

/-- The active WAL is appended to behind its records. -/
theorem recovers_append (hw : h.dir.Recovers o durable h none) (hvalid : h.manifest.Valid)
    (hleft : LeftBehind o (h.nextSequence - 1) h.memtable tail left) :
    (h.perform (.append (.wal h.manifest.activeWalNumber) tail)).dir.Recovers o durable h left := by
  obtain ⟨floor, rest, hseals, hlogs, -, hnil⟩ := hw.settled rfl
  obtain ⟨f, records, hf, hdata, hsynced, hreplayed⟩ := hlogs
  rw [hnil rfl, List.append_nil] at hdata
  refine .active (hseals.of_file fun _ => ?_)
    ⟨{ f with data := f.data ++ tail }, records, ?_, by rw [hdata], hsynced, hreplayed⟩ hleft
  · exact Function.update_of_ne (fun heq => hvalid.wals_ne (FileName.wal.inj heq)) _ _
  · simp [DirOp.apply, hf]

/-- The active WAL is synced. -/
theorem recovers_sync (hw : h.dir.Recovers o durable h left) (hvalid : h.manifest.Valid) :
    (h.perform (.sync (.wal h.manifest.activeWalNumber))).dir.Recovers o durable h left := by
  have hother : (h.perform (.sync (.wal h.manifest.activeWalNumber))).dir.files
      (.wal h.manifest.immutableWalNumber) = h.dir.files (.wal h.manifest.immutableWalNumber) :=
    Function.update_of_ne (fun heq => hvalid.wals_ne (FileName.wal.inj heq)) _ _
  cases hw with
  | active hseals hlogs hleft =>
    obtain ⟨f, records, hf, hdata, hsynced, hreplayed⟩ := hlogs
    refine .active (hseals.of_file fun _ => hother)
      ⟨{ f with synced := f.data.length }, records, by simp [DirOp.apply, hf], hdata, fun _ => ?_,
        hreplayed⟩ hleft
    simp [hdata]
  | sealed hne himmutable hsome hlogs hleft hactive hempty =>
    obtain ⟨f, hf, hdata⟩ := hactive
    exact .sealed hne himmutable hsome (hlogs.of_file hother) hleft
      ⟨{ f with synced := f.data.length }, by simp [DirOp.apply, hf], hdata⟩ hempty

/-- The record of a group is in the active WAL, and the group in its MemTable. -/
theorem recovers_logged (hsync : durable → o.syncOnWrite) (hw : h.dir.Recovers o durable h none)
    (hvalid : h.manifest.Valid) (hframe : IsFrame o.limits g bytes)
    (habove : ∀ e ∈ g, h.nextSequence - 1 < e.sequence ∧ e.sequence < 2 ^ 64 - 1)
    (happly : h.memtable.applyBatch g = .ok m)
    (hlast : lastSequence g (h.nextSequence - 1) = n - 1) :
    (h.logged o bytes).dir.Recovers o durable { h with memtable := m, nextSequence := n } none := by
  obtain ⟨floor, rest, hseals, hlogs, -, hnil⟩ := hw.settled rfl
  obtain ⟨f, records, hf, hdata, hsynced, hreplayed⟩ := hlogs
  rw [hnil rfl, List.append_nil] at hdata
  have hextended : Replayed MemTable.applyBatch o.limits floor .empty (records ++ bytes) (n - 1) m := by
    rw [← hlast]
    exact hreplayed.trans (.single hframe (fun e he => ⟨(habove e he).1, by have := habove e he; omega⟩)
      happly)
  have hfiles : ∃ f', (h.logged o bytes).dir.files (.wal h.manifest.activeWalNumber) = some f' ∧
      f'.data = records ++ bytes ∧ (o.syncOnWrite → f'.synced = f'.data.length) := by
    unfold logged
    split
    · exact ⟨⟨f.data ++ bytes, (f.data ++ bytes).length⟩, by simp [DirOp.apply, hf], by rw [hdata],
        fun _ => rfl⟩
    · rename_i hno
      exact ⟨{ f with data := f.data ++ bytes }, by simp [DirOp.apply, hf], by rw [hdata],
        fun hyes => absurd hyes hno⟩
  have hother : (h.logged o bytes).dir.files (.wal h.manifest.immutableWalNumber) =
      h.dir.files (.wal h.manifest.immutableWalNumber) := by
    have hne : FileName.wal h.manifest.immutableWalNumber ≠ .wal h.manifest.activeWalNumber :=
      fun heq => hvalid.wals_ne (FileName.wal.inj heq)
    unfold logged
    split <;> simp [DirOp.apply, hne]
  obtain ⟨f', hf', hdata', hsynced'⟩ := hfiles
  have hseals' : (h.logged o bytes).dir.Seals o durable { h with memtable := m, nextSequence := n }
      floor := by
    cases hseals.of_file fun _ => hother with
    | none hzero hnone => exact .none hzero hnone
    | some hne hsome hnonempty hsealed htorn => exact .some hne hsome hnonempty hsealed htorn
  refine .active hseals' ⟨f', records ++ bytes, hf', by rw [hdata', List.append_nil], fun hd => ?_,
    hextended⟩ .nothing
  rw [hsynced' (hsync hd), hdata']

end

end Handle

/-! ## The commit of a group -/

/-- A crash that leaves the directory loses nothing of the log, and recovers all of the pending group
or nothing of it. -/
inductive Directory.Preserves [EntrySize] (o : Options) (durable : Prop) (d : Directory)
    (log pending : List InternalEntry) : Prop
  | before {h left} (hr : d.Restores o durable h left) (hh : h.Holds o log)
      (hleft : left.getD [] = [] ∨ left = some pending)
      (hpending : ∀ e ∈ pending, h.nextSequence ≤ e.sequence) : Preserves o durable d log pending
  | behind {h left} (hr : d.Restores o durable h left) (hh : h.Holds o (log ++ pending))
      (hleft : left.getD [] = []) : Preserves o durable d log pending

namespace Handle

section
variable [EntrySize] {o : Options} {durable : Prop} {h h' h₁ : Handle} {w : Worker}
  {left : Option (List InternalEntry)} {log pending : List InternalEntry} {group : List WriterRequest}
  {f : WriteFaults} {status s₁ : Status}

/-- The log is preserved from one state of the handle to the next one. -/
theorem Carries.preserves {left' : Option (List InternalEntry)}
    (hc : Carries o durable h left h' left') (hh : h.Holds o log) (hh' : h'.Holds o log)
    (hleft : left.getD [] = [] ∨ left = some pending)
    (hleft' : left'.getD [] = [] ∨ left' = some pending)
    (hpending : ∀ e ∈ pending, h.nextSequence ≤ e.sequence)
    (hnext : h'.nextSequence = h.nextSequence) : Passes (·.Preserves o durable log pending) h h' :=
  hc.passes.mono fun _ hd => hd.elim (.before · hh hleft hpending)
    (.before · hh' hleft' (hnext ▸ hpending))

theorem restores_perform {op : DirOp} (hp : Present h w) (hop : op.Spares h w)
    (hw : (h.perform op).dir.Recovers o durable h left) :
    (h.perform op).dir.Restores o durable h left :=
  ⟨(hp.perform hop).manifest, (hp.perform hop).tables, hw⟩

/-- `PrepareForWrite` without a fault. -/
theorem carries_prepareForWrite (hr : h.prepareForWrite o none = some (h₁, s₁)) (hp : Present h w)
    (hh : h.Holds o log) (hw : h.dir.Recovers o durable h left) :
    Carries o durable h left h₁ left ∧ Present h₁ w ∧ h₁.Holds o log ∧
      h₁.nextSequence = h.nextSequence := by
  have hrefl : Carries o durable h left h left := .refl ⟨hp.manifest, hp.tables, hw⟩
  rcases prepareForWrite_cases hr with ⟨rfl, -⟩ | ⟨-, -, -, hrotate⟩ | ⟨rfl, -⟩
  · exact ⟨hrefl, hp, hh, rfl⟩
  · exact ⟨carries_rotate hrotate hp hh.layered.valid hw, hp.rotate hrotate, hh.rotate hrotate,
      (sameReads_rotate hrotate).1⟩
  · exact ⟨hrefl, hp, hh, rfl⟩

theorem commitGroup_space (hr : h₁.commitGroup o group f = (h', status)) : h'.trace = h₁.trace ∨
    (h₁.nextSequence < 2 ^ 64 →
      h₁.nextSequence + (groupEntries h₁.nextSequence group).length < 2 ^ 64) := by
  unfold commitGroup at hr
  split at hr
  · cases hr
    exact .inl rfl
  rename_i count hcount
  split at hr
  · cases hr
    exact .inl rfl
  rename_i hspace
  rw [countGroup_eq_ok hcount, Nat.zero_add] at hspace
  refine .inr fun hlt => ?_
  rw [groupEntries, length_assignSequences]
  omega

/-- A group that reached the WAL fits the space of sequences. -/
theorem applyWriteGroup_space (hr : h.applyWriteGroup o group f = some (h', status))
    (hprepare : h.prepareForWrite o f.rotateBefore = some (h₁, s₁)) (htrace : h'.trace ≠ h₁.trace)
    (hlt : h₁.nextSequence < 2 ^ 64) :
    h₁.nextSequence + (groupEntries h₁.nextSequence group).length < 2 ^ 64 := by
  unfold applyWriteGroup at hr
  split at hr
  · rename_i hgroup
    simpa [hgroup, groupEntries, assignSequences] using hlt
  rw [hprepare] at hr
  dsimp only at hr
  split at hr
  · cases hr
    exact absurd rfl htrace
  · exact (commitGroup_space (Option.some.inj hr)).resolve_left htrace hlt

/-- A commit issues sequences. -/
theorem Commits.next_lt (hc : h.Commits o group f h') (hl : Layered o h w) :
    h.nextSequence < h'.nextSequence := by
  have hnext := (hc.versions hl).2.1
  obtain ⟨h₁, s₁, bytes, m, status, hprepare, -, hencode, -⟩ := hc
  have hne := (encodeWalBatch_eq_ok hencode).ne_nil
  rw [(sameReads_prepareForWrite hprepare).1] at hne
  have hpos := List.length_pos_of_ne_nil hne
  omega

/-- A group that is not committed left nothing, unless it met a fault: then it may have left its record
or a part of it. A group that is committed is behind the log. -/
inductive CommitCarries (o : Options) (durable : Prop) (h : Handle) (group : List WriterRequest)
    (f : WriteFaults) (log : List InternalEntry) (h' : Handle) : Prop
  | refused (hcommit : ¬ h.Commits o group f h') (hc : Carries o durable h none h' none)
      (hh : h'.Holds o log) (hnext : h'.nextSequence = h.nextSequence) :
      CommitCarries o durable h group f log h'
  | failed {left : Option (List InternalEntry)} (hcommit : ¬ h.Commits o group f h') (hf : f ≠ {})
      (hh : h'.Holds o log) (hnext : h'.nextSequence = h.nextSequence)
      (hne : groupEntries h.nextSequence group ≠ [])
      (hleft : left = some [] ∨ left = some (groupEntries h.nextSequence group))
      (hr : h'.dir.Restores o durable h' left)
      (hpasses : Passes (·.Preserves o durable log (groupEntries h.nextSequence group)) h h') :
      CommitCarries o durable h group f log h'
  | committed (hcommit : h.Commits o group f h')
      (hh : h'.Holds o (log ++ groupEntries h.nextSequence group))
      (hr : h'.dir.Restores o durable h' none)
      (hpasses : Passes (·.Preserves o durable log (groupEntries h.nextSequence group)) h h') :
      CommitCarries o durable h group f log h'

/-- A part of the record reaches the WAL. -/
theorem commitCarries_written {bytes : Bytes} (hroom : o.HasRoom)
    (hc : Carries o durable h none h₁ none) (hp : Present h₁ w) (hh : h.Holds o log)
    (hh₁ : h₁.Holds o log) (hnext : h₁.nextSequence = h.nextSequence)
    (hbelow : h₁.memtable.bytes < o.memtableBytes)
    (hencode : encodeWalBatch (groupEntries h₁.nextSequence group) o.limits = .ok bytes)
    (hspace : h₁.nextSequence + (groupEntries h₁.nextSequence group).length < 2 ^ 64) (written : ℕ) :
    ∃ left, (left = some [] ∨ left = some (groupEntries h.nextSequence group)) ∧
      (h₁.perform (.append (.wal h₁.manifest.activeWalNumber) (bytes.take written))).dir.Restores o
        durable h₁ left ∧
      Passes (·.Preserves o durable log (groupEntries h.nextSequence group)) h
        (h₁.perform (.append (.wal h₁.manifest.activeWalNumber) (bytes.take written))) := by
  obtain ⟨m, hm⟩ := exists_applyBatch hroom hh₁.layered hbelow hencode
  have habove := groupEntries_above hh₁.pos hspace
  have hpending : ∀ e ∈ groupEntries h.nextSequence group, h.nextSequence ≤ e.sequence := by
    intro e he
    exact (sequence_assignSequences he).1
  obtain ⟨left, hleft, hbehind⟩ : ∃ left, (left = some [] ∨
      left = some (groupEntries h.nextSequence group)) ∧
      LeftBehind o (h₁.nextSequence - 1) h₁.memtable (bytes.take written) left := by
    rcases leftBehind_take (encodeWalBatch_eq_ok hencode).isFrame habove hm written with hb | hb
    · exact ⟨_, .inl rfl, hb⟩
    · exact ⟨_, .inr (by rw [hnext]), hb⟩
  have hop : (DirOp.append (.wal h₁.manifest.activeWalNumber) (bytes.take written)).Spares h₁ w :=
    .inl ⟨_, rfl⟩
  have hr := restores_perform hp hop (recovers_append hc.restores.wals hh₁.layered.valid hbehind)
  have hpending₁ : ∀ e ∈ groupEntries h.nextSequence group, h₁.nextSequence ≤ e.sequence :=
    hnext ▸ hpending
  refine ⟨left, hleft, hr, (hc.preserves hh hh₁ (.inl rfl) (.inl rfl) hpending hnext).trans
    (.perform (by simp [DirOp.Steady]) (.before hc.restores hh₁ (.inl rfl) hpending₁)
      (.before hr hh₁ ?_ hpending₁))⟩
  rcases hleft with rfl | rfl
  · exact .inl rfl
  · exact .inr rfl

/-- The record is complete and the group in the MemTable. -/
theorem commitCarries_stored {bytes : Bytes} {m : MemTable} (hroom : o.HasRoom)
    (hsync : durable → o.syncOnWrite) (hc : Carries o durable h none h₁ none) (hp : Present h₁ w)
    (hh : h.Holds o log) (hh₁ : h₁.Holds o log) (hnext : h₁.nextSequence = h.nextSequence)
    (hbelow : h₁.memtable.bytes < o.memtableBytes)
    (hencode : encodeWalBatch (groupEntries h₁.nextSequence group) o.limits = .ok bytes)
    (hspace : h₁.nextSequence + (groupEntries h₁.nextSequence group).length < 2 ^ 64)
    (hm : h₁.memtable.applyBatch (groupEntries h₁.nextSequence group) = .ok m)
    (hstore : (h₁.logged o bytes).storeEntries o (groupEntries h₁.nextSequence group) none =
      (h', status)) :
    h'.Holds o (log ++ groupEntries h.nextSequence group) ∧ h'.dir.Restores o durable h' none ∧
      Passes (·.Preserves o durable log (groupEntries h.nextSequence group)) h h' := by
  obtain ⟨left, -, -, hwritten⟩ := commitCarries_written hroom hc hp hh hh₁ hnext hbelow hencode hspace
    bytes.length
  rw [List.take_length] at hwritten
  have hgroup : groupEntries h.nextSequence group = groupEntries h₁.nextSequence group := by
    rw [hnext]
  rw [hgroup] at hwritten ⊢
  set g := groupEntries h₁.nextSequence group with hg
  have hencoded := encodeWalBatch_eq_ok hencode
  have habove := groupEntries_above hh₁.pos hspace
  have hops : group.flatMap WriterRequest.batch ≠ [] := by
    intro hnil
    refine hencoded.ne_nil ?_
    rw [hg, groupEntries, hnil]
    rfl
  have hlast : lastSequence g (h₁.nextSequence - 1) = h₁.nextSequence + g.length - 1 := by
    rw [hg, groupEntries, lastSequence_assignSequences _ hops, length_assignSequences]
  -- the state behind `ApplyBatch`
  have hw₂ := recovers_logged hsync hc.restores.wals hh₁.layered.valid hencoded.isFrame habove hm hlast
  have hh₂ : Holds o { h₁ with memtable := m, nextSequence := h₁.nextSequence + g.length } (log ++ g) :=
    hh₁.store hm (Nat.le_add_right _ _) hspace fun e he => by
      have hbounds := sequence_assignSequences he
      rw [hg, groupEntries, length_assignSequences]
      exact hbounds
  have hp₂ := hp.logged (o := o) bytes
  have hrestored : (h₁.logged o bytes).dir.Restores o durable
      { h₁ with memtable := m, nextSequence := h₁.nextSequence + g.length } none := by
    obtain ⟨d, t, p, heq⟩ := onlyFiles_logged o h₁ bytes
    rw [heq] at hp₂ hw₂ ⊢
    exact ⟨hp₂.manifest, hp₂.tables, hw₂⟩
  have hlogged : Passes (·.Preserves o durable log g) h (h₁.logged o bytes) := by
    have hbehind : (h₁.logged o bytes).dir.Preserves o durable log g := .behind hrestored hh₂ rfl
    unfold logged at hbehind ⊢
    split
    · rename_i hyes
      rw [if_pos hyes] at hbehind
      exact hwritten.trans (.perform (by simp [DirOp.Steady]) hwritten.last hbehind)
    · exact hwritten
  obtain ⟨d, t, p, heq⟩ := onlyFiles_logged o h₁ bytes
  rw [heq] at hp₂ hrestored hlogged hstore
  set h₂ : Handle := { h₁ with
    memtable := m, nextSequence := h₁.nextSequence + g.length, dir := d, trace := t
    pendingCleanup := p } with hh₂def
  have hholds₂ : h₂.Holds o (log ++ g) := hh₂.onlyFiles ⟨d, t, p, rfl⟩
  have hpresent₂ : Present h₂ w := hp₂.congr rfl rfl rfl rfl
  have hr₂ : h₂.dir.Restores o durable h₂ none := hrestored.congr rfl rfl rfl rfl rfl
  have hpasses₂ : Passes (·.Preserves o durable log g) h h₂ :=
    hlogged.trans (.of_eq rfl rfl hlogged.last)
  simp only [storeEntries, hm] at hstore
  split at hstore
  · have hc' : Carries o durable h₂ none h' none :=
      carries_rotate hstore hpresent₂ hholds₂.layered.valid hr₂.wals
    have hh' : h'.Holds o (log ++ g) := hholds₂.rotate hstore
    refine ⟨hh', hc'.restores, hpasses₂.trans (hc'.passes.mono fun _ hd => ?_)⟩
    exact hd.elim (.behind · hholds₂ rfl) (.behind · hh' rfl)
  · cases hstore
    exact ⟨hholds₂, hr₂, hpasses₂⟩

/-- What `ApplyWriteGroup` leaves in the WAL, however far it gets, when its rotations meet no fault. -/
theorem commitCarries_applyWriteGroup (ho : o.Accepted) (hroom : o.HasRoom)
    (hsync : durable → o.syncOnWrite) (hr : h.applyWriteGroup o group f = some (h', status))
    (hbefore : f.rotateBefore = none) (hafter : f.rotateAfter = none) (hp : Present h w)
    (hh : h.Holds o log) (hzero : h.memtable.EmptyIsZero) (hw : h.dir.Recovers o durable h none) :
    CommitCarries o durable h group f log h' := by
  have hnot : h'.nextSequence = h.nextSequence → ¬ h.Commits o group f h' := fun hnext hcommit =>
    (hcommit.next_lt hh.layered).ne' hnext
  have hwrites := applyWriteGroup_writesTo hr
  -- a record in the WAL lengthens the trace
  have hspaceOf : ∀ {h₁ s₁ op}, h' = h₁.perform op →
      h.prepareForWrite o f.rotateBefore = some (h₁, s₁) → h₁.nextSequence < 2 ^ 64 →
      h₁.nextSequence + (groupEntries h₁.nextSequence group).length < 2 ^ 64 := by
    intro h₁ s₁ op heq hprepare hlt
    refine applyWriteGroup_space hr hprepare ?_ hlt
    rw [heq]
    simp
  cases hwrites with
  | empty => exact .refused (hnot rfl) (.refl ⟨hp.manifest, hp.tables, hw⟩) hh rfl
  | refused hprepare =>
    rw [hbefore] at hprepare
    obtain ⟨hc, hp₁, hh₁, hnext⟩ := carries_prepareForWrite hprepare hp hh hw
    exact .refused (hnot hnext) hc hh₁ hnext
  | @torn h₁ s₁ bytes written _ hprepare hok hencode hfault =>
    have hbelow := prepareForWrite_below ho hzero hprepare hok
    have hspace := hspaceOf rfl hprepare
    rw [hbefore] at hprepare
    obtain ⟨hc, hp₁, hh₁, hnext⟩ := carries_prepareForWrite hprepare hp hh hw
    obtain ⟨left, hleft, hrestores, hpasses⟩ := commitCarries_written hroom hc hp₁ hh hh₁ hnext hbelow
      hencode (hspace hh₁.space) written
    refine .failed (hnot hnext) ?_ (hh₁.onlyFiles (.perform _ _)) hnext
      (hnext ▸ (encodeWalBatch_eq_ok hencode).ne_nil) hleft (hrestores.congr rfl rfl rfl rfl rfl) hpasses
    rintro rfl
    exact hfault rfl
  | @unsynced h₁ s₁ bytes _ hprepare hok hencode _ hfault =>
    have hbelow := prepareForWrite_below ho hzero hprepare hok
    have hspace := hspaceOf rfl hprepare
    rw [hbefore] at hprepare
    obtain ⟨hc, hp₁, hh₁, hnext⟩ := carries_prepareForWrite hprepare hp hh hw
    obtain ⟨left, hleft, hrestores, hpasses⟩ := commitCarries_written hroom hc hp₁ hh hh₁ hnext hbelow
      hencode (hspace hh₁.space) bytes.length
    rw [List.take_length] at hrestores hpasses
    refine .failed (hnot hnext) ?_ (hh₁.onlyFiles (.perform _ _)) hnext
      (hnext ▸ (encodeWalBatch_eq_ok hencode).ne_nil) hleft (hrestores.congr rfl rfl rfl rfl rfl) hpasses
    rintro rfl
    exact hfault rfl
  | @stored h₁ s₁ bytes _ _ hprepare hok hencode hspace hstore =>
    have hbelow := prepareForWrite_below ho hzero hprepare hok
    rw [hbefore] at hprepare
    obtain ⟨hc, hp₁, hh₁, hnext⟩ := carries_prepareForWrite hprepare hp hh hw
    obtain ⟨m, hm⟩ := exists_applyBatch hroom hh₁.layered hbelow hencode
    rw [hafter] at hstore
    obtain ⟨hh', hrestores, hpasses⟩ := commitCarries_stored hroom hsync hc hp₁ hh hh₁ hnext hbelow
      hencode (hspace hh₁.space) hm hstore
    exact .committed ⟨h₁, s₁, bytes, m, status, hbefore ▸ hprepare, hok, hencode, hm, hafter ▸ hstore⟩
      hh' hrestores hpasses

/-- A write without faults that issues no sequence. -/
theorem carries_unissued (hr : h.applyWriteGroup o group {} = some (h', status))
    (hnext : h'.nextSequence = h.nextSequence) (hp : Present h w) (hh : h.Holds o log)
    (hw : h.dir.Recovers o durable h left) : Carries o durable h left h' left := by
  cases applyWriteGroup_writesTo hr with
  | empty => exact .refl ⟨hp.manifest, hp.tables, hw⟩
  | refused hprepare => exact (carries_prepareForWrite hprepare hp hh hw).1
  | torn _ _ _ hfault => exact absurd rfl hfault
  | unsynced _ _ _ _ hfault => exact absurd rfl hfault
  | @stored h₁ s₁ bytes _ _ hprepare hok hencode hspace hstore =>
    have hissued : (h₁.logged o bytes).nextSequence + (groupEntries h₁.nextSequence group).length =
        h'.nextSequence := by
      simp only [storeEntries] at hstore
      split at hstore
      · cases hstore
        rfl
      split at hstore
      · exact (sameReads_rotate hstore).1.symm
      · cases hstore
        rfl
    have hpos := List.length_pos_of_ne_nil (encodeWalBatch_eq_ok hencode).ne_nil
    have hlogged := (onlyFiles_logged o h₁ bytes).sameReads.1
    have hprepared := (sameReads_prepareForWrite hprepare).1
    omega

/-- A write whose rotations meet no fault leaves the files that the Manifest names. -/
theorem present_applyWriteGroup (hr : h.applyWriteGroup o group f = some (h', status))
    (hbefore : f.rotateBefore = none) (hafter : f.rotateAfter = none) (hp : Present h w) :
    Present h' w := by
  have hprepared : ∀ {h₁ s₁}, h.prepareForWrite o f.rotateBefore = some (h₁, s₁) → Present h₁ w := by
    intro h₁ s₁ hprepare
    rw [hbefore] at hprepare
    exact prepareForWrite_keeps (Present · w) (fun hrotate => hp.rotate hrotate) hprepare hp
  have happended : ∀ {h₁ : Handle} (bytes : Bytes), Present h₁ w →
      Present (h₁.perform (.append (.wal h₁.manifest.activeWalNumber) bytes)) w := by
    intro h₁ bytes hp₁
    have hop : (DirOp.append (.wal h₁.manifest.activeWalNumber) bytes).Spares h₁ w := .inl ⟨_, rfl⟩
    exact hp₁.perform hop
  cases applyWriteGroup_writesTo hr with
  | empty => exact hp
  | refused hprepare => exact hprepared hprepare
  | torn hprepare => exact happended _ (hprepared hprepare)
  | unsynced hprepare => exact happended _ (hprepared hprepare)
  | @stored h₁ s₁ bytes _ _ hprepare hok hencode hspace hstore =>
    have hlogged := (hprepared hprepare).logged (o := o) bytes
    rw [hafter] at hstore
    simp only [storeEntries] at hstore
    split at hstore
    · cases hstore
      exact hlogged.congr rfl rfl rfl rfl
    split at hstore
    · refine Present.rotate hstore ?_
      exact hlogged.congr rfl rfl rfl rfl
    · cases hstore
      exact hlogged.congr rfl rfl rfl rfl

theorem emptyIsZero_applyWriteGroup (hr : h.applyWriteGroup o group f = some (h', status))
    (hzero : h.memtable.EmptyIsZero) : h'.memtable.EmptyIsZero := by
  refine applyWriteGroup_keeps (·.memtable.EmptyIsZero) (fun _ _ _ h => h) ?_ ?_ hr hzero
  · rintro h m n ⟨ops, -, -, rfl | hm⟩ hzero
    · exact hzero
    · exact hzero.applyBatch hm
  · intro h h' fault status hrotate hzero
    rcases rotateMemTable_maintains hrotate with ⟨ha, -⟩ | ⟨-, ha, -⟩ | ⟨ha, -⟩
    · exact ha ▸ hzero
    · rw [ha]
      exact fun _ => rfl
    · exact ha ▸ hzero

end

end Handle

/-! ## A step of the threads -/

section
variable [EntrySize] {o : Options} {durable : Prop} {s s' : System} {d₀ : Directory}
  {readers : Set Table} {left : Option (List InternalEntry)}

theorem System.Step.emptyIsZero {faultFree : Bool} (hstep : System.Step o faultFree s s')
    (hzero : s.handle.memtable.EmptyIsZero) : s'.handle.memtable.EmptyIsZero := by
  rcases hstep.commits_or_maintains with ⟨group, f, status, happly, -⟩ | hmaintains
  · exact Handle.emptyIsZero_applyWriteGroup happly hzero
  · rcases hmaintains with ⟨ha, -⟩ | ⟨-, ha, -⟩ | ⟨ha, -⟩
    · exact ha ▸ hzero
    · rw [ha]
      exact fun _ => rfl
    · exact ha ▸ hzero

/-- A step of a fault-free run that is no write moves the directory from the old layers to the new
ones. -/
theorem System.QuietStep.carries (hstep : System.QuietStep o s s') (hk : Kept o d₀ readers s)
    (hp : Present s.handle s.worker) (hw : s.handle.dir.Recovers o durable s.handle left) :
    (∃ group status, s.handle.applyWriteGroup o group {} = some (s'.handle, status)) ∨
      ∃ left', (left' = left ∨ left' = none) ∧
        Handle.Carries o durable s.handle left s'.handle left' := by
  have ha := hk.allocated
  have hl := hk.layered
  have hrestores : s.handle.dir.Restores o durable s.handle left := ⟨hp.manifest, hp.tables, hw⟩
  have hp' := hp.step hstep ha hl
  have hsame : ∀ {h' : Handle}, Handle.Carries o durable s.handle left h' left →
      ∃ left', (left' = left ∨ left' = none) ∧ Handle.Carries o durable s.handle left h' left' :=
    fun hc => ⟨left, .inl rfl, hc⟩
  have hflags : ∀ {h' : Handle}, s.handle.OnlyFlags h' →
      ∃ left', (left' = left ∨ left' = none) ∧ Handle.Carries o durable s.handle left h' left' :=
    fun hflags => hsame ((Handle.Carries.refl hrestores).onlyFlags hflags)
  obtain ⟨hstep, hquiet⟩ := hstep
  cases hstep with
  | write f hf happly =>
    rw [hf rfl] at happly
    exact .inl ⟨_, _, happly⟩
  | getSnapshot | releaseSnapshot =>
    exact .inr (hsame (.of_dir (hrestores.congr rfl rfl rfl rfl rfl) rfl rfl))
  | workerExit | compactMerge | compactCall | compactResume | closeWake | next =>
    exact .inr (hsame (.refl hrestores))
  | workerException _ hf => cases hf
  | workerClaim => exact .inr (hflags (.claim _))
  | flushBegin sweep _ _ hr =>
    refine .inr (hsame ?_)
    rcases Handle.beginFlush_dir hr with rfl | rfl
    · exact .refl hrestores
    · exact .harmless (.cleanupObsoleteFiles hp.pending _ _) (.cleanupObsoleteFiles _ _ _) hrestores
  | @flushBuild job phase _ r fault _ hworker hphase hr =>
    rw [hworker] at ha
    exact .inr (hsame (.harmless (Handle.harmless_buildStep (by simp) hphase hr
      (Present.live_ne ha (ha.flush job rfl).2.1)) (.buildStep (by simp) hphase hr) hrestores))
  | flushCommit fault hf hworker hr =>
    rw [hworker] at hp ha hl
    rw [hf rfl] at hr
    exact .inr (Handle.carries_commitFlush hr hp ha hl hw)
  | @flushRemove number fails hf hworker =>
    rw [hworker] at hp
    have hnames : ¬ s.handle.manifest.Names (.wal number) := (hp.removing number rfl).2
    exact .inr (hsame (.harmless (.bestEffortRemove hnames fails) (.bestEffortRemove _ _ _) hrestores))
  | compactBegin fault hf _ hr =>
    rw [hf rfl] at hr
    exact .inr (hsame (Handle.carries_beginCompaction hr hp hw))
  | @compactBuild job entries phase _ r fault _ hworker hphase hr =>
    rw [hworker] at ha
    exact .inr (hsame (.harmless (Handle.harmless_buildStep Handle.compactionChecked_error hphase hr
      (Present.live_ne ha (ha.compaction job.number rfl).2.1))
      (.buildStep Handle.compactionChecked_error hphase hr) hrestores))
  | @compactCommit job entries out _ status fault fails hf hworker hr =>
    obtain ⟨rfl, rfl⟩ := hf rfl
    rw [hworker] at ha
    refine .inr (hsame (Handle.carries_commitCompaction hr hp hp' hl.valid (fun out' ho => ?_) hw))
    cases ho
    rw [ha.builds.1.number_eq]
    exact Present.live_ne ha (ha.compaction job.number rfl).2.1
  | compactDrop fault fails hf _ hr =>
    obtain ⟨rfl, rfl⟩ := hf rfl
    exact .inr (hsame (Handle.carries_commitCompaction hr hp hp' hl.valid (by simp) hw))
  | workerAccount => exact .inr (hflags (.account _ _ _))
  | @compactRun t inputCount _ status f hf ht hr =>
    obtain ⟨hsweep, -, -, -, -, -, -, hpublish, hfails⟩ := hf rfl
    exact .inr (hsame (Handle.carries_compactTablePrefix hr hsweep hfails hpublish hp ha
      (hquiet t inputCount status ht (Function.update_self _ _ _)) hw))
  | closeCall =>
    refine .inr ?_
    split
    · exact hsame (.refl hrestores)
    · exact hsame (.of_dir (hrestores.congr rfl rfl rfl rfl rfl) rfl rfl)
  | closeRound fault hf _ hr =>
    rw [hf rfl] at hr
    rcases Handle.closeRound_cases hr with hround | ⟨h₁, status, hrotate, hround⟩
    · exact .inr (hflags hround)
    · exact .inr (hsame ((Handle.carries_rotate hrotate hp hl.valid hw).onlyFlags hround))
  | closeSync fault _ _ hr =>
    rcases Handle.closeSyncWal_cases hr with hround | hround
    · exact .inr (hflags hround)
    · have hop : (DirOp.sync (.wal s.handle.manifest.activeWalNumber)).Spares s.handle s.worker :=
        .inl ⟨_, rfl⟩
      have hsynced := Handle.restores_perform hp hop (Handle.recovers_sync hw hl.valid)
      have hc : Handle.Carries o durable s.handle left
          (s.handle.perform (.sync (.wal s.handle.manifest.activeWalNumber))) left :=
        ⟨hsynced.congr rfl rfl rfl rfl rfl, .perform (by simp [DirOp.Steady]) (.inl hrestores)
          (.inr (hsynced.congr rfl rfl rfl rfl rfl))⟩
      exact .inr (hsame (hc.onlyFlags hround))
  | closeJoined fault _ _ _ hr =>
    cases hr
    exact .inr (hsame (.of_dir (hrestores.congr rfl rfl rfl rfl rfl) rfl rfl))

end

end TinyLsm
