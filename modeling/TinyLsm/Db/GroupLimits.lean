import TinyLsm.Db.GroupCommit

/-!
# Group limits

The three measures of size on the way of a write: `ValidateWriteBatch` and the writer queue count
entries as they lie in memory, `DrainWriterQueue` bounds a group by the options, and
`EncodeWalBatch` bounds the encoded payload by `kMaxWalBatchBytes`. The group bytes are compared
with `max_group_commit_bytes` alone, which the options leave free.
-/

namespace TinyLsm

/-! ## The payload of a group -/

/-- The bytes of the operations in a WAL payload. -/
def operationBytes (ops : List Operation) : ℕ :=
  (ops.map fun op => kWalBatchEntryHeaderSize + op.key.length + op.value.length).sum

@[simp] theorem operationBytes_nil : operationBytes [] = 0 := rfl

@[simp] theorem operationBytes_cons (op : Operation) (ops : List Operation) :
    operationBytes (op :: ops) =
      (kWalBatchEntryHeaderSize + op.key.length + op.value.length) + operationBytes ops := rfl

@[simp] theorem operationBytes_append (ops ops' : List Operation) :
    operationBytes (ops ++ ops') = operationBytes ops + operationBytes ops' := by
  simp [operationBytes]

/-- An operation within the options' field limits. -/
def Operation.Fits (o : Options) (op : Operation) : Prop :=
  op.key.length ≤ o.maxKeyBytes ∧ op.value.length ≤ o.maxValueBytes

/-- The check loop of `EncodeWalBatch` on operations within the field limits: only the size can
still fail. -/
theorem checkWalBatch_assignSequences {o : Options} (ho : o.Accepted) {ops : List Operation}
    (hops : ∀ op ∈ ops, op.Fits o) {next previous size : ℕ} (hnext : 0 < next)
    (hprevious : previous = 0 ∨ next = previous + 1) (hsize : size ≤ kMaxWalBatchBytes) :
    checkWalBatch o.limits previous size (assignSequences next ops) = .ok () ↔
      size + operationBytes ops ≤ kMaxWalBatchBytes := by
  induction ops generalizing next previous size with
  | nil => exact iff_of_true rfl hsize
  | cons op ops ih =>
    obtain ⟨hkey, hvalue⟩ := hops op List.mem_cons_self
    have hkey32 := ho.key_lt
    have hvalue32 := ho.value_lt
    have htombstone : ¬ (op.type = .tombstone ∧ op.value ≠ []) := by
      cases op <;> simp [Operation.type, Operation.value]
    have hsequence : ¬ (next = 0 ∨ (previous ≠ 0 ∧ next ≠ previous + 1)) := by omega
    have hfields : ¬ (o.maxKeyBytes < op.key.length ∨ o.maxValueBytes < op.value.length ∨
        2 ^ 32 - 1 < op.key.length ∨ 2 ^ 32 - 1 < op.value.length) := by omega
    simp only [assignSequences, checkWalBatch, Operation.entry, Options.limits]
    rw [if_neg hsequence, if_neg hfields, if_neg htombstone, operationBytes_cons,
      ← Nat.add_assoc size (kWalBatchEntryHeaderSize + op.key.length + op.value.length)]
    split
    · rename_i hlarge
      refine iff_of_false (by simp) ?_
      simp only [kMaxWalBatchBytes] at hlarge ⊢
      omega
    · rename_i hsmall
      exact ih (fun op hop => hops op (List.mem_cons_of_mem _ hop)) (Nat.succ_pos _) (.inr rfl)
        (by omega)

/-- `EncodeWalBatch` on operations within the field limits, with sequences from `next` on. -/
theorem encodeWalBatch_assignSequences {o : Options} (ho : o.Accepted) {ops : List Operation}
    (hne : ops ≠ []) (hops : ∀ op ∈ ops, op.Fits o) (hcount : ops.length ≤ kMaxWalBatchOperations)
    {next : ℕ} (hnext : 0 < next) :
    (∃ bytes, encodeWalBatch (assignSequences next ops) o.limits = .ok bytes) ↔
      kWalBatchPayloadHeaderSize + operationBytes ops ≤ kMaxWalBatchBytes := by
  have hentries : assignSequences next ops ≠ [] := by
    rw [ne_eq, ← List.length_eq_zero_iff, length_assignSequences, List.length_eq_zero_iff]
    exact hne
  rw [← checkWalBatch_assignSequences ho hops hnext (.inl rfl) (by decide)]
  unfold encodeWalBatch
  rw [if_neg hentries, length_assignSequences, if_neg (not_lt.mpr hcount)]
  cases checkWalBatch o.limits 0 kWalBatchPayloadHeaderSize (assignSequences next ops) <;> simp

section
variable [EntrySize] {o : Options}

/-- What `ValidateWriteBatch` counts is more than what `EncodeWalBatch` counts, by at least four
bytes for an operation. -/
theorem validateOperations_eq_ok {ops : List Operation} {queueBytes total : ℕ}
    (h : validateOperations o queueBytes ops = .ok total) :
    (∀ op ∈ ops, op.Fits o) ∧ queueBytes + operationBytes ops + 4 * ops.length ≤ total := by
  induction ops generalizing queueBytes with
  | nil =>
    obtain rfl := Except.ok.inj h
    simp
  | cons op ops ih =>
    simp only [validateOperations] at h
    split at h
    · cases h
    rename_i hfields
    split at h
    · cases h
    obtain ⟨hops, htotal⟩ := ih h
    have hsize := EntrySize.le_sizeof
    refine ⟨List.forall_mem_cons.mpr ⟨by simpa [Operation.Fits] using hfields, hops⟩, ?_⟩
    rw [operationBytes_cons, List.length_cons]
    simp only [kWalBatchEntryHeaderSize]
    omega

/-- A request that passed `ValidateWriteBatch` and is not empty. -/
structure WriterRequest.Valid (o : Options) (r : WriterRequest) : Prop where
  ne_nil : r.batch ≠ []
  validated : validateWriteBatch o r.batch = .ok r.queueBytes

namespace WriterRequest.Valid

variable {r : WriterRequest} (h : r.Valid o)
include h

theorem operations :
    (∀ op ∈ r.batch, op.Fits o) ∧ operationBytes r.batch + 4 * r.batch.length ≤ r.queueBytes := by
  have hvalid := h.validated
  unfold validateWriteBatch at hvalid
  rw [if_neg h.ne_nil] at hvalid
  split at hvalid
  · cases hvalid
  split at hvalid
  · cases hvalid
  rename_i hops
  split at hvalid
  · cases hvalid
  obtain rfl := Except.ok.inj hvalid
  simpa using validateOperations_eq_ok hops

theorem length_pos : 0 < r.batch.length := List.length_pos_iff.mpr h.ne_nil

theorem length_le : r.batch.length ≤ kMaxWalBatchOperations :=
  (validateWriteBatch_eq_ok o h.validated).1

theorem queueBytes_le : r.queueBytes ≤ kMaxWalBatchBytes :=
  (validateWriteBatch_eq_ok o h.validated).2

theorem queueBytes_pos : 0 < r.queueBytes := by
  have hops := h.operations.2
  have hpos := h.length_pos
  omega

end WriterRequest.Valid

namespace WriterQueue

/-! ## The group that is selected -/

/-- The operations of requests, in order. -/
def operations (rs : List WriterRequest) : List Operation := rs.flatMap WriterRequest.batch

omit [EntrySize] in
@[simp] theorem operations_append (rs rs' : List WriterRequest) :
    operations (rs ++ rs') = operations rs ++ operations rs' := List.flatMap_append

omit [EntrySize] in
@[simp] theorem operations_singleton (r : WriterRequest) : operations [r] = r.batch := by
  simp [operations]

/-- The WAL payload that requests make together. -/
def payloadBytes (rs : List WriterRequest) : ℕ :=
  kWalBatchPayloadHeaderSize + operationBytes (operations rs)

/-- The limits that `DrainWriterQueue` keeps for a group of more than one request. -/
structure WithinGroupLimits (o : Options) (rs : List WriterRequest) : Prop where
  requests : rs.length ≤ o.maxGroupCommitRequests
  bytes : bytesOf rs ≤ o.maxGroupCommitBytes
  operations : (operations rs).length ≤ kMaxWalBatchOperations

/-- Two or more requests at the head of the queue stay within the group limits and still make a
payload above `kMaxWalBatchBytes`. -/
def Overfull (o : Options) (queue : List WriterRequest) : Prop :=
  ∃ rs, rs <+: queue ∧ 2 ≤ rs.length ∧ WithinGroupLimits o rs ∧ kMaxWalBatchBytes < payloadBytes rs

omit [EntrySize] in
theorem WithinGroupLimits.of_isPrefix {rs rs' : List WriterRequest} (h : WithinGroupLimits o rs)
    (hle : rs' <+: rs) : WithinGroupLimits o rs' := by
  obtain ⟨rest, rfl⟩ := hle
  obtain ⟨hrequests, hbytes, hoperations⟩ := h
  rw [List.length_append] at hrequests
  rw [bytesOf_append] at hbytes
  rw [operations_append, List.length_append] at hoperations
  exact ⟨by omega, by omega, by omega⟩

omit [EntrySize] in
/-- A candidate is taken exactly when the group stays within the limits. -/
theorem limitReached_eq_false_iff (ho : o.Accepted) {group : List WriterRequest}
    {candidate : WriterRequest} (hne : group ≠ [])
    (hoperations : (operations group).length ≤ kMaxWalBatchOperations)
    (hpos : 0 < candidate.queueBytes) :
    limitReached o group (bytesOf group) (operations group).length candidate = false ↔
      WithinGroupLimits o (group ++ [candidate]) := by
  have hmax := ho.groupBytes_lt
  have hsub : subSize kMaxWalBatchOperations (operations group).length =
      kMaxWalBatchOperations - (operations group).length :=
    subSize_of_le hoperations (by decide)
  have hempty : group.isEmpty = false := by simpa using hne
  simp only [limitReached, hempty, hsub, Bool.not_false, Bool.true_and, Bool.or_eq_false_iff,
    decide_eq_false_iff_not, not_le, not_lt]
  constructor
  · rintro ⟨⟨⟨hrequests, hlt⟩, hcandidate⟩, hcount⟩
    rw [subSize_of_le hlt.le hmax] at hcandidate
    refine ⟨?_, ?_, ?_⟩
    · rw [List.length_append, List.length_singleton]
      exact hrequests
    · simp only [bytesOf_append, bytesOf_cons, bytesOf_nil]
      omega
    · rw [operations_append, operations_singleton, List.length_append]
      omega
  · rintro ⟨hrequests, hle, hcount⟩
    simp only [bytesOf_append, bytesOf_cons, bytesOf_nil] at hle
    rw [operations_append, operations_singleton, List.length_append] at hcount
    rw [List.length_append, List.length_singleton] at hrequests
    rw [subSize_of_le (by omega) hmax]
    exact ⟨⟨⟨hrequests, by omega⟩, by omega⟩, by omega⟩

omit [EntrySize] in
/-- The selection loop takes requests from the head of the queue while they stay within the
limits. -/
theorem selectGroup_maximal (ho : o.Accepted) {group queue : List WriterRequest} (hne : group ≠ [])
    (hbytes : bytesOf (group ++ queue) < 2 ^ 64)
    (hoperations : (operations group).length ≤ kMaxWalBatchOperations)
    (hpos : ∀ r ∈ queue, 0 < r.queueBytes) (queueBytes : ℕ) (wrapped : Bool) :
    let selected :=
      (selectGroup o group (bytesOf group) (operations group).length queueBytes wrapped queue).group
    (selected = group ∨ WithinGroupLimits o selected) ∧
      ∀ rs, rs <+: group ++ queue → WithinGroupLimits o rs → rs <+: selected := by
  induction queue generalizing group queueBytes wrapped with
  | nil =>
    refine ⟨.inl rfl, fun rs hrs _ => ?_⟩
    rwa [List.append_nil] at hrs
  | cons candidate queue ih =>
    have hiff := limitReached_eq_false_iff ho hne hoperations
      (hpos candidate List.mem_cons_self)
    rw [selectGroup]
    split
    · rename_i hreached
      refine ⟨.inl rfl, fun rs hrs hwithin => ?_⟩
      by_contra hnot
      have hlonger : group.length < rs.length := by
        by_contra hle
        exact hnot (List.prefix_of_prefix_length_le hrs (List.prefix_append _ _) (not_lt.mp hle))
      have hhead : group ++ [candidate] <+: group ++ candidate :: queue := ⟨queue, by simp⟩
      have hnext : group ++ [candidate] <+: rs :=
        List.prefix_of_prefix_length_le hhead hrs (by rw [List.length_append]; exact hlonger)
      rw [hiff.mpr (hwithin.of_isPrefix hnext)] at hreached
      cases hreached
    · rename_i hreached
      have hwithin := hiff.mp (by simpa using hreached)
      have hsum : addSize (bytesOf group) candidate.queueBytes = bytesOf (group ++ [candidate]) := by
        simp only [bytesOf_append, bytesOf_cons, bytesOf_nil] at hbytes ⊢
        exact addSize_of_lt (by omega)
      have hcount : addSize (operations group).length candidate.batch.length =
          (operations (group ++ [candidate])).length := by
        have hle := hwithin.operations
        rw [operations_append, operations_singleton, List.length_append] at hle ⊢
        exact addSize_of_lt (lt_of_le_of_lt hle (by decide))
      have happend : group ++ candidate :: queue = (group ++ [candidate]) ++ queue := by simp
      rw [hsum, hcount, happend]
      rw [happend] at hbytes
      obtain ⟨hselected, hall⟩ := ih (by simp) hbytes hwithin.operations
        (fun r hr => hpos r (List.mem_cons_of_mem _ hr)) (subSize queueBytes candidate.queueBytes)
        (wrapped || limitWraps o group (bytesOf group) (operations group).length candidate ||
          decide (queueBytes < candidate.queueBytes))
      refine ⟨.inr ?_, hall⟩
      rcases hselected with heq | hlimits
      · rw [heq]
        exact hwithin
      · exact hlimits

/-- A valid request makes a payload below its own queue bytes. -/
theorem payloadBytes_le {rs : List WriterRequest} (hne : rs ≠ []) (hvalid : ∀ r ∈ rs, r.Valid o) :
    payloadBytes rs ≤ bytesOf rs := by
  have hsum : operationBytes (operations rs) + 4 * rs.length ≤ bytesOf rs := by
    clear hne
    induction rs with
    | nil => simp [operations]
    | cons r rs ih =>
      have hr := hvalid r List.mem_cons_self
      have hops := hr.operations.2
      have hpos := hr.length_pos
      have hrest := ih fun r hr => hvalid r (List.mem_cons_of_mem _ hr)
      have hcons : operations (r :: rs) = r.batch ++ operations rs := rfl
      rw [hcons, operationBytes_append, bytesOf_cons, List.length_cons]
      omega
  have hlength := List.length_pos_iff.mpr hne
  simp only [payloadBytes, kWalBatchPayloadHeaderSize]
  omega

/-- The group of a queue of valid requests is encoded unless the queue is overfull. -/
theorem encodeWalBatch_selectGroup (ho : o.Accepted) {queue : List WriterRequest} (hne : queue ≠ [])
    (hbytes : bytesOf queue < 2 ^ 64) (hvalid : ∀ r ∈ queue, r.Valid o) (queueBytes : ℕ)
    (wrapped : Bool) {next : ℕ} (hnext : 0 < next) :
    (∃ bytes, encodeWalBatch
      (groupEntries next (selectGroup o [] 0 0 queueBytes wrapped queue).group) o.limits =
        .ok bytes) ↔ ¬ Overfull o queue := by
  obtain ⟨first, rest, rfl⟩ := List.exists_cons_of_ne_nil hne
  set selected := (selectGroup o [] 0 0 queueBytes wrapped (first :: rest)).group with hselected
  have hfirst := hvalid first List.mem_cons_self
  have hselectedne : selected ≠ [] := selectGroup_ne_nil o hne
  have hsub : selected <+: first :: rest :=
    ⟨_, selectGroup_append o [] 0 0 queueBytes wrapped (first :: rest)⟩
  have hselectedvalid : ∀ r ∈ selected, r.Valid o := fun r hr => hvalid r (hsub.subset hr)
  obtain ⟨hlimits, hmaximal⟩ : (selected = [first] ∨ WithinGroupLimits o selected) ∧
      ∀ rs, rs <+: first :: rest → WithinGroupLimits o rs → rs <+: selected := by
    have hzero : limitReached o [] 0 0 first = false := rfl
    have hbatch := lt_of_le_of_lt hfirst.length_le (by decide : kMaxWalBatchOperations < 2 ^ 64)
    rw [hselected, selectGroup, hzero, if_neg Bool.false_ne_true, List.nil_append,
      addSize_of_lt (by rw [bytesOf_cons] at hbytes; omega), addSize_of_lt (by omega),
      Nat.zero_add, Nat.zero_add]
    have := selectGroup_maximal ho (List.cons_ne_nil first []) hbytes
      (by simpa using hfirst.length_le)
      (fun r hr => (hvalid r (List.mem_cons_of_mem _ hr)).queueBytes_pos)
      (subSize queueBytes first.queueBytes)
      (wrapped || limitWraps o [] 0 0 first || decide (queueBytes < first.queueBytes))
    simpa using this
  have hcount : (operations selected).length ≤ kMaxWalBatchOperations := by
    rcases hlimits with heq | hwithin
    · rw [heq, operations_singleton]
      exact hfirst.length_le
    · exact hwithin.operations
  have hfits : ∀ op ∈ operations selected, op.Fits o := by
    intro op hop
    obtain ⟨r, hr, hmem⟩ := List.mem_flatMap.mp hop
    exact (hselectedvalid r hr).operations.1 op hmem
  have hopsne : operations selected ≠ [] := by
    obtain ⟨r, tail, heq⟩ := List.exists_cons_of_ne_nil hselectedne
    have hr := hselectedvalid r (by simp [heq])
    simp [heq, operations, hr.ne_nil]
  have hiff := encodeWalBatch_assignSequences ho hopsne hfits hcount hnext
  refine hiff.trans ⟨?_, ?_⟩
  · rintro hle ⟨rs, hrs, -, hwithin, hlarge⟩
    obtain ⟨tail, heq⟩ := hmaximal rs hrs hwithin
    rw [← heq, operations_append, operationBytes_append] at hle
    simp only [payloadBytes] at hlarge
    omega
  · intro hnot
    by_contra hlarge
    have hpayload := payloadBytes_le hselectedne hselectedvalid
    rcases hlimits with heq | hwithin
    · rw [heq, bytesOf_cons, bytesOf_nil] at hpayload
      have hle := hfirst.queueBytes_le
      rw [heq] at hlarge
      exact hlarge (hpayload.trans (by omega))
    · refine hnot ⟨selected, hsub, ?_, hwithin, not_le.mp hlarge⟩
      by_contra hlength
      have hone : selected.length = 1 := by
        have := List.length_pos_iff.mpr hselectedne
        omega
      obtain ⟨r, heq⟩ := List.length_eq_one_iff.mp hone
      have hle := (hselectedvalid r (by simp [heq])).queueBytes_le
      rw [heq, bytesOf_cons, bytesOf_nil] at hpayload
      rw [heq] at hlarge
      exact hlarge (hpayload.trans (by omega))

/-! ## Every queued request is valid -/

/-- The requests under way passed `ValidateWriteBatch`. -/
structure Validated {σ : Type} (o : Options) (s : State σ) : Prop where
  submitting : ∀ t batch queueBytes, s.callers t = .submitting batch queueBytes →
    batch ≠ [] ∧ validateWriteBatch o batch = .ok queueBytes
  queued : ∀ r ∈ s.queue, r.Valid o

namespace Validated

variable {σ : Type} {s s' : State σ}

/-- One thread moves on to a point that does not submit. -/
theorem update (h : Validated o s) {t : ℕ} {c : Caller}
    (heq : s'.callers = Function.update s.callers t c)
    (hc : ∀ batch queueBytes, c ≠ .submitting batch queueBytes) (hqueue : s'.queue ⊆ s.queue) :
    Validated o s' where
  submitting u batch queueBytes hu := by
    rw [heq] at hu
    by_cases hut : u = t
    · rw [hut, Function.update_self] at hu
      exact (hc _ _ hu).elim
    · rw [Function.update_of_ne hut] at hu
      exact h.submitting u _ _ hu
  queued r hr := h.queued r (hqueue hr)

variable {apply : σ → List WriterRequest → σ → Outcome → Prop} {env : σ → σ → Prop}

theorem step (h : Validated o s) (hstep : Step o apply env s s') : Validated o s' := by
  cases hstep with
  | submit _ hne hbatch hbytes =>
    refine ⟨fun u batch' queueBytes' hu => ?_, h.queued⟩
    simp only [State.setCaller, Function.update_apply] at hu
    split at hu
    · obtain ⟨rfl, rfl⟩ := Caller.submitting.inj hu
      exact ⟨hne, hbatch⟩
    · exact h.submitting u _ _ hu
  | wait => exact ⟨h.submitting, h.queued⟩
  | enqueue ht _ _ =>
    refine ⟨fun u batch' queueBytes' hu => ?_, fun r hr => ?_⟩
    · simp only [State.enqueue, Function.update_apply] at hu
      split at hu
      · split at hu <;> simp at hu
      · exact h.submitting u _ _ hu
    · rcases List.mem_append.mp hr with hr | hr
      · exact h.queued r hr
      · obtain rfl := List.mem_singleton.mp hr
        obtain ⟨hne, hbatch⟩ := h.submitting _ _ _ ht
        exact ⟨hne, hbatch⟩
  | select _ _ =>
    refine h.update rfl (by simp) fun r' hr' => ?_
    have hsplit := selectGroup_append o [] 0 0 s.queueBytes s.wrapped s.queue
    rw [List.nil_append] at hsplit
    rw [← hsplit]
    exact List.mem_append_right _ hr'
  | @applied t r group store outcome _ _ =>
    cases outcome <;> exact h.update rfl (by simp) fun _ hr => hr
  | abort => exact h.update rfl (by simp) (List.nil_subset _)
  | stop _ =>
    refine h.update rfl (fun _ _ => ?_) fun _ hr => hr
    split <;> simp
  | resume _ =>
    unfold State.resume
    split <;> exact h.update rfl (by simp) fun _ hr => hr
  | close | env => exact ⟨h.submitting, h.queued⟩
  | invalid | empty | oversized | reject | follow | stepDown | finish | stopReturn | next =>
    exact h.update rfl (by simp) fun _ hr => hr

variable {initial : σ → Prop}

theorem of_reachable (hs : (system o apply env initial).Reachable s) : Validated o s := by
  refine hs.invariant ?_ fun _ _ hstep h => h.step hstep
  rintro _ ⟨store, -, rfl⟩
  constructor
  · rintro t batch queueBytes ht
    cases ht
  · rintro r hr
    cases hr

end Validated

/-- Group or queue bytes within the limit of a WAL record leave no room for an overfull queue. -/
theorem not_overfull {queue : List WriterRequest} (hvalid : ∀ r ∈ queue, r.Valid o)
    (h : o.maxGroupCommitBytes ≤ kMaxWalBatchBytes ∨ bytesOf queue ≤ kMaxWalBatchBytes) :
    ¬ Overfull o queue := by
  rintro ⟨rs, hrs, hlength, hwithin, hlarge⟩
  have hne : rs ≠ [] := List.ne_nil_of_length_pos (by omega)
  have hpayload := payloadBytes_le hne fun r hr => hvalid r (hrs.subset hr)
  have hbytes : bytesOf rs ≤ kMaxWalBatchBytes := by
    rcases h with h | h
    · exact hwithin.bytes.trans h
    · obtain ⟨tail, rfl⟩ := hrs
      rw [bytesOf_append] at h
      omega
  omega

section
variable {σ : Type} {apply : σ → List WriterRequest → σ → Outcome → Prop} {env : σ → σ → Prop}
  {initial : σ → Prop} {s : State σ}

/-- Which groups `EncodeWalBatch` accepts. Whenever a leader selects a group, in any run under
accepted options, the group is encoded exactly when the queue is not overfull: no two or more
requests at its head stay within the group limits and together exceed the limit of a WAL record.
That cannot happen as long as the group bytes or the queue bytes are bounded by that limit. No
subtraction of the limits wraps around, in any case. -/
theorem group_is_encoded_iff (ho : o.Accepted)
    (hs : (system o apply env initial).Reachable s) :
    s.wrapped = false ∧
    ∀ t r, s.callers t = .draining r → s.queue ≠ [] →
      (s.select o t r).wrapped = false ∧
      (∀ next, 0 < next →
        ((∃ bytes, encodeWalBatch (groupEntries next (s.select o t r).current) o.limits =
          .ok bytes) ↔ ¬ Overfull o s.queue)) ∧
      (o.maxGroupCommitBytes ≤ kMaxWalBatchBytes ∨ o.maxPendingWriteBytes ≤ kMaxWalBatchBytes →
        ¬ Overfull o s.queue) := by
  have hinv := Inv.of_reachable ho hs
  have hvalid := (Validated.of_reachable hs).queued
  have hbytes : bytesOf s.queue ≤ o.maxPendingWriteBytes := hinv.bytes_eq ▸ hinv.bytes_le
  refine ⟨hinv.not_wrapped, fun t r ht hne => ⟨?_, fun next hnext => ?_, fun hlimit => ?_⟩⟩
  · exact (Inv.of_reachable ho (hs.step (.select ht hne))).not_wrapped
  · exact encodeWalBatch_selectGroup ho hne (hbytes.trans_lt ho.pendingBytes_lt) hvalid _ _ hnext
  · exact not_overfull hvalid (hlimit.imp id hbytes.trans)

end

end WriterQueue

end

namespace WriterQueue

/-- Two puts in one group. -/
theorem group_is_encoded_iff_twoPuts :
    (queued ()).callers 0 = .draining firstRequest ∧
    ((queued ()).select {} 0 firstRequest).current = bothPuts ∧
    ∃ bytes, encodeWalBatch (groupEntries 1 ((queued ()).select {} 0 firstRequest).current)
      ({} : Options).limits = .ok bytes := by
  let _ := entrySize80
  have hs : anyOutcome.Reachable (queued ()) :=
    TransitionSystem.Reachable.run (.of_init ⟨(), trivial, rfl⟩) (run_queued ())
  obtain ⟨-, hencoded, hlimit⟩ := (group_is_encoded_iff accepted_default hs).2 0 firstRequest rfl
    (by decide)
  exact ⟨rfl, rfl, (hencoded 1 one_pos).mpr (hlimit (.inl (by decide)))⟩

/-! ## Two large values -/

/-- Group commit with a quarter of a gigabyte for the queue and for a group. -/
def largeGroups : Options :=
  { maxPendingWriteBytes := 256 * 1024 * 1024, maxGroupCommitBytes := 256 * 1024 * 1024 }

theorem accepted_largeGroups : largeGroups.Accepted := by
  constructor <;> decide

/-- The queue under these options, with an `ApplyWriteGroup` that may end in any way. -/
def largeSystem : TransitionSystem (State Unit) :=
  letI := entrySize80
  system largeGroups (fun _ _ _ _ => True) (fun _ _ => True) fun _ => True

/-- The request of a put whose value has the largest size that the options allow. -/
def largeRequest (value : Bytes) (id : ℕ) : WriterRequest :=
  ⟨id, [.put [1] value], 80 + 1 + 64 * 1024 * 1024⟩

/-- Two threads queue such a put, before the first one, which leads, selects a group. -/
def twoQueued (value : Bytes) : State Unit :=
  let r := largeRequest value 0
  let one := (({ store := () } : State Unit).setCaller 0 (.submitting r.batch r.queueBytes)).enqueue
    largeGroups 0 r.batch r.queueBytes
  (one.setCaller 1 (.submitting r.batch r.queueBytes)).enqueue largeGroups 1 r.batch r.queueBytes

section
variable {value : Bytes} (h : value.length = 64 * 1024 * 1024)
include h

theorem validate_largeRequest (id : ℕ) :
    @validateWriteBatch entrySize80 largeGroups (largeRequest value id).batch =
      .ok (largeRequest value id).queueBytes := by
  have hoperations : @validateOperations entrySize80 largeGroups 0 (largeRequest value id).batch =
      .ok (80 + 1 + 64 * 1024 * 1024) := by
    simp only [largeRequest, validateOperations, Operation.key, Operation.value, h]
    rfl
  simp only [validateWriteBatch, hoperations]
  rfl

theorem reachable_twoQueued : largeSystem.Reachable (twoQueued value) := by
  let _ := entrySize80
  have hbytes : (largeRequest value 0).queueBytes ≤ largeGroups.maxPendingWriteBytes := by
    simp [largeRequest, largeGroups]
  have hidle : largeSystem.Reachable { store := () } := .of_init ⟨(), trivial, rfl⟩
  have hsubmit : largeSystem.Reachable (State.setCaller _ 0 _) :=
    hidle.step (.submit rfl (by simp [largeRequest]) (validate_largeRequest h 0) hbytes)
  have hleads : largeSystem.Reachable (State.enqueue largeGroups _ 0 _ _) :=
    hsubmit.step (.enqueue rfl rfl
      (by simp [State.mustWait, State.setCaller, subSize, largeRequest, largeGroups]))
  have hsecond : largeSystem.Reachable (State.setCaller _ 1 _) :=
    hleads.step (.submit rfl (by simp [largeRequest]) (validate_largeRequest h 0) hbytes)
  exact hsecond.step (.enqueue rfl rfl
    (by simp [State.mustWait, State.setCaller, State.enqueue, subSize, addSize, largeRequest,
      largeGroups]))

omit h in
theorem select_twoQueued : ((twoQueued value).select largeGroups 0 (largeRequest value 0)).current =
    [largeRequest value 0, largeRequest value 1] := by
  have hbytes : addSize 0 (largeRequest value 0).queueBytes = bytesOf [largeRequest value 0] := by
    rw [addSize_of_lt (by simp [largeRequest]), bytesOf_cons, bytesOf_nil, Nat.zero_add,
      Nat.add_zero]
  have hcount : addSize 0 (largeRequest value 0).batch.length =
      (operations [largeRequest value 0]).length := by
    simp [addSize, largeRequest, operations]
  have hsecond : limitReached largeGroups [largeRequest value 0] (bytesOf [largeRequest value 0])
      (operations [largeRequest value 0]).length (largeRequest value 1) = false := by
    refine (limitReached_eq_false_iff accepted_largeGroups (by simp) ?_ ?_).mpr ⟨?_, ?_, ?_⟩ <;>
      simp [largeRequest, largeGroups, operations, kMaxWalBatchOperations]
  have hqueue : (twoQueued value).queue = [largeRequest value 0, largeRequest value 1] := by
    simp only [twoQueued, State.enqueue, State.setCaller, State.newRequest, List.nil_append,
      List.singleton_append, largeRequest, List.length_nil, List.length_singleton]
  rw [State.select, hqueue, selectGroup]
  simp only [show limitReached largeGroups [] 0 0 (largeRequest value 0) = false from rfl, hbytes,
    hcount, List.nil_append, Bool.false_eq_true, if_false, selectGroup, hsecond,
    List.singleton_append]

end

/-- Two requests that are encoded alone are refused together. -/
theorem group_exceeds_wal_record :
    largeGroups.Accepted ∧ ∃ value : Bytes, value.length = 64 * 1024 * 1024 ∧
      largeSystem.Reachable (twoQueued value) ∧
      (twoQueued value).callers 0 = .draining (largeRequest value 0) ∧
      (twoQueued value).queue ≠ [] ∧
      ((twoQueued value).select largeGroups 0 (largeRequest value 0)).current =
        [largeRequest value 0, largeRequest value 1] ∧
      (∀ id, ∃ bytes,
        encodeWalBatch (groupEntries 1 [largeRequest value id]) largeGroups.limits = .ok bytes) ∧
      ¬ ∃ bytes, encodeWalBatch
        (groupEntries 1 ((twoQueued value).select largeGroups 0 (largeRequest value 0)).current)
          largeGroups.limits = .ok bytes := by
  obtain ⟨value, hvalue⟩ : ∃ value : Bytes, value.length = 64 * 1024 * 1024 :=
    ⟨List.replicate _ 0, List.length_replicate⟩
  have hfits : (Operation.put [1] value).Fits largeGroups := by
    simp [Operation.Fits, Operation.key, Operation.value, hvalue, largeGroups]
  refine ⟨accepted_largeGroups, value, hvalue, reachable_twoQueued hvalue, rfl,
    by simp [twoQueued, State.enqueue], select_twoQueued, fun id => ?_, ?_⟩
  · refine (encodeWalBatch_assignSequences accepted_largeGroups (by simp [largeRequest])
      (by simpa [largeRequest] using hfits) (by simp [largeRequest, kMaxWalBatchOperations])
      one_pos).mpr ?_
    simp [largeRequest, Operation.key, Operation.value, hvalue, kWalBatchPayloadHeaderSize,
      kWalBatchEntryHeaderSize, kMaxWalBatchBytes]
  · rw [select_twoQueued, groupEntries, encodeWalBatch_assignSequences accepted_largeGroups
      (by simp [largeRequest]) (by simpa [largeRequest] using hfits)
      (by simp [largeRequest, kMaxWalBatchOperations]) one_pos]
    simp [largeRequest, Operation.key, Operation.value, hvalue, kWalBatchPayloadHeaderSize,
      kWalBatchEntryHeaderSize, kMaxWalBatchBytes]

end WriterQueue

end TinyLsm
