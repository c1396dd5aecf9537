import TinyLsm.Db.WriteBatch
import TinyLsm.Library.TransitionSystem

/-!
# The writer queue

`SubmitWrite`, `DrainWriterQueue`, `StopWriterQueue` and `ResumeWriterQueue` of `db_impl.cpp` as
steps over the variables that `writer_mutex_` guards. A step is one region under the lock, or one
piece of code between two such regions; `ApplyWriteGroup` is a parameter, since the lock is dropped
around it. The state also keeps what happened: which requests were admitted, how each group ended
and every completion.
-/

namespace TinyLsm

/-- `std::size_t` addition. -/
def addSize (a b : ℕ) : ℕ := (a + b) % 2 ^ 64

/-- `std::size_t` subtraction. -/
def subSize (a b : ℕ) : ℕ := (a + 2 ^ 64 - b) % 2 ^ 64

theorem addSize_of_lt {a b : ℕ} (h : a + b < 2 ^ 64) : addSize a b = a + b :=
  Nat.mod_eq_of_lt h

theorem subSize_of_le {a b : ℕ} (h : b ≤ a) (ha : a < 2 ^ 64) : subSize a b = a - b := by
  unfold subSize
  omega

/-- `DB::Impl::WriterRequest`. The `id` is the identity of the shared object. -/
structure WriterRequest where
  id : ℕ
  batch : WriteBatch
  queueBytes : ℕ
deriving DecidableEq, Repr

/-- How `ApplyWriteGroup` ended. -/
inductive Outcome where
  | returned (status : Status)
  | threw
deriving DecidableEq, Repr

namespace WriterQueue

/-- The status that the exception path of `DrainWriterQueue` gives. -/
def abortStatus : Status := .ioError "group commit aborted by exception"

/-! ## Choosing a group -/

section
variable (o : Options)

/-- What the selection loop of `DrainWriterQueue` leaves. -/
structure Selection where
  group : List WriterRequest
  queue : List WriterRequest
  queueBytes : ℕ
  wrapped : Bool
deriving DecidableEq, Repr

/-- `limit_reached`. -/
def limitReached (group : List WriterRequest) (groupBytes groupOperations : ℕ)
    (candidate : WriterRequest) : Bool :=
  !group.isEmpty &&
    (decide (o.maxGroupCommitRequests ≤ group.length) ||
      decide (o.maxGroupCommitBytes ≤ groupBytes) ||
      decide (subSize o.maxGroupCommitBytes groupBytes < candidate.queueBytes) ||
      decide (subSize kMaxWalBatchOperations groupOperations < candidate.batch.length))

/-- Whether a subtraction that `limit_reached` evaluates wraps around. -/
def limitWraps (group : List WriterRequest) (groupBytes groupOperations : ℕ)
    (candidate : WriterRequest) : Bool :=
  !group.isEmpty && decide (group.length < o.maxGroupCommitRequests) &&
    decide (groupBytes < o.maxGroupCommitBytes) &&
    (decide (o.maxGroupCommitBytes < groupBytes) ||
      (decide (candidate.queueBytes ≤ subSize o.maxGroupCommitBytes groupBytes) &&
        decide (kMaxWalBatchOperations < groupOperations)))

/-- The selection loop of `DrainWriterQueue`. -/
def selectGroup (group : List WriterRequest) (groupBytes groupOperations queueBytes : ℕ)
    (wrapped : Bool) : List WriterRequest → Selection
  | [] => ⟨group, [], queueBytes, wrapped⟩
  | candidate :: queue =>
    let wrapped := wrapped || limitWraps o group groupBytes groupOperations candidate
    if limitReached o group groupBytes groupOperations candidate then
      ⟨group, candidate :: queue, queueBytes, wrapped⟩
    else
      selectGroup (group ++ [candidate]) (addSize groupBytes candidate.queueBytes)
        (addSize groupOperations candidate.batch.length)
        (subSize queueBytes candidate.queueBytes)
        (wrapped || decide (queueBytes < candidate.queueBytes)) queue

/-- The bytes that queued requests account for. -/
def bytesOf (queue : List WriterRequest) : ℕ := (queue.map WriterRequest.queueBytes).sum

@[simp] theorem bytesOf_nil : bytesOf [] = 0 := rfl

@[simp] theorem bytesOf_cons (r : WriterRequest) (queue : List WriterRequest) :
    bytesOf (r :: queue) = r.queueBytes + bytesOf queue := rfl

@[simp] theorem bytesOf_append (q q' : List WriterRequest) :
    bytesOf (q ++ q') = bytesOf q + bytesOf q' := by
  simp [bytesOf]

theorem selectGroup_append (group : List WriterRequest) (groupBytes groupOperations queueBytes : ℕ)
    (wrapped : Bool) (queue : List WriterRequest) :
    (selectGroup o group groupBytes groupOperations queueBytes wrapped queue).group ++
      (selectGroup o group groupBytes groupOperations queueBytes wrapped queue).queue =
      group ++ queue := by
  induction queue generalizing group groupBytes groupOperations queueBytes wrapped with
  | nil => rfl
  | cons candidate queue ih =>
    rw [selectGroup]
    split
    · rfl
    · rw [ih, List.append_assoc, List.singleton_append]

theorem selectGroup_queueBytes (group : List WriterRequest) {groupBytes groupOperations : ℕ}
    {wrapped : Bool} (queue : List WriterRequest) (h : bytesOf queue < 2 ^ 64) :
    (selectGroup o group groupBytes groupOperations (bytesOf queue) wrapped queue).queueBytes =
      bytesOf
        (selectGroup o group groupBytes groupOperations (bytesOf queue) wrapped queue).queue := by
  induction queue generalizing group groupBytes groupOperations wrapped with
  | nil => rfl
  | cons candidate queue ih =>
    rw [selectGroup]
    split
    · rfl
    · have hsub : subSize (bytesOf (candidate :: queue)) candidate.queueBytes = bytesOf queue := by
        rw [subSize_of_le (by simp) h, bytesOf_cons, Nat.add_sub_cancel_left]
      rw [hsub]
      exact ih _ (by rw [bytesOf_cons] at h; omega)

/-- A candidate that passes the limits keeps the group below the WAL's operation limit. -/
theorem operations_le_of_not_limitReached {group : List WriterRequest}
    {groupBytes groupOperations : ℕ} {candidate : WriterRequest}
    (h : ¬ limitReached o group groupBytes groupOperations candidate)
    (hempty : group = [] → groupOperations = 0)
    (hops : groupOperations ≤ kMaxWalBatchOperations)
    (hcandidate : candidate.batch.length ≤ kMaxWalBatchOperations) :
    groupOperations + candidate.batch.length ≤ kMaxWalBatchOperations := by
  by_cases hg : group = []
  · rw [hempty hg]
    omega
  · have hle : candidate.batch.length ≤ subSize kMaxWalBatchOperations groupOperations := by
      simp only [limitReached, Bool.and_eq_true, Bool.or_eq_true, decide_eq_true_eq,
        Bool.not_eq_true', List.isEmpty_eq_false_iff, not_and, not_or, not_lt] at h
      exact (h hg).2
    rw [subSize_of_le hops (by decide)] at hle
    omega

theorem selectGroup_wrapped (group : List WriterRequest) {groupBytes groupOperations : ℕ}
    {wrapped : Bool} (queue : List WriterRequest) (hbytes : bytesOf queue < 2 ^ 64)
    (hempty : group = [] → groupOperations = 0)
    (hops : groupOperations ≤ kMaxWalBatchOperations)
    (hqueue : ∀ r ∈ queue, r.batch.length ≤ kMaxWalBatchOperations) :
    (selectGroup o group groupBytes groupOperations (bytesOf queue) wrapped queue).wrapped =
      wrapped := by
  induction queue generalizing group groupBytes groupOperations wrapped with
  | nil => rfl
  | cons candidate queue ih =>
    have hlimit : limitWraps o group groupBytes groupOperations candidate = false := by
      simp only [limitWraps, Bool.and_eq_false_iff, Bool.or_eq_false_iff, decide_eq_false_iff_not]
      omega
    have hcandidate := hqueue candidate List.mem_cons_self
    rw [selectGroup]
    split
    · simp [hlimit]
    · rename_i hreached
      have hle := operations_le_of_not_limitReached o hreached hempty hops hcandidate
      have hsub : subSize (bytesOf (candidate :: queue)) candidate.queueBytes = bytesOf queue := by
        rw [subSize_of_le (by simp) hbytes, bytesOf_cons, Nat.add_sub_cancel_left]
      have hadd : addSize groupOperations candidate.batch.length ≤ kMaxWalBatchOperations := by
        rwa [addSize_of_lt (lt_of_le_of_lt hle (by decide))]
      rw [hsub, ih _ (by rw [bytesOf_cons] at hbytes; omega) (by simp) hadd
        (fun r hr => hqueue r (List.mem_cons_of_mem _ hr))]
      simp [hlimit]

theorem length_le_selectGroup (group : List WriterRequest)
    (groupBytes groupOperations queueBytes : ℕ) (wrapped : Bool) (queue : List WriterRequest) :
    group.length ≤
      (selectGroup o group groupBytes groupOperations queueBytes wrapped queue).group.length := by
  induction queue generalizing group groupBytes groupOperations queueBytes wrapped with
  | nil => exact le_rfl
  | cons candidate queue ih =>
    rw [selectGroup]
    split
    · exact le_rfl
    · refine le_trans ?_ (ih _ _ _ _ _)
      simp

/-- The first candidate is taken whatever the limits are. -/
theorem selectGroup_ne_nil {queueBytes : ℕ} {wrapped : Bool} {queue : List WriterRequest}
    (h : queue ≠ []) : (selectGroup o [] 0 0 queueBytes wrapped queue).group ≠ [] := by
  cases queue with
  | nil => exact (h rfl).elim
  | cons candidate queue =>
    have hlimit : limitReached o [] 0 0 candidate = false := rfl
    rw [selectGroup, hlimit, if_neg (by decide)]
    apply List.ne_nil_of_length_pos
    exact lt_of_lt_of_le (by simp) (length_le_selectGroup o _ _ _ _ _ _)

end

/-! ## Callers and state -/

/-- Where a thread stands. -/
inductive Caller where
  /-- Between two calls. -/
  | idle
  /-- In `SubmitWrite`, about to test the queue limits. -/
  | submitting (batch : WriteBatch) (queueBytes : ℕ)
  /-- In `SubmitWrite`, waiting for its request to complete. -/
  | following (request : WriterRequest)
  /-- Leader, at the head of the loop of `DrainWriterQueue`. -/
  | draining (request : WriterRequest)
  /-- Leader, inside `ApplyWriteGroup`. -/
  | applying (request : WriterRequest) (group : List WriterRequest)
  /-- Leader, `ApplyWriteGroup` returned. -/
  | finishing (request : WriterRequest) (group : List WriterRequest) (status : Status)
  /-- Leader, `ApplyWriteGroup` threw. -/
  | aborting (request : WriterRequest) (group : List WriterRequest)
  /-- In `StopWriterQueue`, waiting for the leader; `resumes` counts at the call. -/
  | stopWaiting (resumes : ℕ)
  /-- `StopWriterQueue` returned. -/
  | stopped (resumes : ℕ)
  | returned (status : Status)
  /-- The exception of `ApplyWriteGroup` left `SubmitWrite`. -/
  | threw
deriving DecidableEq, Repr

namespace Caller

/-- The thread that runs `DrainWriterQueue`. -/
def isLeader : Caller → Bool
  | draining _ | applying _ _ | finishing _ _ _ | aborting _ _ => true
  | _ => false

/-- The group in the hands of a leader. -/
def group : Caller → List WriterRequest
  | applying _ group | finishing _ group _ | aborting _ group => group
  | _ => []

/-- How `ApplyWriteGroup` ended for a leader that did not complete its group yet. -/
def outcome? : Caller → Option Outcome
  | finishing _ _ status => some (.returned status)
  | aborting _ _ => some .threw
  | _ => none

/-- The caller's own admitted request. -/
def request? : Caller → Option WriterRequest
  | following r | draining r | applying r _ | finishing r _ _ | aborting r _ => some r
  | _ => none

/-- The resumes counted when a `StopWriterQueue` call set the flag. -/
def stopCount? : Caller → Option ℕ
  | stopWaiting n | stopped n => some n
  | _ => none

end Caller

/-- How requests left the queue for good: as a group of `ApplyWriteGroup`, or abandoned in the
queue by the exception path. -/
inductive Disposal where
  | group (requests : List WriterRequest) (outcome : Outcome)
  | abandoned (requests : List WriterRequest)
deriving DecidableEq, Repr

namespace Disposal

def requests : Disposal → List WriterRequest
  | group requests _ | abandoned requests => requests

/-- The status every request of the disposal receives. -/
def status : Disposal → Status
  | group _ (.returned status) => status
  | _ => abortStatus

def group? : Disposal → Option (List WriterRequest × Outcome)
  | group requests outcome => some (requests, outcome)
  | abandoned _ => none

/-- The completions of a disposal. -/
def completions (d : Disposal) : List (WriterRequest × Status) :=
  d.requests.map fun r => (r, d.status)

end Disposal

/-- The variables under `writer_mutex_`, the threads, the store that `ApplyWriteGroup` changes, and
the history. -/
structure State (σ : Type) where
  store : σ
  /-- `writer_queue_`. -/
  queue : List WriterRequest := []
  /-- `writer_queue_bytes_`. -/
  queueBytes : ℕ := 0
  /-- `writer_leader_`. -/
  leader : Bool := false
  /-- `writer_stopping_`. -/
  stopping : Bool := false
  /-- `closed_`, which `ResumeWriterQueue` reads. -/
  closed : Bool := false
  callers : ℕ → Caller := fun _ => .idle
  /-- History: the admitted requests in order. -/
  admitted : List WriterRequest := []
  /-- History: the group the leader holds. -/
  current : List WriterRequest := []
  /-- History: how `ApplyWriteGroup` ended for that group. -/
  outcome : Option Outcome := none
  /-- History: how requests left, in order. -/
  disposed : List Disposal := []
  /-- History: every completion of a request, in order. -/
  completions : List (WriterRequest × Status) := []
  /-- History: an unsigned subtraction wrapped around. -/
  wrapped : Bool := false
  /-- History: how often `ResumeWriterQueue` cleared the flag. -/
  resumes : ℕ := 0

namespace State

variable {σ : Type}

/-- Every group formed so far. -/
def groups (s : State σ) : List (List WriterRequest) :=
  (s.disposed.filterMap Disposal.group?).map Prod.fst ++
    if s.current = [] then [] else [s.current]

/-- The groups that `ApplyWriteGroup` was done with, and how it ended, in order. -/
def appliedGroups (s : State σ) : List (List WriterRequest × Outcome) :=
  s.disposed.filterMap Disposal.group? ++ (s.outcome.map fun outcome => (s.current, outcome)).toList

/-- The requests that the exception path completed in the queue. -/
def abandoned (s : State σ) : List WriterRequest :=
  s.disposed.flatMap fun d => match d with
    | .group _ _ => []
    | .abandoned requests => requests

/-- `request->status`: the status of a completion, the default `Status` before it. -/
def statusOf (s : State σ) (r : WriterRequest) : Status :=
  (s.completions.lookup r).getD .okay

def setCaller (s : State σ) (t : ℕ) (c : Caller) : State σ :=
  { s with callers := Function.update s.callers t c }

section
variable (o : Options) (s : State σ)

/-- The limit test of the waiting loop in `SubmitWrite`. -/
def mustWait (queueBytes : ℕ) : Bool :=
  decide (o.maxPendingWriteRequests ≤ s.queue.length) ||
    decide (subSize o.maxPendingWriteBytes s.queueBytes < queueBytes)

/-- The limit test was evaluated: whether its subtraction wrapped. -/
def tested : State σ :=
  { s with
    wrapped := s.wrapped || (decide (s.queue.length < o.maxPendingWriteRequests) &&
      decide (o.maxPendingWriteBytes < s.queueBytes)) }

/-- The request that the next admission creates. -/
def newRequest (batch : WriteBatch) (queueBytes : ℕ) : WriterRequest :=
  ⟨s.admitted.length, batch, queueBytes⟩

/-- `SubmitWrite` admits a request; the caller leads when nobody does. -/
def enqueue (t : ℕ) (batch : WriteBatch) (queueBytes : ℕ) : State σ :=
  let r := s.newRequest batch queueBytes
  { s.tested o with
    queue := s.queue ++ [r]
    queueBytes := addSize s.queueBytes queueBytes
    leader := true
    callers := Function.update s.callers t (if s.leader then .following r else .draining r)
    admitted := s.admitted ++ [r] }

/-- `DrainWriterQueue` finds the queue empty: the leader steps down and `SubmitWrite` returns. -/
def stepDown (t : ℕ) (r : WriterRequest) : State σ :=
  { s with
    leader := false
    callers := Function.update s.callers t (.returned (s.statusOf r)) }

/-- `DrainWriterQueue` takes a group off the queue. -/
def select (t : ℕ) (r : WriterRequest) : State σ :=
  let selection := selectGroup o [] 0 0 s.queueBytes s.wrapped s.queue
  { s with
    queue := selection.queue
    queueBytes := selection.queueBytes
    callers := Function.update s.callers t (.applying r selection.group)
    current := selection.group
    wrapped := selection.wrapped }

/-- `ApplyWriteGroup` ended. -/
def applied (t : ℕ) (r : WriterRequest) (group : List WriterRequest) (store : σ) :
    Outcome → State σ
  | .returned status =>
    { s with
      store
      callers := Function.update s.callers t (.finishing r group status)
      outcome := some (.returned status) }
  | .threw =>
    { s with
      store
      callers := Function.update s.callers t (.aborting r group)
      outcome := some .threw }

/-- The leader completes its group. -/
def finish (t : ℕ) (r : WriterRequest) (group : List WriterRequest) (status : Status) : State σ :=
  { s with
    callers := Function.update s.callers t (.draining r)
    current := []
    outcome := none
    disposed := s.disposed ++ [.group group (.returned status)]
    completions := s.completions ++ group.map fun r => (r, status) }

/-- The exception path: the group and the whole queue are completed with one failure. -/
def abort (t : ℕ) (group : List WriterRequest) : State σ :=
  { s with
    queue := []
    queueBytes := 0
    leader := false
    callers := Function.update s.callers t .threw
    current := []
    outcome := none
    disposed := s.disposed ++ [.group group .threw, .abandoned s.queue]
    completions := s.completions ++ (group.map fun r => (r, abortStatus)) ++
      s.queue.map fun r => (r, abortStatus) }

/-- `StopWriterQueue` sets the flag, and returns at once when nobody leads. -/
def stop (t : ℕ) : State σ :=
  { s with
    stopping := true
    callers := Function.update s.callers t
      (if s.leader then .stopWaiting s.resumes else .stopped s.resumes) }

/-- `ResumeWriterQueue`. -/
def resume (t : ℕ) : State σ :=
  if s.closed then s.setCaller t .idle
  else { s with
    stopping := false
    callers := Function.update s.callers t .idle
    resumes := s.resumes + 1 }

end

end State

/-! ## Steps -/

section
variable {σ : Type} [EntrySize] (o : Options)
  (apply : σ → List WriterRequest → σ → Outcome → Prop) (env : σ → σ → Prop)

/-- One step of one thread, or of the rest of the database on the store. -/
inductive Step : State σ → State σ → Prop
  /-- `SubmitWrite` rejects an invalid batch. -/
  | invalid {s t batch status} (ht : s.callers t = .idle)
      (hbatch : validateWriteBatch o batch = .error status) : Step s (s.setCaller t (.returned status))
  /-- `SubmitWrite` of an empty batch returns what `CheckOpen` gives. -/
  | empty {s t} (status : Status) (ht : s.callers t = .idle) :
      Step s (s.setCaller t (.returned status))
  /-- `SubmitWrite` rejects a batch that could never be queued. -/
  | oversized {s t batch queueBytes} (ht : s.callers t = .idle) (hne : batch ≠ [])
      (hbatch : validateWriteBatch o batch = .ok queueBytes)
      (hbytes : o.maxPendingWriteBytes < queueBytes) :
      Step s (s.setCaller t
        (.returned (.resourceExhausted "batch exceeds bounded writer queue bytes")))
  | submit {s t batch queueBytes} (ht : s.callers t = .idle) (hne : batch ≠ [])
      (hbatch : validateWriteBatch o batch = .ok queueBytes)
      (hbytes : queueBytes ≤ o.maxPendingWriteBytes) :
      Step s (s.setCaller t (.submitting batch queueBytes))
  /-- The waiting loop of `SubmitWrite` goes round. -/
  | wait {s t batch queueBytes} (ht : s.callers t = .submitting batch queueBytes)
      (hstop : s.stopping = false) (hwait : s.mustWait o queueBytes) : Step s (s.tested o)
  | reject {s t batch queueBytes} (ht : s.callers t = .submitting batch queueBytes)
      (hstop : s.stopping = true) :
      Step s (s.setCaller t (.returned (.alreadyClosed "database is closing")))
  | enqueue {s t batch queueBytes} (ht : s.callers t = .submitting batch queueBytes)
      (hstop : s.stopping = false) (hwait : s.mustWait o queueBytes = false) :
      Step s (s.enqueue o t batch queueBytes)
  /-- A follower whose request is complete returns its status. -/
  | follow {s t r status} (ht : s.callers t = .following r) (hr : (r, status) ∈ s.completions) :
      Step s (s.setCaller t (.returned (s.statusOf r)))
  | stepDown {s t r} (ht : s.callers t = .draining r) (hqueue : s.queue = []) :
      Step s (s.stepDown t r)
  | select {s t r} (ht : s.callers t = .draining r) (hqueue : s.queue ≠ []) :
      Step s (s.select o t r)
  | applied {s t r group store outcome} (ht : s.callers t = .applying r group)
      (happly : apply s.store group store outcome) : Step s (s.applied t r group store outcome)
  | finish {s t r group status} (ht : s.callers t = .finishing r group status) :
      Step s (s.finish t r group status)
  | abort {s t r group} (ht : s.callers t = .aborting r group) : Step s (s.abort t group)
  | stop {s t} (ht : s.callers t = .idle) : Step s (s.stop t)
  | stopReturn {s t n} (ht : s.callers t = .stopWaiting n) (hleader : s.leader = false) :
      Step s (s.setCaller t (.stopped n))
  | resume {s t} (ht : s.callers t = .idle ∨ ∃ n, s.callers t = .stopped n) : Step s (s.resume t)
  /-- A `Close` call sets `closed_`. -/
  | close {s : State σ} : Step s { s with closed := true }
  /-- A call returned, and the thread may make another one. -/
  | next {s t} (ht : (∃ status, s.callers t = .returned status) ∨ s.callers t = .threw ∨
      ∃ n, s.callers t = .stopped n) : Step s (s.setCaller t .idle)
  | env {s : State σ} {store} (henv : env s.store store) : Step s { s with store }

/-- The writer queue over a store, from an idle queue. -/
def system (initial : σ → Prop) : TransitionSystem (State σ) where
  init s := ∃ store, initial store ∧ s = { store }
  step := Step o apply env

end

end WriterQueue

end TinyLsm
