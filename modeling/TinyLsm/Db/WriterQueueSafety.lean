import TinyLsm.Db.WriterQueue
import Mathlib.Data.List.Nodup
import Mathlib.Data.List.Count

/-!
# Safety of the writer queue

The invariant of the writer queue, one lemma per step, and what it gives for every reachable state:
one leader, no stranded request, exact byte accounting without wrap-around, FIFO order, and one
completion for every request that left the queue.
-/

namespace TinyLsm.WriterQueue

variable {σ : Type} {o : Options}

/-! ## Leadership -/

/-- At most one thread leads, `writer_leader_` says whether one does, and it holds the group
`current`, which ended as `outcome` says. -/
structure Leadership (leader : Bool) (current : List WriterRequest) (outcome : Option Outcome)
    (callers : ℕ → Caller) : Prop where
  unique : ∀ t u, (callers t).isLeader → (callers u).isLeader → t = u
  leader_iff : leader = true ↔ ∃ t, (callers t).isLeader
  group_eq : ∀ t, (callers t).isLeader → (callers t).group = current
  outcome_eq : ∀ t, (callers t).isLeader → (callers t).outcome? = outcome

namespace Leadership

variable {leader : Bool} {current : List WriterRequest} {outcome : Option Outcome}
  {callers : ℕ → Caller} {t : ℕ} {c : Caller}

/-- A thread that does not lead moves. -/
theorem other (h : Leadership leader current outcome callers) (ht : (callers t).isLeader = false)
    (hc : c.isLeader = false) :
    Leadership leader current outcome (Function.update callers t c) := by
  have heq : ∀ u, (Function.update callers t c u).isLeader = (callers u).isLeader := by
    intro u
    by_cases hu : u = t
    · rw [hu, Function.update_self, hc, ht]
    · rw [Function.update_of_ne hu]
  have hne : ∀ u, (Function.update callers t c u).isLeader → u ≠ t := by
    rintro _ hu rfl
    rw [heq, ht] at hu
    cases hu
  refine ⟨fun u v hu hv => h.unique u v (heq u ▸ hu) (heq v ▸ hv), ?_, ?_, ?_⟩
  · rw [h.leader_iff]
    simp only [heq]
  · intro u hu
    rw [Function.update_of_ne (hne u hu)]
    exact h.group_eq u (heq u ▸ hu)
  · intro u hu
    rw [Function.update_of_ne (hne u hu)]
    exact h.outcome_eq u (heq u ▸ hu)

/-- After a change at the leader, or at the thread that becomes it, nobody else leads. -/
theorem not_isLeader_of_ne (h : Leadership leader current outcome callers)
    (ht : (callers t).isLeader ∨ leader = false) {u : ℕ} (hu : u ≠ t) :
    (callers u).isLeader = false := by
  rw [← Bool.not_eq_true]
  intro hlead
  rcases ht with ht | hfalse
  · exact hu (h.unique u t hlead ht)
  · have := h.leader_iff.mpr ⟨u, hlead⟩
    rw [hfalse] at this
    cases this

/-- The leader moves on, or a thread becomes the leader. -/
theorem lead (h : Leadership leader current outcome callers) (c : Caller)
    (ht : (callers t).isLeader ∨ leader = false) (hc : c.isLeader = true) :
    Leadership true c.group c.outcome? (Function.update callers t c) := by
  have hne : ∀ u, (Function.update callers t c u).isLeader → u = t := by
    intro u hu
    by_contra hut
    rw [Function.update_of_ne hut, h.not_isLeader_of_ne ht hut] at hu
    cases hu
  refine ⟨fun u v hu hv => (hne u hu).trans (hne v hv).symm, ?_, ?_, ?_⟩
  · exact iff_of_true rfl ⟨t, by rwa [Function.update_self]⟩
  · intro u hu
    rw [hne u hu, Function.update_self]
  · intro u hu
    rw [hne u hu, Function.update_self]

/-- The leader steps down. -/
theorem release (h : Leadership leader current outcome callers) (ht : (callers t).isLeader)
    (hc : c.isLeader = false) : Leadership false [] none (Function.update callers t c) := by
  have hnone : ∀ u, (Function.update callers t c u).isLeader = false := by
    intro u
    by_cases hu : u = t
    · rw [hu, Function.update_self, hc]
    · rw [Function.update_of_ne hu, h.not_isLeader_of_ne (.inl ht) hu]
  refine ⟨fun u _ hu => ?_, iff_of_false (by simp) ?_, fun u hu => ?_, fun u hu => ?_⟩
  · rw [hnone u] at hu
    cases hu
  · rintro ⟨u, hu⟩
    rw [hnone u] at hu
    cases hu
  · rw [hnone u] at hu
    cases hu
  · rw [hnone u] at hu
    cases hu

end Leadership

/-! ## The invariant -/

/-- What the program point of a thread says about the state. -/
structure CallerOk (o : Options) (s : State σ) (c : Caller) : Prop where
  submitting : ∀ batch queueBytes, c = .submitting batch queueBytes →
    batch.length ≤ kMaxWalBatchOperations ∧ queueBytes ≤ o.maxPendingWriteBytes
  own : ∀ r, c.request? = some r → r ∈ s.admitted
  applying : ∀ r group, c = .applying r group → group ≠ []
  stop : ∀ n, c.stopCount? = some n → n ≤ s.resumes ∧ (n = s.resumes → s.stopping = true)

/-- A program point that carries no data. -/
def Caller.isPlain : Caller → Bool
  | .idle | .returned _ | .threw => true
  | _ => false

theorem CallerOk.of_isPlain {s : State σ} {c : Caller} (h : c.isPlain) : CallerOk o s c := by
  cases c <;> simp_all [Caller.isPlain] <;> constructor <;>
    simp [Caller.request?, Caller.stopCount?]

/-- A thread whose own request is admitted and that is neither submitting nor stopping. -/
theorem CallerOk.of_request {s : State σ} {c : Caller} {r : WriterRequest}
    (h : c.request? = some r) (hr : r ∈ s.admitted)
    (happlying : ∀ r group, c = .applying r group → group ≠ []) : CallerOk o s c := by
  refine ⟨?_, ?_, happlying, ?_⟩
  · rintro _ _ rfl
    cases h
  · intro r' hr'
    rw [h] at hr'
    exact Option.some.inj hr' ▸ hr
  · intro n hn
    cases c <;> first | (cases hn; done) | cases h

theorem CallerOk.mono {s s' : State σ} {c : Caller} (h : CallerOk o s c)
    (hadmitted : ∀ r ∈ s.admitted, r ∈ s'.admitted) (hresumes : s.resumes ≤ s'.resumes)
    (hstop : s.resumes = s'.resumes → s.stopping = true → s'.stopping = true) :
    CallerOk o s' c where
  submitting := h.submitting
  own r hr := hadmitted r (h.own r hr)
  applying := h.applying
  stop n hn := by
    obtain ⟨hle, hflag⟩ := h.stop n hn
    refine ⟨hle.trans hresumes, fun heq => ?_⟩
    have hres : s.resumes = s'.resumes := by omega
    exact hstop hres (hflag (by omega))

/-- The invariant of the writer queue. -/
structure Inv (o : Options) (s : State σ) : Prop where
  leadership : Leadership s.leader s.current s.outcome s.callers
  callers : ∀ t, CallerOk o s (s.callers t)
  idle : s.leader = false → s.current = [] ∧ s.outcome = none ∧ s.queue = []
  bytes_eq : s.queueBytes = bytesOf s.queue
  bytes_le : s.queueBytes ≤ o.maxPendingWriteBytes
  length_le : s.queue.length ≤ o.maxPendingWriteRequests
  not_wrapped : s.wrapped = false
  operations_le : ∀ r ∈ s.admitted, r.batch.length ≤ kMaxWalBatchOperations
  ids : s.admitted.map WriterRequest.id = List.range s.admitted.length
  admitted_eq : s.admitted = s.disposed.flatMap Disposal.requests ++ s.current ++ s.queue
  completions_eq : s.completions = s.disposed.flatMap Disposal.completions

theorem Inv.init (store : σ) : Inv o ({ store } : State σ) where
  leadership :=
    { unique := fun _ _ h => (Bool.false_ne_true h).elim
      leader_iff := iff_of_false Bool.false_ne_true (fun ⟨_, h⟩ => Bool.false_ne_true h)
      group_eq := fun _ h => (Bool.false_ne_true h).elim
      outcome_eq := fun _ h => (Bool.false_ne_true h).elim }
  callers _ := .of_isPlain rfl
  idle _ := ⟨rfl, rfl, rfl⟩
  bytes_eq := rfl
  bytes_le := Nat.zero_le _
  length_le := Nat.zero_le _
  not_wrapped := rfl
  operations_le _ h := by cases h
  ids := rfl
  admitted_eq := rfl
  completions_eq := rfl

namespace Inv

variable {s : State σ} (h : Inv o s)
include h

theorem callers_update {s' : State σ} {t : ℕ} {c : Caller}
    (hc : CallerOk o s' c) (heq : s'.callers = Function.update s.callers t c)
    (hmono : ∀ u, CallerOk o s (s.callers u) → CallerOk o s' (s.callers u)) (u : ℕ) :
    CallerOk o s' (s'.callers u) := by
  rw [heq]
  by_cases hu : u = t
  · rwa [hu, Function.update_self]
  · rw [Function.update_of_ne hu]
    exact hmono u (h.callers u)

/-- A thread that does not lead moves on, and nothing else changes. -/
theorem setCaller {t : ℕ} {c : Caller} (ht : (s.callers t).isLeader = false)
    (hc : c.isLeader = false) (hok : CallerOk o s c) : Inv o (s.setCaller t c) where
  leadership := h.leadership.other ht hc
  callers := h.callers_update (hok.mono (fun _ hr => hr) le_rfl fun _ hs => hs) rfl
    fun _ hu => hu.mono (fun _ hr => hr) le_rfl fun _ hs => hs
  idle := h.idle
  bytes_eq := h.bytes_eq
  bytes_le := h.bytes_le
  length_le := h.length_le
  not_wrapped := h.not_wrapped
  operations_le := h.operations_le
  ids := h.ids
  admitted_eq := h.admitted_eq
  completions_eq := h.completions_eq

theorem tested (s' : State σ) (hs' : s' = s.tested o) : Inv o s' := by
  subst hs'
  exact
  { leadership := h.leadership
    callers := fun t => (h.callers t).mono (fun _ hr => hr) le_rfl fun _ hs => hs
    idle := h.idle
    bytes_eq := h.bytes_eq
    bytes_le := h.bytes_le
    length_le := h.length_le
    not_wrapped := by
      simp only [State.tested, h.not_wrapped, Bool.false_or, Bool.and_eq_false_iff,
        decide_eq_false_iff_not, not_lt]
      exact .inr h.bytes_le
    operations_le := h.operations_le
    ids := h.ids
    admitted_eq := h.admitted_eq
    completions_eq := h.completions_eq }

theorem enqueue {t : ℕ} {batch : WriteBatch} {queueBytes : ℕ} (ho : o.Accepted)
    (ht : s.callers t = .submitting batch queueBytes) (hwait : s.mustWait o queueBytes = false) :
    Inv o (s.enqueue o t batch queueBytes) := by
  obtain ⟨hops, -⟩ := (h.callers t).submitting _ _ ht
  simp only [State.mustWait, Bool.or_eq_false_iff, decide_eq_false_iff_not, not_le, not_lt] at hwait
  obtain ⟨hlen, hfits⟩ := hwait
  rw [subSize_of_le h.bytes_le ho.pendingBytes_lt] at hfits
  have hle := h.bytes_le
  have hsum : addSize s.queueBytes queueBytes = s.queueBytes + queueBytes :=
    addSize_of_lt (by have := ho.pendingBytes_lt; omega)
  have hnot : (s.callers t).isLeader = false := by rw [ht]; rfl
  refine ⟨?_, ?_, fun hf => ?_, ?_, ?_, ?_, (h.tested _ rfl).not_wrapped, ?_, ?_, ?_,
    h.completions_eq⟩
  · show Leadership true s.current s.outcome (Function.update s.callers t
      (if s.leader then .following _ else .draining _))
    split
    · rename_i hl
      rw [← hl]
      exact h.leadership.other hnot rfl
    · rename_i hl
      rw [Bool.not_eq_true] at hl
      rw [(h.idle hl).1, (h.idle hl).2.1]
      exact h.leadership.lead (.draining _) (.inr hl) rfl
  · refine h.callers_update ?_ rfl ?_
    · refine CallerOk.of_request (?_ : _ = some (s.newRequest batch queueBytes)) ?_ ?_
      · split <;> rfl
      · exact List.mem_append_right _ List.mem_cons_self
      · split <;> exact nofun
    · exact fun u hu => hu.mono (fun _ hr => List.mem_append_left _ hr) le_rfl fun _ hs => hs
  · cases hf
  · show addSize s.queueBytes queueBytes = bytesOf (s.queue ++ [s.newRequest batch queueBytes])
    rw [hsum, bytesOf_append, h.bytes_eq]
    rfl
  · show addSize s.queueBytes queueBytes ≤ o.maxPendingWriteBytes
    omega
  · show (s.queue ++ [s.newRequest batch queueBytes]).length ≤ o.maxPendingWriteRequests
    rw [List.length_append]
    exact hlen
  · intro r hr
    rcases List.mem_append.mp hr with hr | hr
    · exact h.operations_le r hr
    · rw [List.mem_singleton.mp hr]
      exact hops
  · show (s.admitted ++ [s.newRequest batch queueBytes]).map WriterRequest.id =
      List.range (s.admitted ++ [s.newRequest batch queueBytes]).length
    rw [List.map_append, h.ids, List.length_append, List.length_singleton, List.range_succ]
    rfl
  · show s.admitted ++ [s.newRequest batch queueBytes] = s.disposed.flatMap Disposal.requests ++
      s.current ++ (s.queue ++ [s.newRequest batch queueBytes])
    rw [h.admitted_eq, List.append_assoc _ s.queue]

theorem stepDown {t : ℕ} {r : WriterRequest} (ht : s.callers t = .draining r)
    (hqueue : s.queue = []) : Inv o (s.stepDown t r) := by
  have hlead : (s.callers t).isLeader := by rw [ht]; rfl
  have hcurrent : s.current = [] := by rw [← h.leadership.group_eq t hlead, ht]; rfl
  have houtcome : s.outcome = none := by rw [← h.leadership.outcome_eq t hlead, ht]; rfl
  refine ⟨?_, ?_, fun _ => ⟨hcurrent, houtcome, hqueue⟩, h.bytes_eq, h.bytes_le, h.length_le,
    h.not_wrapped, h.operations_le, h.ids, h.admitted_eq, h.completions_eq⟩
  · show Leadership false s.current s.outcome (Function.update s.callers t _)
    rw [hcurrent, houtcome]
    exact h.leadership.release hlead rfl
  · exact h.callers_update (.of_isPlain rfl) rfl
      fun u hu => hu.mono (fun _ hr => hr) le_rfl fun _ hs => hs

theorem select {t : ℕ} {r : WriterRequest} (ho : o.Accepted) (ht : s.callers t = .draining r)
    (hqueue : s.queue ≠ []) : Inv o (s.select o t r) := by
  have hlead : (s.callers t).isLeader := by rw [ht]; rfl
  have hleader : s.leader = true := h.leadership.leader_iff.mpr ⟨t, hlead⟩
  have hcurrent : s.current = [] := by rw [← h.leadership.group_eq t hlead, ht]; rfl
  have houtcome : s.outcome = none := by rw [← h.leadership.outcome_eq t hlead, ht]; rfl
  have hbytes : bytesOf s.queue ≤ o.maxPendingWriteBytes := h.bytes_eq ▸ h.bytes_le
  have hlt : bytesOf s.queue < 2 ^ 64 := lt_of_le_of_lt hbytes ho.pendingBytes_lt
  have hsplit := selectGroup_append o [] 0 0 s.queueBytes s.wrapped s.queue
  have hcount := congrArg List.length hsplit
  have htotal := congrArg bytesOf hsplit
  rw [List.nil_append, List.length_append] at hcount
  rw [List.nil_append, bytesOf_append] at htotal
  have hexact : (s.select o t r).queueBytes = bytesOf (s.select o t r).queue := by
    show (selectGroup o [] 0 0 s.queueBytes s.wrapped s.queue).queueBytes = _
    rw [h.bytes_eq]
    exact (selectGroup_queueBytes o [] s.queue hlt).trans (by rw [← h.bytes_eq]; rfl)
  refine ⟨?_, ?_, fun hf => ?_, hexact, ?_, ?_, ?_, h.operations_le, h.ids, ?_, h.completions_eq⟩
  · show Leadership s.leader _ s.outcome (Function.update s.callers t _)
    rw [hleader, houtcome]
    exact h.leadership.lead (.applying r _) (.inl hlead) rfl
  · refine h.callers_update (CallerOk.of_request rfl ?_ ?_) rfl ?_
    · exact (h.callers t).own r (by rw [ht]; rfl)
    · rintro _ _ ⟨⟩
      exact selectGroup_ne_nil o hqueue
    · exact fun u hu => hu.mono (fun _ hr => hr) le_rfl fun _ hs => hs
  · exact absurd (hleader.symm.trans hf) (by decide)
  · rw [hexact]
    show bytesOf (selectGroup o [] 0 0 s.queueBytes s.wrapped s.queue).queue ≤ _
    omega
  · show (selectGroup o [] 0 0 s.queueBytes s.wrapped s.queue).queue.length ≤ _
    have := h.length_le
    omega
  · show (selectGroup o [] 0 0 s.queueBytes s.wrapped s.queue).wrapped = false
    rw [h.bytes_eq, selectGroup_wrapped o [] s.queue hlt (fun _ => rfl) (Nat.zero_le _),
      h.not_wrapped]
    intro r hr
    apply h.operations_le
    rw [h.admitted_eq]
    exact List.mem_append_right _ hr
  · show s.admitted = s.disposed.flatMap Disposal.requests ++
      (selectGroup o [] 0 0 s.queueBytes s.wrapped s.queue).group ++
      (selectGroup o [] 0 0 s.queueBytes s.wrapped s.queue).queue
    rw [List.append_assoc, hsplit, h.admitted_eq, hcurrent, List.append_nil]
    rfl

theorem applied {t : ℕ} {r : WriterRequest} {group : List WriterRequest} {store : σ}
    {outcome : Outcome} (ht : s.callers t = .applying r group) :
    Inv o (s.applied t r group store outcome) := by
  have hlead : (s.callers t).isLeader := by rw [ht]; rfl
  have hleader : s.leader = true := h.leadership.leader_iff.mpr ⟨t, hlead⟩
  have hcurrent : s.current = group := by rw [← h.leadership.group_eq t hlead, ht]; rfl
  have hown : r ∈ s.admitted := (h.callers t).own r (by rw [ht]; rfl)
  -- both outcomes only move the leader, which keeps its group
  have hmove : ∀ c : Caller, c.isLeader → c.group = group → c.request? = some r →
      (∀ r group, c ≠ .applying r group) → Inv o { s with
        store, callers := Function.update s.callers t c, outcome := c.outcome? } := by
    intro c hc hgroup hreq hnot
    refine ⟨?_, ?_, fun hf => absurd (hleader.symm.trans hf) (by decide), h.bytes_eq, h.bytes_le,
      h.length_le, h.not_wrapped, h.operations_le, h.ids, h.admitted_eq, h.completions_eq⟩
    · show Leadership s.leader s.current c.outcome? (Function.update s.callers t c)
      rw [hleader, hcurrent, ← hgroup]
      exact h.leadership.lead c (.inl hlead) hc
    · exact h.callers_update
        (CallerOk.of_request hreq hown fun r group hc => (hnot r group hc).elim) rfl
        fun u hu => hu.mono (fun _ hr => hr) le_rfl fun _ hs => hs
  cases outcome with
  | returned status => exact hmove (.finishing r group status) rfl rfl rfl nofun
  | threw => exact hmove (.aborting r group) rfl rfl rfl nofun

theorem finish {t : ℕ} {r : WriterRequest} {group : List WriterRequest} {status : Status}
    (ht : s.callers t = .finishing r group status) : Inv o (s.finish t r group status) := by
  have hlead : (s.callers t).isLeader := by rw [ht]; rfl
  have hleader : s.leader = true := h.leadership.leader_iff.mpr ⟨t, hlead⟩
  have hcurrent : s.current = group := by rw [← h.leadership.group_eq t hlead, ht]; rfl
  refine ⟨?_, ?_, fun hf => ?_, h.bytes_eq, h.bytes_le, h.length_le, h.not_wrapped,
    h.operations_le, h.ids, ?_, ?_⟩
  · show Leadership s.leader [] none (Function.update s.callers t _)
    rw [hleader]
    exact h.leadership.lead (.draining r) (.inl hlead) rfl
  · refine h.callers_update (CallerOk.of_request rfl ?_ (by nofun)) rfl ?_
    · exact (h.callers t).own r (by rw [ht]; rfl)
    · exact fun u hu => hu.mono (fun _ hr => hr) le_rfl fun _ hs => hs
  · exact absurd (hleader.symm.trans hf) (by decide)
  · show s.admitted =
      (s.disposed ++ [Disposal.group group (.returned status)]).flatMap Disposal.requests ++ [] ++
        s.queue
    rw [h.admitted_eq, hcurrent]
    simp [Disposal.requests]
  · show s.completions ++ _ = (s.disposed ++ [_]).flatMap Disposal.completions
    rw [h.completions_eq]
    simp [Disposal.completions, Disposal.requests, Disposal.status]

theorem abort {t : ℕ} {r : WriterRequest} {group : List WriterRequest}
    (ht : s.callers t = .aborting r group) : Inv o (s.abort t group) := by
  have hlead : (s.callers t).isLeader := by rw [ht]; rfl
  have hcurrent : s.current = group := by rw [← h.leadership.group_eq t hlead, ht]; rfl
  refine ⟨?_, ?_, fun _ => ⟨rfl, rfl, rfl⟩, rfl, Nat.zero_le _, Nat.zero_le _, h.not_wrapped,
    h.operations_le, h.ids, ?_, ?_⟩
  · exact h.leadership.release hlead rfl
  · exact h.callers_update (.of_isPlain rfl) rfl
      fun u hu => hu.mono (fun _ hr => hr) le_rfl fun _ hs => hs
  · show s.admitted =
      (s.disposed ++ [Disposal.group group .threw, .abandoned s.queue]).flatMap
        Disposal.requests ++ [] ++ []
    rw [h.admitted_eq, hcurrent]
    simp [Disposal.requests]
  · show s.completions ++ _ ++ _ = (s.disposed ++ [_, _]).flatMap Disposal.completions
    rw [h.completions_eq]
    simp [Disposal.completions, Disposal.requests, Disposal.status]

theorem stop {t : ℕ} (ht : s.callers t = .idle) : Inv o (s.stop t) := by
  have hnot : (s.callers t).isLeader = false := by rw [ht]; rfl
  refine ⟨?_, ?_, h.idle, h.bytes_eq, h.bytes_le, h.length_le, h.not_wrapped, h.operations_le,
    h.ids, h.admitted_eq, h.completions_eq⟩
  · refine h.leadership.other hnot ?_
    split <;> rfl
  · show ∀ u, CallerOk o (s.stop t) ((s.stop t).callers u)
    refine h.callers_update ?_ rfl ?_
    · refine ⟨fun _ _ hc => ?_, fun _ hc => ?_, fun _ _ hc => ?_, fun n hn => ?_⟩
      · split at hc <;> cases hc
      · split at hc <;> cases hc
      · split at hc <;> cases hc
      · have hres : n = s.resumes := by
          split at hn <;> exact (Option.some.inj hn).symm
        exact ⟨hres.le, fun _ => rfl⟩
    · exact fun u hu => hu.mono (fun _ hr => hr) le_rfl fun _ _ => rfl

theorem resume {t : ℕ} (ht : s.callers t = .idle ∨ ∃ n, s.callers t = .stopped n) :
    Inv o (s.resume t) := by
  have hnot : (s.callers t).isLeader = false := by
    rcases ht with ht | ⟨n, ht⟩ <;> rw [ht] <;> rfl
  unfold State.resume
  split
  · exact h.setCaller hnot rfl (.of_isPlain rfl)
  · refine ⟨h.leadership.other hnot rfl, ?_, h.idle, h.bytes_eq, h.bytes_le, h.length_le,
      h.not_wrapped, h.operations_le, h.ids, h.admitted_eq, h.completions_eq⟩
    refine h.callers_update (.of_isPlain rfl : CallerOk o _ .idle) rfl ?_
    exact fun u hu => hu.mono (fun _ hr => hr) (Nat.le_succ _) fun heq _ => by
      simp only at heq
      omega

end Inv

/-! ## Runs -/

section
variable [EntrySize] {apply : σ → List WriterRequest → σ → Outcome → Prop} {env : σ → σ → Prop}
  {initial : σ → Prop} {s s' : State σ}

/-- Every step keeps the invariant. -/
theorem Inv.step (ho : o.Accepted) (h : Inv o s) (hstep : Step o apply env s s') : Inv o s' := by
  -- a thread between two calls does not lead, and says nothing about the state
  have hidle : ∀ {t : ℕ}, s.callers t = .idle → (s.callers t).isLeader = false :=
    fun ht => by rw [ht]; rfl
  cases hstep with
  | invalid ht _ => exact h.setCaller (hidle ht) rfl (.of_isPlain rfl)
  | empty status ht => exact h.setCaller (hidle ht) rfl (.of_isPlain rfl)
  | oversized ht _ _ _ => exact h.setCaller (hidle ht) rfl (.of_isPlain rfl)
  | submit ht hne hbatch hbytes =>
    refine h.setCaller (hidle ht) rfl ⟨?_, nofun, nofun, nofun⟩
    rintro _ _ ⟨⟩
    exact ⟨(validateWriteBatch_eq_ok o hbatch).1, hbytes⟩
  | wait ht hstop hwait => exact h.tested _ rfl
  | reject ht hstop => exact h.setCaller (by rw [ht]; rfl) rfl (.of_isPlain rfl)
  | enqueue ht hstop hwait => exact h.enqueue ho ht hwait
  | follow ht hr => exact h.setCaller (by rw [ht]; rfl) rfl (.of_isPlain rfl)
  | stepDown ht hqueue => exact h.stepDown ht hqueue
  | select ht hqueue => exact h.select ho ht hqueue
  | applied ht happly => exact h.applied ht
  | finish ht => exact h.finish ht
  | abort ht => exact h.abort ht
  | stop ht => exact h.stop ht
  | @stopReturn t n ht hleader =>
    refine h.setCaller (by rw [ht]; rfl) rfl
      ⟨nofun, nofun, nofun, fun m hm => ?_⟩
    exact (h.callers t).stop m (by rw [ht]; exact hm)
  | resume ht => exact h.resume ht
  | close =>
    exact ⟨h.leadership, fun t => (h.callers t).mono (fun _ hr => hr) le_rfl fun _ hs => hs,
      h.idle, h.bytes_eq, h.bytes_le, h.length_le, h.not_wrapped, h.operations_le, h.ids,
      h.admitted_eq, h.completions_eq⟩
  | next ht =>
    refine h.setCaller ?_ rfl (.of_isPlain rfl)
    rcases ht with ⟨_, ht⟩ | ht | ⟨_, ht⟩ <;> rw [ht] <;> rfl
  | env henv =>
    exact ⟨h.leadership, fun t => (h.callers t).mono (fun _ hr => hr) le_rfl fun _ hs => hs,
      h.idle, h.bytes_eq, h.bytes_le, h.length_le, h.not_wrapped, h.operations_le, h.ids,
      h.admitted_eq, h.completions_eq⟩

/-- The invariant holds in every reachable state. -/
theorem Inv.of_reachable (ho : o.Accepted) (h : (system o apply env initial).Reachable s) :
    Inv o s := by
  refine h.invariant ?_ fun _ _ hstep hs => hs.step ho hstep
  rintro _ ⟨store, -, rfl⟩
  exact .init store

end

/-! ## Counting groups and completions -/

/-- In lists without a common element, at most one list holds an element. -/
theorem countP_mem_eq_count {α : Type} [DecidableEq α] (a : α) (L : List (List α))
    (h : L.flatten.Nodup) : L.countP (fun l => a ∈ l) = L.flatten.count a := by
  induction L with
  | nil => rfl
  | cons l L ih =>
    rw [List.flatten_cons] at h ⊢
    rw [List.countP_cons, List.count_append, ih h.of_append_right]
    have hl : l.count a = if a ∈ l then 1 else 0 := h.of_append_left.count
    rw [hl, Nat.add_comm]
    simp only [decide_eq_true_eq]

namespace Inv

variable {s : State σ} (h : Inv o s)
include h

theorem nodup_admitted : s.admitted.Nodup :=
  List.Nodup.of_map WriterRequest.id (h.ids ▸ List.nodup_range)

theorem map_fst_completions :
    s.completions.map Prod.fst = s.disposed.flatMap Disposal.requests := by
  rw [h.completions_eq, List.map_flatMap]
  congr 1
  funext d
  simp [Disposal.completions, Function.comp_def]

/-- A request is completed once when it left the queue and its group is done, and not before. -/
theorem countP_completions {r : WriterRequest} (hr : r ∈ s.admitted) :
    s.completions.countP (fun c => c.1 = r) =
      if r ∈ s.current ∨ r ∈ s.queue then 0 else 1 := by
  have hcount : s.completions.countP (fun c => c.1 = r) =
      (s.disposed.flatMap Disposal.requests).count r := by
    rw [← h.map_fst_completions, List.count, List.countP_map]
    rfl
  have hone := List.count_eq_one_of_mem h.nodup_admitted hr
  rw [h.admitted_eq, List.count_append, List.count_append] at hone
  rw [hcount]
  split
  · rename_i hpending
    have : 0 < s.current.count r ∨ 0 < s.queue.count r := by
      simpa only [List.count_pos_iff] using hpending
    omega
  · rename_i hpending
    rw [not_or] at hpending
    rw [List.count_eq_zero.mpr hpending.1, List.count_eq_zero.mpr hpending.2] at hone
    omega

omit h in
theorem groups_flatten :
    s.groups.flatten =
      ((s.disposed.filterMap Disposal.group?).map Prod.fst).flatten ++ s.current := by
  unfold State.groups
  rw [List.flatten_append]
  split
  · rename_i hc
    rw [hc, List.flatten_nil]
  · rw [List.flatten_singleton]

omit h in
theorem count_disposed (r : WriterRequest) :
    (s.disposed.flatMap Disposal.requests).count r =
      ((s.disposed.filterMap Disposal.group?).map Prod.fst).flatten.count r +
        s.abandoned.count r := by
  unfold State.abandoned
  induction s.disposed with
  | nil => rfl
  | cons d ds ih =>
    cases d <;> simp [Disposal.requests, Disposal.group?, List.filterMap_cons, ih] <;> omega

/-- A request is in one group, unless it is still queued or was abandoned in the queue. -/
theorem countP_groups {r : WriterRequest} (hr : r ∈ s.admitted) :
    s.groups.countP (fun g => r ∈ g) =
      if r ∈ s.queue ∨ r ∈ s.abandoned then 0 else 1 := by
  have hcount : ∀ q : WriterRequest, s.admitted.count q =
      s.groups.flatten.count q + s.abandoned.count q + s.queue.count q := by
    intro q
    rw [h.admitted_eq, List.count_append, List.count_append, count_disposed, groups_flatten,
      List.count_append]
    omega
  have hnodup : s.groups.flatten.Nodup := by
    rw [List.nodup_iff_count_le_one]
    intro q
    have := List.nodup_iff_count_le_one.mp h.nodup_admitted q
    have := hcount q
    omega
  have hone := List.count_eq_one_of_mem h.nodup_admitted hr
  rw [countP_mem_eq_count r _ hnodup]
  rw [hcount] at hone
  split
  · rename_i hleft
    have : 0 < s.queue.count r ∨ 0 < s.abandoned.count r := by
      simpa only [List.count_pos_iff] using hleft
    omega
  · rename_i hleft
    rw [not_or] at hleft
    rw [List.count_eq_zero.mpr hleft.1, List.count_eq_zero.mpr hleft.2] at hone
    omega

end Inv

/-! ## Stopping -/

section
variable [EntrySize] {apply : σ → List WriterRequest → σ → Outcome → Prop} {env : σ → σ → Prop}
  {initial : σ → Prop} {s s' : State σ} {t n : ℕ}

/-- Nobody leads in a state in which `StopWriterQueue` just returned. -/
theorem leader_of_stop_returns (hstep : Step o apply env s s')
    (hbefore : s.callers t ≠ .stopped n) (hafter : s'.callers t = .stopped n) :
    s'.leader = false := by
  -- a step that sets another program point at any thread cannot be the one
  have hset : ∀ {u : ℕ} {c : Caller}, c ≠ .stopped n →
      Function.update s.callers u c t ≠ .stopped n := by
    intro u c hc
    by_cases hu : t = u
    · rwa [hu, Function.update_self]
    · rwa [Function.update_of_ne hu]
  cases hstep with
  | stop ht =>
    cases hl : s.leader with
    | false => exact hl
    | true =>
      refine (hset ?_ hafter).elim
      rw [hl]
      exact nofun
  | stopReturn ht hleader => exact hleader
  | invalid | empty | oversized | submit | reject | follow | stepDown | select | finish | abort
  | next => exact (hset (by nofun) hafter).elim
  | enqueue =>
    refine (hset ?_ hafter).elim
    split <;> exact nofun
  | @applied _ _ _ _ outcome =>
    cases outcome <;> exact (hset (by nofun) hafter).elim
  | resume =>
    unfold State.resume at hafter
    split at hafter <;> exact (hset (by nofun) hafter).elim
  | wait | close | env => exact (hbefore hafter).elim

/-- The queue is stopped, and nothing cleared the flag since the count was `n`. -/
def Stopped (n : ℕ) (s : State σ) : Prop :=
  n ≤ s.resumes ∧ (s.resumes = n → s.stopping = true ∧ s.leader = false)

/-- A stopped queue admits nothing until it is resumed. -/
theorem Stopped.step (h : Inv o s) (hstopped : Stopped n s) (hstep : Step o apply env s s') :
    Stopped n s' := by
  obtain ⟨hle, hflag⟩ := hstopped
  -- a leader contradicts that nobody leads
  have hlead : ∀ {u : ℕ}, (s.callers u).isLeader → s.resumes ≠ n := by
    intro u hu heq
    have := h.leadership.leader_iff.mpr ⟨u, hu⟩
    rw [(hflag heq).2] at this
    cases this
  cases hstep with
  | enqueue ht hstop hwait =>
    refine ⟨hle, fun heq => ?_⟩
    have := (hflag heq).1
    rw [hstop] at this
    cases this
  | stepDown ht | select ht | finish ht | abort ht =>
    exact ⟨hle, fun heq => (hlead (by rw [ht]; rfl) heq).elim⟩
  | @applied _ _ _ _ outcome ht =>
    cases outcome <;> exact ⟨hle, fun heq => (hlead (by rw [ht]; rfl) heq).elim⟩
  | stop => exact ⟨hle, fun heq => ⟨rfl, (hflag heq).2⟩⟩
  | resume =>
    unfold State.resume
    split
    · exact ⟨hle, hflag⟩
    · refine ⟨Nat.le_succ_of_le hle, fun heq => ?_⟩
      simp only at heq
      omega
  | invalid | empty | oversized | submit | wait | reject | follow | stopReturn | close | next
  | env => exact ⟨hle, hflag⟩

/-- When `StopWriterQueue` returns, the queue is empty. -/
theorem Inv.queue_of_stop_returns (ho : o.Accepted) (h : Inv o s) (hstep : Step o apply env s s')
    (hbefore : s.callers t ≠ .stopped n) (hafter : s'.callers t = .stopped n) :
    s'.queue = [] :=
  ((h.step ho hstep).idle (leader_of_stop_returns hstep hbefore hafter)).2.2

/-- It stays empty for as long as nothing resumed the queue since that call set the flag. -/
theorem queue_of_stopped (ho : o.Accepted) (hs : (system o apply env initial).Reachable s)
    (hleader : s.leader = false) (ht : s.callers t = .stopped n)
    (hrun : (system o apply env initial).Run s s') (hresumes : s'.resumes = n) :
    s'.queue = [] := by
  have h := Inv.of_reachable ho hs
  obtain ⟨hle, hstop⟩ := (h.callers t).stop n (by rw [ht]; rfl)
  have hinit : Stopped n s := ⟨hle, fun heq => ⟨hstop heq.symm, hleader⟩⟩
  have hend : Stopped n s' :=
    hrun.keeps_of_reachable
      (fun _ _ hreach hstep hs => hs.step (Inv.of_reachable ho hreach) hstep) hs hinit
  exact ((Inv.of_reachable ho (hs.run hrun)).idle (hend.2 hresumes).2).2.2

/-! ## The leader finishes -/

/-- What the leader can still reach by itself: nobody leads, with the same admitted requests. -/
def Drains (M : TransitionSystem (State σ)) (s : State σ) : Prop :=
  ∃ s', M.Run s s' ∧ s'.leader = false ∧ s'.admitted = s.admitted

omit [EntrySize] in
theorem Drains.head {M : TransitionSystem (State σ)} (hstep : M.step s s')
    (hadmitted : s'.admitted = s.admitted) (h : Drains M s') : Drains M s :=
  let ⟨s₂, hrun, hleader, heq⟩ := h
  ⟨s₂, hrun.head hstep, hleader, heq.trans hadmitted⟩

theorem drains_aborting {r : WriterRequest} {group : List WriterRequest}
    (ht : s.callers t = .aborting r group) : Drains (system o apply env initial) s :=
  ⟨_, TransitionSystem.Run.refl.tail (.abort ht), rfl, rfl⟩

theorem drains_draining (happly : ∀ store group, ∃ store' outcome, apply store group store' outcome)
    {r : WriterRequest} {m : ℕ} (hm : s.queue.length ≤ m) (ht : s.callers t = .draining r) :
    Drains (system o apply env initial) s := by
  induction m generalizing s with
  | zero =>
    have hqueue : s.queue = [] := List.length_eq_zero_iff.mp (Nat.le_zero.mp hm)
    exact ⟨_, TransitionSystem.Run.refl.tail (.stepDown ht hqueue), rfl, rfl⟩
  | succ m ih =>
    by_cases hqueue : s.queue = []
    · exact ⟨_, TransitionSystem.Run.refl.tail (.stepDown ht hqueue), rfl, rfl⟩
    -- one group is taken off, applied and completed
    set selection := selectGroup o [] 0 0 s.queueBytes s.wrapped s.queue with hselection
    have hsplit := congrArg List.length (selectGroup_append o [] 0 0 s.queueBytes s.wrapped s.queue)
    have hpos : 0 < selection.group.length := List.length_pos_of_ne_nil (selectGroup_ne_nil o hqueue)
    rw [List.nil_append, List.length_append, ← hselection] at hsplit
    have hselect : (s.select o t r).callers t = .applying r selection.group :=
      Function.update_self ..
    obtain ⟨store, outcome, hout⟩ := happly (s.select o t r).store selection.group
    refine Drains.head (Step.select ht hqueue) rfl ?_
    refine Drains.head (Step.applied hselect hout) (by cases outcome <;> rfl) ?_
    cases outcome with
    | threw => exact drains_aborting (Function.update_self ..)
    | returned status =>
      refine Drains.head (Step.finish (Function.update_self ..)) rfl ?_
      refine ih ?_ (Function.update_self ..)
      show selection.queue.length ≤ m
      omega

/-- From every state the leader can finish on its own, whatever `ApplyWriteGroup` answers. -/
theorem Inv.drains (h : Inv o s)
    (happly : ∀ store group, ∃ store' outcome, apply store group store' outcome) :
    Drains (system o apply env initial) s := by
  cases hl : s.leader with
  | false => exact ⟨s, .refl, hl, rfl⟩
  | true =>
    obtain ⟨t, ht⟩ := h.leadership.leader_iff.mp hl
    cases hc : s.callers t with
    | draining r => exact drains_draining happly le_rfl hc
    | aborting r group => exact drains_aborting hc
    | finishing r group status =>
      refine Drains.head (Step.finish hc) rfl ?_
      exact drains_draining happly le_rfl (Function.update_self ..)
    | applying r group =>
      obtain ⟨store, outcome, hout⟩ := happly s.store group
      refine Drains.head (Step.applied hc hout) (by cases outcome <;> rfl) ?_
      cases outcome with
      | threw => exact drains_aborting (Function.update_self ..)
      | returned status =>
        refine Drains.head (Step.finish (Function.update_self ..)) rfl ?_
        exact drains_draining happly le_rfl (Function.update_self ..)
    | _ => rw [hc] at ht; cases ht

end

/-! ## Groups are applied one after another -/

section
variable [EntrySize] {apply : σ → List WriterRequest → σ → Outcome → Prop} {env : σ → σ → Prop}
  {initial : σ → Prop} {s s' : State σ}

/-- A step applies one more group to the store, or leaves the applied groups as they are and the
store to the rest of the database. -/
theorem Inv.appliedGroups_step (h : Inv o s) (hstep : Step o apply env s s') :
    (s'.appliedGroups = s.appliedGroups ∧ (s'.store = s.store ∨ env s.store s'.store)) ∨
      ∃ outcome, s.current ≠ [] ∧ s'.appliedGroups = s.appliedGroups ++ [(s.current, outcome)] ∧
        apply s.store s.current s'.store outcome := by
  -- the history of a leader that holds its group agrees with its program point
  have hlead : ∀ {t : ℕ}, (s.callers t).isLeader →
      s.current = (s.callers t).group ∧ s.outcome = (s.callers t).outcome? := fun ht =>
    ⟨(h.leadership.group_eq _ ht).symm, (h.leadership.outcome_eq _ ht).symm⟩
  cases hstep with
  | @applied t r group store outcome ht happly =>
    obtain ⟨hcurrent, hnone⟩ := hlead (by rw [ht]; rfl : (s.callers t).isLeader)
    rw [ht] at hcurrent hnone
    have hne : s.current ≠ [] := hcurrent ▸ (h.callers t).applying r group ht
    refine .inr ⟨outcome, hne, ?_, ?_⟩
    · cases outcome <;> simp [State.appliedGroups, State.applied, hnone, Caller.outcome?]
    · rw [hcurrent]
      cases outcome <;> exact happly
  | @finish t r group status ht =>
    obtain ⟨hcurrent, hout⟩ := hlead (by rw [ht]; rfl : (s.callers t).isLeader)
    rw [ht] at hcurrent hout
    refine .inl ⟨?_, .inl rfl⟩
    simp [State.appliedGroups, State.finish, hcurrent, hout, Caller.group, Caller.outcome?,
      Disposal.group?]
  | @abort t r group ht =>
    obtain ⟨hcurrent, hout⟩ := hlead (by rw [ht]; rfl : (s.callers t).isLeader)
    rw [ht] at hcurrent hout
    refine .inl ⟨?_, .inl rfl⟩
    simp [State.appliedGroups, State.abort, hcurrent, hout, Caller.group, Caller.outcome?,
      Disposal.group?]
  | @select t r ht hqueue =>
    obtain ⟨-, hout⟩ := hlead (by rw [ht]; rfl : (s.callers t).isLeader)
    rw [ht] at hout
    refine .inl ⟨?_, .inl rfl⟩
    simp [State.appliedGroups, State.select, hout, Caller.outcome?]
  | resume =>
    refine .inl ?_
    unfold State.resume
    split <;> exact ⟨rfl, .inl rfl⟩
  | env henv => exact .inl ⟨rfl, .inr henv⟩
  | invalid | empty | oversized | submit | wait | reject | enqueue | follow | stepDown | stop
  | stopReturn | close | next => exact .inl ⟨rfl, .inl rfl⟩

/-- Requests are abandoned only after `ApplyWriteGroup` threw. -/
def AbandonsOnThrow (s : State σ) : Prop :=
  ∀ requests, Disposal.abandoned requests ∈ s.disposed →
    ∃ group, Disposal.group group .threw ∈ s.disposed

theorem AbandonsOnThrow.of_reachable (hs : (system o apply env initial).Reachable s) :
    AbandonsOnThrow s := by
  refine hs.invariant ?_ ?_
  · rintro _ ⟨store, -, rfl⟩ requests hr
    cases hr
  · intro s s' hstep ih requests hr
    cases hstep with
    | finish ht =>
      rcases List.mem_append.mp hr with hr | hr
      · obtain ⟨group, hgroup⟩ := ih requests hr
        exact ⟨group, List.mem_append_left _ hgroup⟩
      · simp at hr
    | abort ht => exact ⟨_, List.mem_append_right _ List.mem_cons_self⟩
    | @applied _ _ _ _ outcome => cases outcome <;> exact ih requests hr
    | resume =>
      unfold State.resume at hr ⊢
      split at hr
      · rename_i hclosed
        rw [if_pos hclosed]
        exact ih requests hr
      · rename_i hclosed
        rw [if_neg hclosed]
        exact ih requests hr
    | invalid | empty | oversized | submit | wait | reject | enqueue | follow | stepDown | select
    | stop | stopReturn | close | next | env => exact ih requests hr

omit [EntrySize] in
/-- While `ApplyWriteGroup` never threw, only groups left the queue. -/
theorem AbandonsOnThrow.eq_group (h : AbandonsOnThrow s)
    (hthrew : ∀ p ∈ s.appliedGroups, p.2 ≠ .threw) {d : Disposal} (hd : d ∈ s.disposed) :
    ∃ group outcome, d = .group group outcome ∧ (group, outcome) ∈ s.appliedGroups := by
  have hmem : ∀ {group outcome}, Disposal.group group outcome ∈ s.disposed →
      (group, outcome) ∈ s.appliedGroups := fun hgroup =>
    List.mem_append_left _ (List.mem_filterMap.mpr ⟨_, hgroup, rfl⟩)
  cases d with
  | group group outcome => exact ⟨group, outcome, rfl, hmem hd⟩
  | abandoned requests =>
    obtain ⟨group, hgroup⟩ := h requests hd
    exact (hthrew _ (hmem hgroup) rfl).elim

/-- A request receives the status of its group. -/
theorem Inv.group_of_completion (h : Inv o s) (hs : (system o apply env initial).Reachable s)
    (hthrew : ∀ p ∈ s.appliedGroups, p.2 ≠ .threw) {r : WriterRequest} {status : Status}
    (hr : (r, status) ∈ s.completions) :
    ∃ group, (group, .returned status) ∈ s.appliedGroups ∧ r ∈ group := by
  rw [h.completions_eq] at hr
  obtain ⟨d, hd, hmem⟩ := List.mem_flatMap.mp hr
  obtain ⟨group, outcome, rfl, happlied⟩ := (AbandonsOnThrow.of_reachable hs).eq_group hthrew hd
  obtain ⟨r', hr', heq⟩ := List.mem_map.mp hmem
  obtain ⟨rfl, rfl⟩ := Prod.mk.inj heq
  cases outcome with
  | returned status => exact ⟨group, happlied, hr'⟩
  | threw => exact (hthrew _ happlied rfl).elim

/-- While `ApplyWriteGroup` never threw, the admitted requests are the applied groups, in order, and
what is still to come. -/
theorem Inv.admitted_of_applied (h : Inv o s) (hs : (system o apply env initial).Reachable s)
    (hthrew : ∀ p ∈ s.appliedGroups, p.2 ≠ .threw) :
    s.admitted = (s.appliedGroups.map Prod.fst).flatten ++
      ((if s.outcome = none then s.current else []) ++ s.queue) := by
  have hgroups : ∀ d ∈ s.disposed, ∃ group outcome, d = .group group outcome := by
    intro d hd
    obtain ⟨group, outcome, heq, -⟩ := (AbandonsOnThrow.of_reachable hs).eq_group hthrew hd
    exact ⟨group, outcome, heq⟩
  have hflat : s.disposed.flatMap Disposal.requests =
      ((s.disposed.filterMap Disposal.group?).map Prod.fst).flatten := by
    clear hthrew hs
    revert hgroups
    induction s.disposed with
    | nil => exact fun _ => rfl
    | cons d ds ih =>
      intro hgroups
      obtain ⟨hd, hds⟩ := List.forall_mem_cons.mp hgroups
      obtain ⟨group, outcome, rfl⟩ := hd
      simp [Disposal.requests, Disposal.group?, ih hds]
  rw [h.admitted_eq, hflat]
  unfold State.appliedGroups
  cases s.outcome <;> simp

end

/-! ## The protocol -/

/-- What holds in a state `s` of the writer queue `M`. -/
structure Protocol (o : Options) (M : TransitionSystem (State σ)) (s : State σ) : Prop where
  /-- At most one caller is leader, and `writer_leader_` says whether one is. -/
  one_leader : ∀ t u, (s.callers t).isLeader → (s.callers u).isLeader → t = u
  leader_iff : s.leader = true ↔ ∃ t, (s.callers t).isLeader
  /-- No request is stranded. -/
  not_stranded : s.queue ≠ [] → s.leader = true
  bytes_eq : s.queueBytes = bytesOf s.queue
  bytes_le : s.queueBytes ≤ o.maxPendingWriteBytes
  length_le : s.queue.length ≤ o.maxPendingWriteRequests
  no_underflow : s.wrapped = false
  /-- A request is completed once, when it is neither queued nor in the leader's hands. -/
  completed_once : ∀ r ∈ s.admitted, s.completions.countP (fun c => c.1 = r) =
    if r ∈ s.current ∨ r ∈ s.queue then 0 else 1
  /-- A request that left the queue is in one group, unless an exception of `ApplyWriteGroup`
  completed it in the queue. -/
  one_group : ∀ r ∈ s.admitted, s.groups.countP (fun g => r ∈ g) =
    if r ∈ s.queue ∨ r ∈ s.abandoned then 0 else 1
  /-- When `StopWriterQueue` returns, the queue is empty, and it stays empty until it is resumed,
  unless it was resumed between the call and the return. -/
  stops : ∀ t n s₁, M.step s s₁ → s.callers t ≠ .stopped n → s₁.callers t = .stopped n →
    s₁.queue = [] ∧ ∀ s₂, M.Run s₁ s₂ → s₂.resumes = n → s₂.queue = []

/-- **The writer queue protocol.** In every reachable state of the writer queue, over any store and
whatever `ApplyWriteGroup` does to it, the protocol holds; and when `ApplyWriteGroup` always ends,
the leader can complete every admitted request. -/
theorem writer_queue_protocol [EntrySize] (ho : o.Accepted)
    (apply : σ → List WriterRequest → σ → Outcome → Prop) (env : σ → σ → Prop) (initial : σ → Prop)
    {s : State σ} (hs : (system o apply env initial).Reachable s) :
    Protocol o (system o apply env initial) s ∧
      ((∀ store group, ∃ store' outcome, apply store group store' outcome) →
        ∃ s', (system o apply env initial).Run s s' ∧ s'.admitted = s.admitted ∧
          ∀ r ∈ s.admitted, s'.completions.countP (fun c => c.1 = r) = 1) := by
  have h := Inv.of_reachable ho hs
  refine ⟨?_, fun happly => ?_⟩
  · refine ⟨h.leadership.unique, h.leadership.leader_iff, fun hq => ?_, h.bytes_eq, h.bytes_le,
      h.length_le, h.not_wrapped, fun _ => h.countP_completions, fun _ => h.countP_groups, ?_⟩
    · by_contra hl
      exact hq (h.idle (Bool.eq_false_of_not_eq_true hl)).2.2
    · intro t n s₁ hstep hbefore hafter
      exact ⟨h.queue_of_stop_returns ho hstep hbefore hafter, fun s₂ hrun hres =>
        queue_of_stopped ho (hs.step hstep) (leader_of_stop_returns hstep hbefore hafter) hafter
          hrun hres⟩
  · obtain ⟨s', hrun, hleader, hadmitted⟩ := h.drains happly
    have h' := Inv.of_reachable ho (hs.run hrun)
    obtain ⟨hcurrent, -, hqueue⟩ := h'.idle hleader
    refine ⟨s', hrun, hadmitted, fun r hr => ?_⟩
    rw [h'.countP_completions (hadmitted ▸ hr), hcurrent, hqueue]
    simp

/-! ## Two runs with the default options -/

theorem accepted_default : ({} : Options).Accepted := by
  constructor <;> decide

section
variable {σ : Type} [EntrySize] {o : Options} {apply : σ → List WriterRequest → σ → Outcome → Prop}
  {env : σ → σ → Prop} {initial : σ → Prop}

omit [EntrySize] in
/-- Below its limits the queue lets a request in. -/
theorem mustWait_eq_false {s : State σ} {queueBytes : ℕ}
    (hlength : s.queue.length < o.maxPendingWriteRequests)
    (hbytes : queueBytes ≤ subSize o.maxPendingWriteBytes s.queueBytes) :
    s.mustWait o queueBytes = false := by
  rw [State.mustWait, Bool.or_eq_false_iff, decide_eq_false_iff_not, decide_eq_false_iff_not]
  exact ⟨not_le.mpr hlength, not_lt.mpr hbytes⟩

/-- An idle thread submits a batch and is admitted. -/
theorem run_enqueue {s : State σ} {batch : WriteBatch} {queueBytes : ℕ} (t : ℕ)
    (ht : s.callers t = .idle) (hne : batch ≠ [])
    (hbatch : validateWriteBatch o batch = .ok queueBytes)
    (hbytes : queueBytes ≤ o.maxPendingWriteBytes) (hstop : s.stopping = false)
    (hwait : s.mustWait o queueBytes = false) :
    (system o apply env initial).Run s
      ((s.setCaller t (.submitting batch queueBytes)).enqueue o t batch queueBytes) := by
  have hsubmit : Step o apply env s (s.setCaller t (.submitting batch queueBytes)) :=
    .submit ht hne hbatch hbytes
  have henqueue : Step o apply env (s.setCaller t (.submitting batch queueBytes))
      ((s.setCaller t (.submitting batch queueBytes)).enqueue o t batch queueBytes) :=
    .enqueue (Function.update_self ..) hstop hwait
  exact (TransitionSystem.Run.refl.tail hsubmit).tail henqueue

end

/-- A batch of one put. -/
def onePut : WriteBatch := [.put [1] [2]]

/-- The first admitted request. -/
def firstRequest : WriterRequest := ⟨0, onePut, 82⟩

theorem validate_onePut : @validateWriteBatch entrySize80 {} onePut = .ok 82 := by
  decide

/-- A put of another value. -/
def secondPut : WriteBatch := [.put [1] [3]]

/-- The second admitted request. -/
def secondRequest : WriterRequest := ⟨1, secondPut, 82⟩

/-- The group of both. -/
abbrev bothPuts : List WriterRequest := [firstRequest, secondRequest]

theorem validate_secondPut : @validateWriteBatch entrySize80 {} secondPut = .ok 82 := by
  decide

section
variable {σ : Type} {apply : σ → List WriterRequest → σ → Outcome → Prop} {env : σ → σ → Prop}
  {initial : σ → Prop}

/-- Two threads queue a put each, and the first one leads. -/
def queued (x : σ) : State σ :=
  ((((({ store := x } : State σ).setCaller 0 (.submitting onePut 82)).enqueue {} 0 onePut
    82).setCaller 1 (.submitting secondPut 82)).enqueue {} 1 secondPut 82)

/-- The leader takes both requests into one group. -/
def combined (x : σ) : State σ := (queued x).select {} 0 firstRequest

theorem combined_caller (x : σ) : (combined x).callers 0 = .applying firstRequest bothPuts := by
  have hqueue : (queued x).queue = bothPuts := rfl
  have hbytes : (queued x).queueBytes = 164 := by
    simp [queued, State.enqueue, State.setCaller, addSize]
  have hgroup : (selectGroup {} [] 0 0 164 (queued x).wrapped bothPuts).group = bothPuts := by
    cases (queued x).wrapped <;> rfl
  simp only [combined, State.select, Function.update_self, hqueue, hbytes, hgroup]

theorem run_queued (x : σ) :
    letI := entrySize80
    (system {} apply env initial).Run { store := x } (queued x) := by
  let _ := entrySize80
  have hroom : 82 ≤ subSize ({} : Options).maxPendingWriteBytes 0 := by decide
  have hroom' : 82 ≤ subSize ({} : Options).maxPendingWriteBytes 82 := by decide
  have hlength : 1 < ({} : Options).maxPendingWriteRequests := by decide
  have hfirst : (system {} apply env initial).Run { store := x }
      (State.enqueue {} (State.setCaller _ 0 (.submitting onePut 82)) 0 onePut 82) :=
    run_enqueue 0 rfl (by decide) validate_onePut (by decide) rfl
      (mustWait_eq_false (Nat.zero_lt_of_lt hlength) hroom)
  exact hfirst.trans (run_enqueue 1 rfl (by decide) validate_secondPut (by decide) rfl
    (mustWait_eq_false hlength hroom'))

theorem run_combined (x : σ) :
    letI := entrySize80
    (system {} apply env initial).Run { store := x } (combined x) := by
  let _ := entrySize80
  have hselect : Step {} apply env (queued x) (combined x) :=
    .select rfl (List.cons_ne_nil _ _)
  exact (run_queued x).tail hselect

end

/-- The queue over no store, with an `ApplyWriteGroup` that may end in any way. -/
def anyOutcome : TransitionSystem (State Unit) :=
  letI := entrySize80
  system {} (fun _ _ _ _ => True) (fun _ _ => True) fun _ => True

/-- The protocol at work: the leader holds the group of both requests. -/
theorem writer_queue_protocol_combined :
    (combined ()).current = bothPuts ∧
      Protocol {} anyOutcome (combined ()) := by
  let _ := entrySize80
  have hs : anyOutcome.Reachable (combined ()) :=
    TransitionSystem.Reachable.run (.of_init ⟨(), trivial, rfl⟩) (run_combined ())
  exact ⟨rfl, (writer_queue_protocol accepted_default _ _ _ hs).1⟩

theorem reachable_enqueue {s : State Unit} (hs : anyOutcome.Reachable s) (t : ℕ)
    (ht : s.callers t = .idle) (hstop : s.stopping = false) (hwait : s.mustWait {} 82 = false) :
    anyOutcome.Reachable ((s.setCaller t (.submitting onePut 82)).enqueue {} t onePut 82) := by
  let _ := entrySize80
  exact hs.run (run_enqueue t ht (by decide) validate_onePut (by decide) hstop hwait)

/-- Thread 0 leads and applies the group of its own request. -/
def leading : State Unit :=
  ((({ store := () } : State Unit).setCaller 0 (.submitting onePut 82)).enqueue {} 0 onePut 82).select
    {} 0 firstRequest

theorem reachable_leading : anyOutcome.Reachable leading := by
  let _ := entrySize80
  have h : anyOutcome.Reachable { store := () } := .of_init ⟨(), trivial, rfl⟩
  exact (reachable_enqueue h 0 rfl rfl (by decide)).step (.select rfl (by decide))

/-- Thread 1 queues a request, `ApplyWriteGroup` throws, and the exception path completes both. -/
def aborted : State Unit :=
  (((leading.setCaller 1 (.submitting onePut 82)).enqueue {} 1 onePut 82).applied
    0 firstRequest [firstRequest] () .threw).abort 0 [firstRequest]

theorem reachable_aborted : anyOutcome.Reachable aborted := by
  let _ := entrySize80
  have hqueued := reachable_enqueue reachable_leading 1 rfl rfl (by decide)
  have happlied : anyOutcome.Reachable
      (State.applied _ 0 firstRequest [firstRequest] () .threw) :=
    hqueued.step (.applied rfl trivial)
  exact happlied.step (.abort (rfl : _ = Caller.aborting firstRequest [firstRequest]))

/-- Two `StopWriterQueue` calls wait for the leader; one of them returns and resumes the queue. -/
def resumed : State Unit :=
  (((((leading.stop 1).stop 2).applied 0 firstRequest [firstRequest] () (.returned .okay)).finish
    0 firstRequest [firstRequest] .okay).stepDown 0 firstRequest).setCaller 2 (.stopped 0) |>.resume 2

theorem reachable_resumed : anyOutcome.Reachable resumed := by
  let _ := entrySize80
  have hstop : anyOutcome.Reachable ((leading.stop 1).stop 2) :=
    (reachable_leading.step (.stop rfl)).step (.stop rfl)
  have happlied : anyOutcome.Reachable
      (State.applied _ 0 firstRequest [firstRequest] () (.returned .okay)) :=
    hstop.step (.applied rfl trivial)
  have hfinish : anyOutcome.Reachable (State.finish _ 0 firstRequest [firstRequest] .okay) :=
    happlied.step (.finish rfl)
  have hdown : anyOutcome.Reachable (State.stepDown _ 0 firstRequest) :=
    hfinish.step (.stepDown rfl rfl)
  have hreturn : anyOutcome.Reachable (State.setCaller _ 2 (.stopped 0)) :=
    hdown.step (.stopReturn rfl rfl)
  exact hreturn.step (.resume (.inr ⟨0, rfl⟩))

/-- A request can be completed without a group, and a queue that was resumed between the call of
`StopWriterQueue` and its return fills again without another resume. -/
theorem writer_queue_abandons_and_refills :
    (∃ s r, anyOutcome.Reachable s ∧ r ∈ s.admitted ∧
      s.completions.countP (fun c => c.1 = r) = 1 ∧ s.groups.countP (fun g => r ∈ g) = 0) ∧
    ∃ s s₁ s₂, anyOutcome.Reachable s ∧ anyOutcome.step s s₁ ∧ s.callers 1 = .stopWaiting 0 ∧
      s₁.callers 1 = .stopped 0 ∧ anyOutcome.Run s₁ s₂ ∧ s₂.resumes = s₁.resumes ∧
      s₂.queue ≠ [] := by
  let _ := entrySize80
  refine ⟨⟨aborted, ⟨1, onePut, 82⟩, reachable_aborted, by decide, by decide, by decide⟩, ?_⟩
  have hsubmit : anyOutcome.step (resumed.setCaller 1 (.stopped 0))
      ((resumed.setCaller 1 (.stopped 0)).setCaller 3 (.submitting onePut 82)) :=
    .submit rfl (by decide) validate_onePut (by decide)
  refine ⟨resumed, resumed.setCaller 1 (.stopped 0),
    ((resumed.setCaller 1 (.stopped 0)).setCaller 3 (.submitting onePut 82)).enqueue {} 3 onePut 82,
    reachable_resumed, .stopReturn rfl rfl, rfl, rfl, ?_, rfl, by decide⟩
  exact .head hsubmit (.tail .refl (.enqueue rfl rfl (by decide)))

end TinyLsm.WriterQueue
