import TinyLsm.Db.Lives

/-!
# Writes take effect in order

The threads of `SubmitWrite` over the engine. The requests that took effect are some of the admitted
ones, in the order of their admission; a request that was acknowledged is one of them, and one that
was answered before it took effect never does.
-/

namespace TinyLsm

/-- The operation that an entry stores. -/
def InternalEntry.operation (e : InternalEntry) : Operation :=
  match e.type with
  | .value => .put e.userKey e.value
  | .tombstone => .delete e.userKey

theorem map_operation_assignSequences (sequence : ℕ) (ops : List Operation) :
    (assignSequences sequence ops).map InternalEntry.operation = ops := by
  induction ops generalizing sequence with
  | nil => rfl
  | cons op ops ih =>
    rw [assignSequences, List.map_cons, ih]
    cases op <;> rfl

/-- Completions are never taken back. -/
theorem WriterQueue.Step.completions_prefix {σ : Type} [EntrySize] {o : Options}
    {apply : σ → List WriterRequest → σ → Outcome → Prop} {env : σ → σ → Prop} {s s' : State σ}
    (hstep : Step o apply env s s') : s.completions <+: s'.completions := by
  cases hstep with
  | finish => exact List.prefix_append _ _
  | abort =>
    simp only [State.abort]
    rw [List.append_assoc]
    exact List.prefix_append _ _
  | @applied _ _ _ _ outcome => cases outcome <;> exact List.prefix_refl _
  | resume =>
    unfold State.resume
    split <;> exact List.prefix_refl _
  | invalid | empty | oversized | submit | wait | reject | enqueue | follow | stepDown | select
  | stop | stopReturn | close | next | env => exact List.prefix_refl _

/-! ## Stores that log what they commit -/

/-- A store under the writer queue: a group is committed behind the log or refused with an error,
and whatever else happens leaves the log. -/
structure LoggedStore (σ : Type) where
  log : σ → List InternalEntry
  commits : σ → List WriterRequest → σ → Status → Prop
  refuses : σ → List WriterRequest → σ → Status → Prop
  moves : σ → σ → Prop
  log_commits {x y : σ} {group : List WriterRequest} {status : Status}
    (h : commits x group y status) : ∃ entries, log y = log x ++ entries ∧
      entries.map InternalEntry.operation = group.flatMap WriterRequest.batch
  log_refuses {x y : σ} {group : List WriterRequest} {status : Status}
    (h : refuses x group y status) : log y = log x
  refuses_error {x y : σ} {group : List WriterRequest} {status : Status}
    (h : refuses x group y status) (hne : group ≠ []) : status.ok = false
  log_moves {x y : σ} (h : moves x y) : log y = log x

/-- A store with what was in its log in the beginning, and the requests that took effect since. -/
structure Chronicle (σ : Type) where
  store : σ
  recovered : List InternalEntry
  committed : List WriterRequest

namespace LoggedStore

variable {σ : Type} (L : LoggedStore σ)

/-- `ApplyWriteGroup` on the store. -/
inductive Applies : Chronicle σ → List WriterRequest → Chronicle σ → Outcome → Prop
  | commit {l : Chronicle σ} {group : List WriterRequest} {y : σ} {status : Status}
      (h : L.commits l.store group y status) :
      Applies l group ⟨y, l.recovered, l.committed ++ group⟩ (.returned status)
  | refuse {l : Chronicle σ} {group : List WriterRequest} {y : σ} {status : Status}
      (h : L.refuses l.store group y status) :
      Applies l group ⟨y, l.recovered, l.committed⟩ (.returned status)

/-- The rest of the database. -/
inductive Moves : Chronicle σ → Chronicle σ → Prop
  | mk {l : Chronicle σ} {y : σ} (h : L.moves l.store y) : Moves l ⟨y, l.recovered, l.committed⟩

/-- A step of the store. -/
def Steps (x y : σ) : Prop :=
  (∃ group status, L.commits x group y status ∨ L.refuses x group y status) ∨ L.moves x y

/-- The writer queue over the store. -/
def clients [EntrySize] (o : Options) (initial : σ → Prop) :
    TransitionSystem (WriterQueue.State (Chronicle σ)) :=
  WriterQueue.system o L.Applies L.Moves fun l =>
    initial l.store ∧ l.recovered = L.log l.store ∧ l.committed = []

variable {L}

/-- What the writer queue and the store know of each other. -/
structure Agrees (L : LoggedStore σ) (s : WriterQueue.State (Chronicle σ)) : Prop where
  returned : ∀ p ∈ s.appliedGroups, p.2 ≠ .threw
  groups : ∃ groups : List (List WriterRequest), s.store.committed = groups.flatten ∧
    groups.Sublist (s.appliedGroups.map Prod.fst)
  acknowledged : ∀ group status, (group, .returned status) ∈ s.appliedGroups → status.ok →
    ∀ r ∈ group, r ∈ s.store.committed
  logged : ∃ entries, L.log s.store.store = s.store.recovered ++ entries ∧
    entries.map InternalEntry.operation = s.store.committed.flatMap WriterRequest.batch

section
variable [EntrySize] {o : Options} {initial : σ → Prop} {s s' : WriterQueue.State (Chronicle σ)}

/-- What a step does to the store: it applies the current group, or leaves what took effect. -/
theorem step_cases (ho : o.Accepted) (hs : (L.clients o initial).Reachable s)
    (hstep : (L.clients o initial).step s s') :
    (s'.appliedGroups = s.appliedGroups ∧ s'.store.recovered = s.store.recovered ∧
      s'.store.committed = s.store.committed ∧
      (s'.store.store = s.store.store ∨ L.moves s.store.store s'.store.store)) ∨
    ∃ status, s.current ≠ [] ∧ s'.store.recovered = s.store.recovered ∧
      s'.appliedGroups = s.appliedGroups ++ [(s.current, .returned status)] ∧
      ((L.commits s.store.store s.current s'.store.store status ∧
          s'.store.committed = s.store.committed ++ s.current) ∨
        (L.refuses s.store.store s.current s'.store.store status ∧
          s'.store.committed = s.store.committed)) := by
  rcases (WriterQueue.Inv.of_reachable ho hs).appliedGroups_step hstep with
    ⟨hgroups, hsame | hmoves⟩ | ⟨outcome, hne, hgroups, happly⟩
  · exact .inl ⟨hgroups, by rw [hsame], by rw [hsame], .inl (by rw [hsame])⟩
  · refine .inl ⟨hgroups, ?_⟩
    generalize s'.store = l at hmoves
    cases hmoves with
    | mk h => exact ⟨rfl, rfl, .inr h⟩
  · generalize s'.store = l at happly
    cases happly with
    | commit h => exact .inr ⟨_, hne, rfl, hgroups, .inl ⟨h, rfl⟩⟩
    | refuse h => exact .inr ⟨_, hne, rfl, hgroups, .inr ⟨h, rfl⟩⟩

theorem Agrees.step (ho : o.Accepted) (hs : (L.clients o initial).Reachable s)
    (hstep : (L.clients o initial).step s s') (ha : Agrees L s) : Agrees L s' := by
  obtain ⟨groups, hcommitted, hsub⟩ := ha.groups
  obtain ⟨entries, hlog, hops⟩ := ha.logged
  rcases step_cases ho hs hstep with
    ⟨hgroups, hrecovered, hsame, hstore⟩ | ⟨status, hne, hrecovered, hgroups, happly⟩
  -- no group was applied: the log and what took effect are as before
  · have hlog' : L.log s'.store.store = L.log s.store.store := by
      rcases hstore with heq | hmoves
      · rw [heq]
      · exact L.log_moves hmoves
    refine ⟨hgroups ▸ ha.returned, ⟨groups, hsame.trans hcommitted, hgroups ▸ hsub⟩, ?_,
      ⟨entries, by rw [hlog', hlog, hrecovered], by rw [hops, hsame]⟩⟩
    rw [hgroups, hsame]
    exact ha.acknowledged
  have hreturned : ∀ p ∈ s'.appliedGroups, p.2 ≠ .threw := by
    intro p hp
    rw [hgroups] at hp
    rcases List.mem_append.mp hp with hp | hp
    · exact ha.returned p hp
    · rw [List.mem_singleton.mp hp]
      simp
  have hsub' : (groups ++ [s.current]).Sublist (s'.appliedGroups.map Prod.fst) := by
    rw [hgroups, List.map_append]
    exact hsub.append (List.Sublist.refl _)
  rcases happly with ⟨hcommits, heq⟩ | ⟨hrefuses, heq⟩
  -- the group took effect: its requests and their operations come last
  · obtain ⟨added, hadded, haddedOps⟩ := L.log_commits hcommits
    refine ⟨hreturned, ⟨groups ++ [s.current], by simp [heq, hcommitted], hsub'⟩, ?_,
      ⟨entries ++ added, by rw [hadded, hlog, hrecovered, List.append_assoc], ?_⟩⟩
    · intro group st hmem hok r hr
      rw [hgroups] at hmem
      rw [heq]
      rcases List.mem_append.mp hmem with hmem | hmem
      · exact List.mem_append_left _ (ha.acknowledged group st hmem hok r hr)
      · obtain ⟨rfl, -⟩ := Prod.mk.inj (List.mem_singleton.mp hmem)
        exact List.mem_append_right _ hr
    · rw [List.map_append, hops, haddedOps, heq, List.flatMap_append]
  -- the group was refused: its answer is an error, so nothing is acknowledged
  · refine ⟨hreturned, ⟨groups, heq.trans hcommitted,
      (List.sublist_append_left groups _).trans hsub'⟩, ?_,
      ⟨entries, by rw [L.log_refuses hrefuses, hlog, hrecovered], by rw [hops, heq]⟩⟩
    intro group st hmem hok r hr
    rw [hgroups] at hmem
    rcases List.mem_append.mp hmem with hmem | hmem
    · rw [heq]
      exact ha.acknowledged group st hmem hok r hr
    · simp only [List.mem_singleton, Prod.mk.injEq, Outcome.returned.injEq] at hmem
      rw [hmem.2, L.refuses_error hrefuses hne] at hok
      cases hok

theorem Agrees.of_reachable (ho : o.Accepted) (hs : (L.clients o initial).Reachable s) :
    Agrees L s := by
  refine hs.induction (Agrees L) ?_ fun s s' hs hstep ha => ha.step ho hs hstep
  rintro s ⟨l, ⟨-, hrecovered, hcommitted⟩, rfl⟩
  refine ⟨by simp [WriterQueue.State.appliedGroups], ⟨[], by simp [hcommitted], by simp⟩,
    by simp [WriterQueue.State.appliedGroups], ⟨[], by simp [hrecovered], by simp [hcommitted]⟩⟩

/-- The store moves by its own steps. -/
theorem exists_run (ho : o.Accepted) (hs : (L.clients o initial).Reachable s) :
    ∃ x, initial x ∧ Relation.ReflTransGen L.Steps x s.store.store := by
  refine hs.induction
    (fun s => ∃ x, initial x ∧ Relation.ReflTransGen L.Steps x s.store.store) ?_ ?_
  · rintro s ⟨l, ⟨hinitial, -⟩, rfl⟩
    exact ⟨l.store, hinitial, .refl⟩
  · rintro s s' hs hstep ⟨x, hx, hrun⟩
    rcases step_cases ho hs hstep with ⟨-, -, -, heq | hmoves⟩ | ⟨status, -, -, -, happly⟩
    · exact ⟨x, hx, heq ▸ hrun⟩
    · exact ⟨x, hx, hrun.tail (.inr hmoves)⟩
    · exact ⟨x, hx, hrun.tail (.inl ⟨s.current, status, happly.imp And.left And.left⟩)⟩

/-- What took effect is some of what was admitted, in that order. -/
theorem Agrees.committed_sublist (ha : Agrees L s) (ho : o.Accepted)
    (hs : (L.clients o initial).Reachable s) : s.store.committed.Sublist s.admitted := by
  obtain ⟨groups, hcommitted, hsub⟩ := ha.groups
  rw [(WriterQueue.Inv.of_reachable ho hs).admitted_of_applied hs ha.returned, hcommitted]
  exact hsub.flatten.trans (List.sublist_append_left _ _)

/-- What was answered is not in the group of the leader. -/
theorem not_mem_current_of_completed (ho : o.Accepted) (hs : (L.clients o initial).Reachable s)
    {r : WriterRequest} {status : Status} (hr : (r, status) ∈ s.completions) : r ∉ s.current := by
  have hinv := WriterQueue.Inv.of_reachable ho hs
  -- an answered request was disposed of, and no request is admitted twice
  have hdisposed : r ∈ s.disposed.flatMap WriterQueue.Disposal.requests := by
    rw [← hinv.map_fst_completions]
    exact List.mem_map_of_mem hr
  have hnodup := hinv.nodup_admitted
  rw [hinv.admitted_eq, List.append_assoc] at hnodup
  exact fun hcurrent =>
    List.disjoint_of_nodup_append hnodup hdisposed (List.mem_append_left _ hcurrent)

/-- A run adds to what took effect, and nothing that was answered before. -/
theorem run_committed (ho : o.Accepted) (hs : (L.clients o initial).Reachable s)
    (hrun : (L.clients o initial).Run s s') :
    s.completions <+: s'.completions ∧ ∃ later, s'.store.committed = s.store.committed ++ later ∧
      ∀ r ∈ later, ∀ status, (r, status) ∉ s.completions := by
  induction hrun with
  | refl => exact ⟨List.prefix_refl _, [], (List.append_nil _).symm, by simp⟩
  | @tail s' s'' hrun hstep ih =>
    obtain ⟨hcompletions, later, hcommitted, hlater⟩ := ih
    have hs' := hs.run hrun
    refine ⟨hcompletions.trans (WriterQueue.Step.completions_prefix hstep), ?_⟩
    rcases step_cases ho hs' hstep with
      ⟨-, -, heq, -⟩ | ⟨status, -, -, -, ⟨-, heq⟩ | ⟨-, heq⟩⟩
    · exact ⟨later, heq.trans hcommitted, hlater⟩
    -- only the current group is added, and the leader has not answered it yet
    · refine ⟨later ++ s'.current, by rw [heq, hcommitted, List.append_assoc], ?_⟩
      intro r hr st hst
      rcases List.mem_append.mp hr with hr | hr
      · exact hlater r hr st hst
      · exact not_mem_current_of_completed ho hs' (hcompletions.subset hst) hr
    · exact ⟨later, heq.trans hcommitted, hlater⟩

end

/-- What the clients may rely on, between two states. -/
structure InOrder (L : LoggedStore σ) (s s' : WriterQueue.State (Chronicle σ)) : Prop where
  /-- What took effect stays, before everything that takes effect later. -/
  persists : s.store.committed <+: s'.store.committed
  /-- Each request takes effect at most once, in the order of the admissions. -/
  admitted : s'.store.committed.Sublist s'.admitted ∧ s'.admitted.Nodup
  /-- An acknowledged request took effect. -/
  acknowledged : ∀ r status, (r, status) ∈ s'.completions → status.ok → r ∈ s'.store.committed
  /-- A request that was answered without having taken effect never does. -/
  final : ∀ r status, (r, status) ∈ s.completions → r ∈ s'.store.committed →
    r ∈ s.store.committed
  /-- The log holds the operations of what took effect, and nothing else. -/
  logged : ∃ entries, L.log s'.store.store = s'.store.recovered ++ entries ∧
    entries.map InternalEntry.operation = s'.store.committed.flatMap WriterRequest.batch

theorem inOrder [EntrySize] {o : Options} {initial : σ → Prop}
    {s s' : WriterQueue.State (Chronicle σ)} (ho : o.Accepted)
    (hs : (L.clients o initial).Reachable s) (hrun : (L.clients o initial).Run s s') :
    L.InOrder s s' := by
  have hs' := hs.run hrun
  have ha' : Agrees L s' := .of_reachable ho hs'
  have hinv' := WriterQueue.Inv.of_reachable ho hs'
  obtain ⟨-, later, hcommitted, hlater⟩ := run_committed ho hs hrun
  refine ⟨⟨later, hcommitted.symm⟩, ⟨ha'.committed_sublist ho hs', hinv'.nodup_admitted⟩, ?_, ?_,
    ha'.logged⟩
  -- an answer is the status of the group that the request was in
  · intro r status hr hok
    obtain ⟨group, hgroup, hmem⟩ := hinv'.group_of_completion hs' ha'.returned hr
    exact ha'.acknowledged group status hgroup hok r hmem
  · intro r status hr hmem
    rw [hcommitted] at hmem
    exact (List.mem_append.mp hmem).resolve_right fun hr' => hlater r hr' status hr

/-- Two threads put a value each, in one group, which is answered. -/
def answered (x y : σ) (recovered : List InternalEntry) : WriterQueue.State (Chronicle σ) :=
  ((WriterQueue.combined ⟨x, recovered, []⟩).applied 0 WriterQueue.firstRequest
    WriterQueue.bothPuts ⟨y, recovered, WriterQueue.bothPuts⟩ (.returned .okay)).finish 0
    WriterQueue.firstRequest WriterQueue.bothPuts .okay

theorem run_answered {x y : σ} (initial : σ → Prop)
    (hcommit : L.commits x WriterQueue.bothPuts y .okay) :
    letI := entrySize80
    (L.clients {} initial).Run { store := ⟨x, L.log x, []⟩ } (answered x y (L.log x)) := by
  let _ := entrySize80
  have hcombined : (L.clients {} initial).Run { store := ⟨x, L.log x, []⟩ }
      (WriterQueue.combined ⟨x, L.log x, []⟩) := WriterQueue.run_combined _
  have happlied : (L.clients {} initial).Run { store := ⟨x, L.log x, []⟩ }
      (WriterQueue.State.applied _ 0 WriterQueue.firstRequest
        WriterQueue.bothPuts ⟨y, L.log x, WriterQueue.bothPuts⟩ (.returned .okay)) :=
    hcombined.tail (.applied (WriterQueue.combined_caller _) (.commit hcommit))
  exact happlied.tail (.finish rfl)

end LoggedStore

/-! ## The engine in one life -/

theorem Handle.not_commits_error [EntrySize] {o : Options} {h h' : Handle}
    {group : List WriterRequest} {f : WriteFaults} {status : Status}
    (hr : h.applyWriteGroup o group f = some (h', status)) (hnot : ¬ h.Commits o group f h')
    (hne : group ≠ []) : status.ok = false := by
  cases applyWriteGroup_writesTo hr with
  | empty hgroup => exact absurd hgroup hne
  | refused _ hfail => exact hfail
  | torn _ _ _ _ hfail => exact hfail
  | unsynced _ _ _ _ _ hfail => exact hfail
  | @stored h₁ s₁ bytes _ _ hprepare hok hencode _ hstore =>
    cases hm : h₁.memtable.applyBatch (groupEntries h₁.nextSequence group) with
    | ok m => exact absurd ⟨h₁, s₁, bytes, m, status, hprepare, hok, hencode, hm, hstore⟩ hnot
    | error s =>
      obtain ⟨d, t, p, heq⟩ := onlyFiles_logged o h₁ bytes
      rw [heq] at hstore
      simp only [storeEntries, hm] at hstore
      cases hstore
      exact MemTable.applyBatch_error hm

/-- A new database stores a group of two puts, and finds it behind a power loss. -/
theorem Handle.exists_commits_puts :
    let _ := entrySize80
    ∃ h₀ h h' : Handle, Handle.open {} .empty ⟨false, []⟩ ⟨none, fun _ => false⟩ = .ok h₀ ∧
      h₀.versions = [] ∧ h₀.applyWriteGroup {} WriterQueue.bothPuts {} = some (h, .okay) ∧
      h₀.Commits {} WriterQueue.bothPuts {} h ∧ h.checkOpen.ok = true ∧
      h.get {} [1] none = .ok [3] ∧ Handle.open {} ((h.trace.foldl DirOp.apply .empty).cut 0)
        ⟨false, []⟩ ⟨none, fun _ => false⟩ = .ok h' ∧
      h'.checkOpen.ok = true ∧ h'.get {} [1] none = .ok [3] := by
  intro _
  have htests : ((Handle.open {} .empty ⟨false, []⟩ ⟨none, fun _ => false⟩).toOption.bind fun h₀ =>
      (h₀.applyWriteGroup {} WriterQueue.bothPuts {}).bind fun r =>
        (Handle.open {} ((r.1.trace.foldl DirOp.apply .empty).cut 0) ⟨false, []⟩
          ⟨none, fun _ => false⟩).toOption.map fun h' =>
            ((h₀.versions.length, r.2), (r.1.checkOpen.ok, r.1.get {} [1] none),
              h'.checkOpen.ok, h'.get {} [1] none)) =
      some ((0, .okay), (true, .ok [3]), true, .ok [3]) := by
    decide +kernel
  obtain ⟨h₀, hopen, htests⟩ := Option.bind_eq_some_iff.mp htests
  obtain ⟨⟨h, status⟩, happly, htests⟩ := Option.bind_eq_some_iff.mp htests
  obtain ⟨h', hreopen, htests⟩ := Option.map_eq_some_iff.mp htests
  simp only [Prod.mk.injEq] at htests
  obtain ⟨⟨hversions, rfl⟩, ⟨hok, hget⟩, hok', hget'⟩ := htests
  have hcommits : h₀.Commits {} WriterQueue.bothPuts {} h := by
    by_contra hnot
    cases Handle.not_commits_error happly hnot (by simp)
  exact ⟨h₀, h, h', open_eq_ok_of_toOption hopen, List.length_eq_zero_iff.mp hversions, happly,
    hcommits, hok, hget, open_eq_ok_of_toOption hreopen, hok', hget'⟩

namespace History

section
variable [EntrySize]

/-- The engine under the writer queue. -/
def store (o : Options) : LoggedStore History where
  log := log
  commits g group g' status := ∃ f h,
    g.system.handle.applyWriteGroup o group f = some (h, status) ∧
    g.system.handle.Commits o group f h ∧
    g' = ⟨{ g.system with handle := h },
      g.log ++ groupEntries g.system.handle.nextSequence group, g.held⟩
  refuses g group g' status := ∃ f h,
    g.system.handle.applyWriteGroup o group f = some (h, status) ∧
    ¬ g.system.handle.Commits o group f h ∧ g' = ⟨{ g.system with handle := h }, g.log, g.held⟩
  moves g g' := Step o false g g' ∧ g'.log = g.log
  log_commits := by
    rintro g g' group status ⟨f, h, -, -, rfl⟩
    exact ⟨_, rfl, map_operation_assignSequences _ _⟩
  log_refuses := by
    rintro g g' group status ⟨f, h, -, -, rfl⟩
    rfl
  refuses_error := by
    rintro g g' group status ⟨f, h, happly, hnot, rfl⟩ hne
    exact Handle.not_commits_error happly hnot hne
  log_moves h := h.2

variable {o : Options} {s s' : WriterQueue.State (Chronicle History)}

theorem steps_step {g g' : History} (h : (store o).Steps g g') : Step o false g g' := by
  rcases h with
    ⟨group, status, ⟨f, h, happly, hcommit, rfl⟩ | ⟨f, h, happly, hnot, rfl⟩⟩ | ⟨hstep, -⟩
  · exact .commit f (by simp) happly hcommit
  · exact .refuse f (by simp) happly hnot
  · exact hstep

/-- **Writes are linearizable.** Between any two states of a run of the clients, the worker,
`Compact` and `Close`, with or without failing file operations, the writes take effect in order; and
`Get` answers with the last operation on the key. -/
theorem writes_are_linearizable (ho : o.Accepted) (hcache : o.blockCacheBytes ≠ 0)
    (hs : ((store o).clients o (transitions o false).init).Reachable s)
    (hrun : ((store o).clients o (transitions o false).init).Run s s') :
    (store o).InOrder s s' ∧ (s'.store.store.system.handle.checkOpen.ok → ∀ key,
      s'.store.store.system.handle.get o key none =
        readResult (lastOn s'.store.store.log key)) := by
  refine ⟨LoggedStore.inOrder ho hs hrun, fun hopen key => ?_⟩
  obtain ⟨g, hinit, hsteps⟩ := LoggedStore.exists_run ho (hs.run hrun)
  have hg : (transitions o false).Reachable s'.store.store :=
    (TransitionSystem.Reachable.of_init hinit).run
      (hsteps.lift id fun _ _ hstep => steps_step hstep)
  obtain ⟨d₀, readers, hk, hr⟩ := Refines.reachable hg
  exact Life.get_eq_lastOn hr hk.layered hcache hopen key

end

/-- Two threads put a value each into a new database, and the second value stays. -/
theorem writes_are_linearizable_two_puts :
    let _ := entrySize80
    ∃ s s', ((store {}).clients {} (transitions {} false).init).Reachable s ∧
      ((store {}).clients {} (transitions {} false).init).Run s s' ∧ (store {}).InOrder s s' ∧
      s.store.committed = [] ∧ s'.store.committed = WriterQueue.bothPuts ∧
      readResult (lastOn s'.store.store.log [1]) = .ok [3] := by
  intro _
  obtain ⟨h₀, h, -, hopen, hversions, happly, hcommits, hok, hget, -⟩ := Handle.exists_commits_puts
  let g : History := ⟨System.started h₀, [], []⟩
  have hinit : (transitions {} false).init g :=
    ⟨.empty, ⟨false, []⟩, ⟨none, fun _ => false⟩, h₀, .new rfl fun _ => rfl, fun _ => rfl, hopen,
      rfl, by rw [hversions], .nil, rfl⟩
  have hs : ((store {}).clients {} (transitions {} false).init).Reachable
      { store := ⟨g, (store {}).log g, []⟩ } := .of_init ⟨_, ⟨hinit, rfl, rfl⟩, rfl⟩
  have hrun := LoggedStore.run_answered (L := store {}) (x := g) (transitions {} false).init
    ⟨{}, h, happly, hcommits, rfl⟩
  obtain ⟨horder, hanswer⟩ :=
    writes_are_linearizable WriterQueue.accepted_default (by decide) hs hrun
  exact ⟨_, _, hs, hrun, horder, rfl, rfl, (hanswer hok [1]).symm.trans hget⟩

end History

/-! ## The engine through its lives -/

namespace Live

variable [EntrySize]

/-- The engine of a life under the writer queue. -/
def store (o : Options) : LoggedStore Live where
  log l := l.history.log
  commits l group l' status := Step o l l' ∧ ∃ h,
    l.handle.applyWriteGroup o group {} = some (h, status) ∧ l.handle.Commits o group {} h ∧
    l'.history = ⟨{ l.history.system with handle := h },
      l.history.log ++ groupEntries l.handle.nextSequence group, l.history.held⟩
  refuses l group l' status := Step o l l' ∧ ∃ f h,
    l.handle.applyWriteGroup o group f = some (h, status) ∧ ¬ l.handle.Commits o group f h ∧
    l'.history = ⟨{ l.history.system with handle := h }, l.history.log, l.history.held⟩
  moves l l' := Step o l l' ∧ l'.history.log = l.history.log
  log_commits := by
    rintro l l' group status ⟨-, h, -, -, heq⟩
    exact ⟨_, congrArg History.log heq, map_operation_assignSequences _ _⟩
  log_refuses := by
    rintro l l' group status ⟨-, f, h, -, -, heq⟩
    rw [heq]
  refuses_error := by
    rintro l l' group status ⟨-, f, h, happly, hnot, -⟩ hne
    exact Handle.not_commits_error happly hnot hne
  log_moves h := h.2

theorem steps_step {o : Options} {l l' : Live} (h : (store o).Steps l l') : Step o l l' := by
  rcases h with ⟨group, status, h | h⟩ | h <;> exact h.1

end Live

namespace Life

section
variable [EntrySize] {o : Options}

/-- The clients of a database in one of its lives. -/
def clients (o : Options) : TransitionSystem (WriterQueue.State (Chronicle Live)) :=
  (Live.store o).clients o fun l => (transitions o).Reachable (.running l)

end

end Life

end TinyLsm
