import TinyLsm.Db.Survival

/-!
# The lives of a database

A database is opened, used and left by `Close`, by a crash of the process or by a power loss, any number
of times. A crash may come between any two file operations, also in `Open`, and behind a write that
failed at its WAL.
-/

namespace TinyLsm

/-! ## A life -/

/-- The directory that was opened, the history of the handle in use, and the group whose write failed
at the WAL, if there is one. -/
structure Live where
  opened : Directory
  history : History
  failed : List InternalEntry

namespace Live

/-- The handle in use. -/
def handle (l : Live) : Handle := l.history.system.handle

section
variable [EntrySize] (o : Options)

/-- A step of a life: no file operation fails, except that one write may fail at its WAL, behind which
nothing more is written. -/
inductive Step : Live → Live → Prop
  | quiet {l : Live} {g : History} (hstep : History.Step o true l.history g)
      (hquiet : System.QuietStep o l.history.system g.system)
      (hissue : l.failed ≠ [] → g.system.handle.nextSequence = l.handle.nextSequence) :
      Step l ⟨l.opened, g, l.failed⟩
  | fail {l : Live} {group : List WriterRequest} {f : WriteFaults} {h : Handle} {status : Status}
      (hfailed : l.failed = []) (hbefore : f.rotateBefore = none) (hafter : f.rotateAfter = none)
      (happly : l.handle.applyWriteGroup o group f = some (h, status))
      (hcommit : ¬ l.handle.Commits o group f h) :
      Step l ⟨l.opened, ⟨{ l.history.system with handle := h }, l.history.log, l.history.held⟩,
        groupEntries l.handle.nextSequence group⟩

end

end Live

/-- A database that is in use, or that was left: then with the operations committed in its lives so
far, and those that a crash may have cut short. -/
inductive Life where
  | running (live : Live)
  | down (dir : Directory) (log pending : List InternalEntry)

namespace Life

section
variable [EntrySize] (o : Options)

/-- A step of a database through its lives. Each crash is of a kind of its own. -/
inductive Step : Life → Life → Prop
  | run {l l' : Live} (hstep : Live.Step o l l') : Step (.running l) (.running l')
  /-- A crash between two steps, or the end behind `Close`. -/
  | halt {l : Live} {c : Crash} {d : Directory} (hcrash : c.Survivable o l.opened)
      (hleaves : c.Leaves l.opened l.handle.trace d) :
      Step (.running l) (.down d l.history.log l.failed)
  /-- A crash between two file operations of a step. -/
  | crash {l l' : Live} {c : Crash} {ops before : List DirOp} {d : Directory}
      (hstep : Live.Step o l l') (htrace : l'.handle.trace = l.handle.trace ++ ops)
      (hbefore : before <+: ops) (hcrash : c.Survivable o l.opened)
      (hleaves : c.Leaves l.opened (l.handle.trace ++ before) d) :
      Step (.running l) (.down d l.history.log
        (l'.history.log.drop l.history.log.length ++ l'.failed))
  | «open» {d : Directory} {log pending : List InternalEntry} {listing : Listing}
      {sweep : SweepFaults} {h : Handle} (hsweep : sweep.fails = fun _ => false)
      (hopen : Handle.open o d listing sweep = .ok h) :
      Step (.down d log pending)
        (.running ⟨d, ⟨System.started h, log ++ recoveredOf pending h, []⟩, []⟩)
  /-- A crash between two file operations of `Open`. -/
  | crashOpen {d d' : Directory} {log pending : List InternalEntry} {listing : Listing}
      {sweep : SweepFaults} {h : Handle} {c : Crash} {before : List DirOp}
      (hopen : Handle.open o d listing sweep = .ok h) (hbefore : before <+: h.trace)
      (hcrash : c.Survivable o d) (hleaves : c.Leaves d before d') :
      Step (.down d log pending) (.down d' log pending)

/-- The lives of a new database. -/
def transitions : TransitionSystem Life where
  init s := ∃ d listing sweep h, d.manifest = none ∧ (∀ number, d.files (.sst number) = none) ∧
    sweep.fails = (fun _ => false) ∧ Handle.open o d listing sweep = .ok h ∧
    s = .running ⟨d, ⟨System.started h, [], []⟩, []⟩
  step := Step o

end

end Life

/-! ## Directories of a life -/

section
variable [EntrySize] {o : Options}

/-- A step without failing file operations is a step. -/
theorem System.Step.relax {faultFree : Bool} {s s' : System} (hstep : System.Step o true s s') :
    System.Step o faultFree s s' := by
  cases hstep with
  | write f hf happly => exact .write f (fun _ => hf rfl) happly
  | getSnapshot hopen => exact .getSnapshot hopen
  | releaseSnapshot sequence => exact .releaseSnapshot sequence
  | workerExit hworker hstop => exact .workerExit hworker hstop
  | workerClaim hworker hstop hrequest => exact .workerClaim hworker hstop hrequest
  | flushBegin sweep hf hworker hr => exact .flushBegin sweep (fun _ => hf rfl) hworker hr
  | flushBuild fault hf hworker hphase hr =>
    exact .flushBuild fault (fun _ => hf rfl) hworker hphase hr
  | flushCommit fault hf hworker hr => exact .flushCommit fault (fun _ => hf rfl) hworker hr
  | flushRemove fails hf hworker => exact .flushRemove fails (fun _ => hf rfl) hworker
  | compactBegin fault hf hworker hr => exact .compactBegin fault (fun _ => hf rfl) hworker hr
  | @compactMerge job fault hf hworker =>
    have hmerge : System.Step o faultFree s _ := .compactMerge fault (fun _ => hf rfl) hworker
    obtain rfl := hf rfl
    cases hmerged : mergedEntries job.tables with
    | ok merged => simpa only [hmerged] using hmerge
    | error status => simpa only [hmerged] using hmerge
  | compactBuild fault hf hworker hphase hr =>
    exact .compactBuild fault (fun _ => hf rfl) hworker hphase hr
  | compactCommit fault fails hf hworker hr =>
    exact .compactCommit fault fails (fun _ => hf rfl) hworker hr
  | compactDrop fault fails hf hworker hr =>
    exact .compactDrop fault fails (fun _ => hf rfl) hworker hr
  | workerException _ hf => cases hf
  | workerAccount hworker => exact .workerAccount hworker
  | compactCall ht => exact .compactCall ht
  | compactResume ht hwait => exact .compactResume ht hwait
  | compactRun f hf ht hr => exact .compactRun f (fun _ => hf rfl) ht hr
  | closeCall ht => exact .closeCall ht
  | closeRound fault hf ht hr => exact .closeRound fault (fun _ => hf rfl) ht hr
  | closeWake ht => exact .closeWake ht
  | closeSync fault hf ht hr => exact .closeSync fault (fun _ => hf rfl) ht hr
  | closeJoined fault hf ht hworker hr => exact .closeJoined fault (fun _ => hf rfl) ht hworker hr
  | next ht => exact .next ht

omit [EntrySize] in
theorem Directory.Survives.files_sst {d d' : Directory} (h : d.Survives d') (hs : d.Sound) (n : ℕ) :
    d'.files (.sst n) = d.files (.sst n) := by
  cases hf : d.files (.sst n) with
  | some f => exact h.table hs hf
  | none =>
    have hrel := h.files (.sst n)
    rw [hf] at hrel
    cases hf' : d'.files (.sst n) with
    | none => rfl
    | some f' =>
      rw [hf'] at hrel
      cases hrel

/-- The program wrote what a crash leaves of a directory of a life. -/
theorem Directory.Written.leaves {c : Crash} {d d' : Directory} {listing : Listing} {sweep : SweepFaults}
    {h : Handle} {s : System} {ops rest : List DirOp} (hd : d.Written)
    (hopen : Handle.open o d listing sweep = .ok h)
    (hrun : (System.system o false).Run (System.started h) s) (hops : ops <+: s.handle.trace)
    (hs : ∀ before, before <+: ops → (before.foldl DirOp.apply d).Sound)
    (ho : d.Orderly (ops ++ rest)) (hleaves : c.Leaves d ops d') : d'.Written := by
  -- the tables are those of an earlier moment, and `Written` says nothing of the other files
  have hearlier : ∀ before, before <+: ops → d'.manifest = (before.foldl DirOp.apply d).manifest →
      (∀ n, d'.files (.sst n) = (before.foldl DirOp.apply d).files (.sst n)) → d'.Written := by
    intro before hbefore hmanifest hfiles
    have hcut := Directory.survives_cut (before.foldl DirOp.apply d) 0
    refine .unopened (.left hd hopen hrun (hbefore.trans hops) hcut) hmanifest fun n => ?_
    rw [hfiles n, hcut.files_sst (hs before hbefore) n]
  cases c with
  | process =>
    obtain rfl : d' = ops.foldl DirOp.apply d := hleaves
    exact hearlier ops (List.prefix_refl _) rfl fun _ => rfl
  | powerLoss =>
    obtain ⟨d₁, hl, hsurvives⟩ := hleaves
    obtain ⟨before, hbefore, hmanifest, hfiles⟩ := hl.tables ho
    refine hearlier before hbefore (hsurvives.manifest.trans hmanifest) fun n => ?_
    rw [hsurvives.files_sst (hl.sound ho hs) n, hfiles n]

end

/-! ## The invariant of a life -/

section
variable [EntrySize] {o : Options} {l l' : Live}

/-- What holds in every state of a life. -/
structure Live.Inv (o : Options) (l : Live) : Prop where
  origin : ∃ listing sweep h, l.opened.Written ∧ Handle.open o l.opened listing sweep = .ok h ∧
    (System.system o false).Run (System.started h) l.history.system
  orderly : l.opened.Orderly l.handle.trace
  refines : History.Refines l.history
  present : Present l.handle l.history.system.worker
  zero : l.handle.memtable.EmptyIsZero
  recovers : ∃ left, l.handle.dir.Recovers o (l.opened.Durable o) l.handle left ∧
    (left.getD [] = [] ∨ left = some l.failed) ∧ (l.failed = [] → left = none)
  issued : ∀ e ∈ l.failed, l.handle.nextSequence ≤ e.sequence

namespace Live

theorem Inv.kept (hi : Inv o l) : ∃ readers, Kept o l.opened readers l.history.system := by
  obtain ⟨listing, sweep, h, hd, hopen, hrun⟩ := hi.origin
  exact Kept.of_run hd hopen hrun

theorem Inv.replayed (hi : Inv o l) : l.handle.trace.foldl DirOp.apply l.opened = l.handle.dir := by
  obtain ⟨readers, hk⟩ := hi.kept
  exact hk.allocated.always.replayed

/-- A step that passes on goes on orderly. -/
theorem Inv.orderly_passes (hi : Inv o l) {P : Directory → Prop} {h : Handle}
    (hpasses : l.handle.Passes P h) : l.opened.Orderly h.trace := by
  obtain ⟨ops, htrace, -, horderly, -⟩ := hpasses
  rw [htrace]
  exact hi.orderly.append (hi.replayed.symm ▸ horderly)

theorem Inv.holds (hi : Inv o l) : l.handle.Holds o l.history.log := by
  obtain ⟨readers, hk⟩ := hi.kept
  exact ⟨hk.layered.worker trivial, hk.compacts.space, hi.refines.sorted, hi.refines.distinct,
    hi.refines.below, fun key value q hq => hi.refines.visible key value q (.inr hq)⟩

/-- What a crash recovers behind the step: its commit, or the group whose write failed. -/
def pending (l l' : Live) : List InternalEntry :=
  l'.history.log.drop l.history.log.length ++ l'.failed

omit [EntrySize] in
theorem pending_commit (l l' : Live) {entries : List InternalEntry}
    (hlog : l'.history.log = l.history.log ++ entries) (hfailed : l'.failed = []) :
    l.pending l' = entries := by
  rw [pending, hlog, hfailed, List.drop_left, List.append_nil]

omit [EntrySize] in
theorem pending_same (l l' : Live) (hlog : l'.history.log = l.history.log) :
    l.pending l' = l'.failed := by
  rw [pending, hlog, List.drop_length, List.nil_append]

section
variable (ho : o.Accepted) (hroom : o.HasRoom)

/-- The files move from the old layers to the new ones, and the log stays. -/
theorem Inv.carried {g : History} (hi : Inv o l) (hstep : History.Step o true l.history g)
    (hquiet : System.QuietStep o l.history.system g.system) (hlog : g.log = l.history.log)
    (hnext : g.system.handle.nextSequence = l.handle.nextSequence)
    {left left' : Option (List InternalEntry)}
    (hleft : left.getD [] = [] ∨ left = some l.failed) (hnone : l.failed = [] → left = none)
    (hleft' : left' = left ∨ left' = none)
    (hc : Handle.Carries o (l.opened.Durable o) l.handle left g.system.handle left') :
    Inv o ⟨l.opened, g, l.failed⟩ ∧ Handle.Passes
      (·.Preserves o (l.opened.Durable o) l.history.log (l.pending ⟨l.opened, g, l.failed⟩)) l.handle
      g.system.handle := by
  obtain ⟨readers, hk⟩ := hi.kept
  have hleft'' : left'.getD [] = [] ∨ left' = some l.failed := by
    rcases hleft' with rfl | rfl
    · exact hleft
    · exact .inl rfl
  have hi' : Inv o ⟨l.opened, g, l.failed⟩ := by
    refine ⟨?_, hi.orderly_passes hc.passes, hi.refines.step hstep hk,
      hi.present.step hquiet hk.allocated hk.layered, hquiet.1.emptyIsZero hi.zero,
      ⟨left', hc.restores.wals, hleft'', fun hnil => ?_⟩, fun e he => ?_⟩
    · obtain ⟨listing, sweep, h, hd, hopen, hrun⟩ := hi.origin
      exact ⟨listing, sweep, h, hd, hopen, hrun.tail hquiet.1.relax⟩
    · exact hleft'.elim (fun heq => heq.trans (hnone hnil)) id
    · exact hnext.trans_le (hi.issued e he)
  refine ⟨hi', ?_⟩
  have hh' := hi'.holds
  rw [hlog] at hh'
  have hpasses := hc.preserves hi.holds hh' hleft hleft'' hi.issued hnext
  exact hpasses.mono fun _ hd => by rwa [pending_same l ⟨l.opened, g, l.failed⟩ hlog]

include ho hroom

theorem Inv.quiet {g : History} (hi : Inv o l) (hstep : History.Step o true l.history g)
    (hquiet : System.QuietStep o l.history.system g.system)
    (hissue : l.failed ≠ [] → g.system.handle.nextSequence = l.handle.nextSequence) :
    Inv o ⟨l.opened, g, l.failed⟩ ∧ Handle.Passes
      (·.Preserves o (l.opened.Durable o) l.history.log (l.pending ⟨l.opened, g, l.failed⟩)) l.handle
      g.system.handle := by
  obtain ⟨left, hw, hleft, hnone⟩ := hi.recovers
  obtain ⟨readers, hk⟩ := hi.kept
  have hpresent : Present l.history.system.handle l.history.system.worker := hi.present
  -- a step that is not a commit leaves the log
  have hother : g.log = l.history.log →
      g.system.handle.nextSequence = l.handle.nextSequence →
      Inv o ⟨l.opened, g, l.failed⟩ ∧ Handle.Passes
        (·.Preserves o (l.opened.Durable o) l.history.log (l.pending ⟨l.opened, g, l.failed⟩)) l.handle
        g.system.handle := by
    intro hlog hnext
    rcases hquiet.carries hk hpresent hw with ⟨group, status, happly⟩ | ⟨left', hleft', hc⟩
    · exact hi.carried hstep hquiet hlog hnext hleft hnone (.inl rfl)
        (Handle.carries_unissued happly hnext hi.present hi.holds hw)
    · exact hi.carried hstep hquiet hlog hnext hleft hnone hleft' hc
  cases hstep with
  | @commit group h status f hf happly hcommit =>
    obtain rfl := hf rfl
    have hnil : l.failed = [] := by
      by_contra hne
      exact (hcommit.next_lt hk.layered).ne' (hissue hne)
    obtain rfl := hnone hnil
    have hcarries := Handle.commitCarries_applyWriteGroup ho hroom And.left happly rfl rfl hpresent
      hi.holds hi.zero hw
    cases hcarries with
    | refused hnot => exact absurd hcommit hnot
    | failed hnot => exact absurd hcommit hnot
    | committed _ hh hr hpasses =>
      have hstep' : History.Step o true l.history
          ⟨{ l.history.system with handle := _ }, _, l.history.held⟩ :=
        .commit {} (fun _ => rfl) happly hcommit
      refine ⟨⟨?_, hi.orderly_passes hpasses, hi.refines.step hstep' hk,
        hi.present.step hquiet hk.allocated hk.layered, hquiet.1.emptyIsZero hi.zero,
        ⟨none, hr.wals, .inl rfl, fun _ => rfl⟩, ?_⟩, ?_⟩
      · obtain ⟨listing, sweep, h₀, hd, hopen, hrun⟩ := hi.origin
        exact ⟨listing, sweep, h₀, hd, hopen, hrun.tail hquiet.1.relax⟩
      · simp [hnil]
      · exact hpasses.mono fun _ hd => by
          rwa [pending_commit l ⟨l.opened, ⟨_, _ ++ _, _⟩, l.failed⟩ rfl hnil]
  | @refuse group h status f hf happly hcommit =>
    obtain rfl := hf rfl
    refine hother rfl ?_
    by_cases hnil : l.failed = []
    · obtain rfl := hnone hnil
      have hcarries := Handle.commitCarries_applyWriteGroup ho hroom And.left happly rfl rfl hpresent
        hi.holds hi.zero hw
      cases hcarries with
      | refused _ _ _ hnext => exact hnext
      | failed _ hf => exact absurd rfl hf
      | committed hyes => exact absurd hyes hcommit
    · exact hissue hnil
  | getSnapshot | releaseSnapshot => exact hother rfl rfl
  | maintain _ hsame => exact hother rfl hsame.1

/-- A write that fails at its WAL. -/
theorem Inv.fail {group : List WriterRequest} {f : WriteFaults} {h : Handle} {status : Status}
    (hi : Inv o l) (hfailed : l.failed = []) (hbefore : f.rotateBefore = none)
    (hafter : f.rotateAfter = none)
    (happly : l.handle.applyWriteGroup o group f = some (h, status))
    (hcommit : ¬ l.handle.Commits o group f h) :
    Inv o ⟨l.opened, ⟨{ l.history.system with handle := h }, l.history.log, l.history.held⟩,
        groupEntries l.handle.nextSequence group⟩ ∧
      Handle.Passes (·.Preserves o (l.opened.Durable o) l.history.log
        (groupEntries l.handle.nextSequence group)) l.handle h := by
  obtain ⟨left, hw, -, hnone⟩ := hi.recovers
  obtain rfl := hnone hfailed
  obtain ⟨readers, hk⟩ := hi.kept
  have hissued : ∀ e ∈ groupEntries l.handle.nextSequence group, l.handle.nextSequence ≤ e.sequence :=
    fun e he => (sequence_assignSequences he).1
  have hcarries := Handle.commitCarries_applyWriteGroup ho hroom And.left happly hbefore hafter
    hi.present hi.holds hi.zero hw
  have hinv : ∀ left, l.opened.Orderly h.trace → h.dir.Restores o (l.opened.Durable o) h left →
      (left.getD [] = [] ∨ left = some (groupEntries l.handle.nextSequence group)) →
      (groupEntries l.handle.nextSequence group = [] → left = none) →
      h.nextSequence = l.handle.nextSequence →
      Inv o ⟨l.opened, ⟨{ l.history.system with handle := h }, l.history.log, l.history.held⟩,
        groupEntries l.handle.nextSequence group⟩ := by
    intro left horderly hr hleft hnil hnext
    have hstep : History.Step o false l.history
        ⟨{ l.history.system with handle := h }, l.history.log, l.history.held⟩ :=
      .refuse f (by simp) happly hcommit
    refine ⟨?_, horderly, hi.refines.step hstep hk,
      Handle.present_applyWriteGroup happly hbefore hafter hi.present,
      Handle.emptyIsZero_applyWriteGroup happly hi.zero, ⟨left, hr.wals, hleft, hnil⟩, fun e he => ?_⟩
    · obtain ⟨listing, sweep, h₀, hd, hopen, hrun⟩ := hi.origin
      exact ⟨listing, sweep, h₀, hd, hopen, hrun.tail hstep.system_step⟩
    · exact hnext.trans_le (hissued e he)
  cases hcarries with
  | refused _ hc hh hnext =>
    exact ⟨hinv none (hi.orderly_passes hc.passes) hc.restores (.inl rfl) (fun _ => rfl) hnext,
      hc.preserves hi.holds hh (.inl rfl) (.inl rfl) hissued hnext⟩
  | failed _ _ hh hnext hne hleft hr hpasses =>
    exact ⟨hinv _ (hi.orderly_passes hpasses) hr (hleft.imp_left fun heq => by rw [heq]; rfl)
      (fun hnil => absurd hnil hne) hnext, hpasses⟩
  | committed hyes => exact absurd hyes hcommit

/-- Every step preserves the log, at each of its file operations. -/
theorem Inv.step (hi : Inv o l) (hstep : Step o l l') :
    Inv o l' ∧ Handle.Passes
      (·.Preserves o (l.opened.Durable o) l.history.log (l.pending l')) l.handle l'.handle := by
  cases hstep with
  | quiet hstep hquiet hissue => exact hi.quiet ho hroom hstep hquiet hissue
  | @fail group f h status hfailed hbefore hafter happly hcommit =>
    obtain ⟨hi', hpasses⟩ := hi.fail ho hroom hfailed hbefore hafter happly hcommit
    have hpending := pending_same l ⟨l.opened, ⟨{ l.history.system with handle := h },
      l.history.log, l.history.held⟩, groupEntries l.handle.nextSequence group⟩ rfl
    exact ⟨hi', hpasses.mono fun _ hd => hpending.symm ▸ hd⟩

end

theorem Step.system_step (hstep : Step o l l') :
    System.Step o false l.history.system l'.history.system := by
  cases hstep with
  | quiet _ hquiet => exact hquiet.1.relax
  | fail _ _ _ happly => exact .write _ (by simp) happly

end Live

/-! ## The beginning of a life -/

omit [EntrySize] in
theorem Handle.Holds.refines {h : Handle} {log : List InternalEntry} (hh : h.Holds o log)
    (hsnapshots : h.snapshots = []) : History.Refines ⟨System.started h, log, []⟩ := by
  refine ⟨hh.sorted, hh.distinct, hh.below, fun key value q hq => hh.visible key value q ?_,
    hsnapshots.symm, by simp⟩
  rcases hq with hq | hq
  · rw [System.started, hsnapshots] at hq
    cases hq
  · exact hq

/-- What `Open` returns for a directory that holds the log. -/
theorem Live.Inv.opened {d : Directory} {listing : Listing} {sweep : SweepFaults} {h : Handle}
    {log : List InternalEntry} (hd : d.Written) (hopen : Handle.open o d listing sweep = .ok h)
    (hsweep : sweep.fails = fun _ => false) (hh : h.Holds o log)
    (ho : d.Orderly h.trace) (hr : h.dir.Restores o (d.Durable o) h none) :
    Live.Inv o ⟨d, ⟨System.started h, log, []⟩, []⟩ := by
  obtain ⟨d', hopened⟩ := Handle.open_opened hopen
  exact ⟨⟨listing, sweep, h, hd, hopen, .refl⟩, ho, hh.refines hopened.snapshots,
    Present.opened hsweep hopen, Handle.open_emptyIsZero hopen,
    ⟨none, hr.wals, .inl rfl, fun _ => rfl⟩, by simp⟩

omit [EntrySize] in
/-- An initial WAL that is there is empty. -/
theorem inspectNames_true {d : Directory} {manifestTemp : Bool} {names : List FileName} {seen : Bool}
    (h : inspectNames d manifestTemp seen names = .ok true) :
    ∃ f, d.files (.wal 1) = some f ∧ f.data = [] := by
  induction names generalizing seen with
  | nil =>
    cases seen with
    | false =>
      simp only [inspectNames] at h
      split at h <;> cases h
    | true =>
      simp only [inspectNames] at h
      split at h
      · cases h
      rename_i f hf
      split at h
      · cases h
      · rename_i hdata
        exact ⟨f, hf, by simpa using hdata⟩
  | cons name names ih =>
    cases name with
    | wal number =>
      cases seen <;> simp only [inspectNames] at h <;> split at h
      · cases h
      · exact ih h
      · cases h
      · exact ih h
    | sst | sstTmp =>
      cases seen <;> simp only [inspectNames] at h <;> cases h

/-- The files of a new database hold a handle without operations. -/
theorem createInitialManifest_restores {d : Directory} {listing : Listing} {durable : Prop}
    {h : Handle} (hmanifest : d.manifest = none) (hr : createInitialManifest o d listing = .ok h) :
    h.dir.Restores o durable (Handle.blank h.dir initialManifest []) none ∧ d.Orderly h.trace ∧
      h.dir = h.trace.foldl DirOp.apply d := by
  have hblank : ∀ ops : List DirOp, d.Orderly ops →
      (∃ f, (ops.foldl DirOp.apply d).files (.wal 1) = some f ∧ f.data = []) →
      h = (((Handle.blank (ops.foldl DirOp.apply d) initialManifest ops).perform
        (.sync (.wal 1))).perform (.publish initialManifest)).perform .syncDir →
      h.dir.Restores o durable (Handle.blank h.dir initialManifest []) none ∧ d.Orderly h.trace ∧
        h.dir = h.trace.foldl DirOp.apply d := by
    rintro ops horderly ⟨f, hf, hdata⟩ rfl
    refine ⟨⟨rfl, .nil, .active (.none rfl rfl) ⟨{ f with synced := f.data.length }, [], ?_, ?_,
      fun _ => Nat.zero_le _, .nil⟩ .nothing⟩, ?_, ?_⟩
    · simp [DirOp.apply, hf, Handle.blank, initialManifest]
    · exact hdata
    · have hend : (ops.foldl DirOp.apply d).Orderly
          [.sync (.wal 1), .publish initialManifest, .syncDir] :=
        .op (by simp [DirOp.Steady]) (.publish .nil)
      simpa [Handle.blank] using horderly.append hend
    · simp [Handle.blank]
  unfold createInitialManifest at hr
  split at hr
  · cases hr
  split at hr
  · cases hr
  rename_i hasInitialWal hinspect
  cases hasInitialWal with
  | true =>
    have hwal : ∃ f, d.files (.wal 1) = some f ∧ f.data = [] := inspectNames_true hinspect
    exact hblank [] .nil hwal (Except.ok.inj hr).symm
  | false =>
    have hcreate : d.Orderly [.create (.wal 1)] :=
      .op ⟨fun m hm => absurd (hm.symm.trans hmanifest) (by simp), by simp⟩ .nil
    exact hblank [.create (.wal 1)] hcreate ⟨⟨[], 0⟩, by simp [DirOp.apply], rfl⟩
      (Except.ok.inj hr).symm

/-- What `Open` returns for a new database. -/
theorem Live.Inv.of_new {d : Directory} {listing : Listing} {sweep : SweepFaults} {h : Handle}
    (hd : d.Written) (hmanifest : d.manifest = none)
    (hsweep : sweep.fails = fun _ => false) (hopen : Handle.open o d listing sweep = .ok h) :
    Live.Inv o ⟨d, ⟨System.started h, [], []⟩, []⟩ := by
  obtain ⟨m, hvalid, ⟨hsome, -⟩ | ⟨-, rfl, h₁, hcreate, hrecover, hblank⟩⟩ :=
    Handle.open_eq_ok hopen
  · rw [hmanifest] at hsome
    cases hsome
  obtain ⟨hinitial, horderly, hdir⟩ :
      h₁.dir.Restores o (d.Durable o) (Handle.blank h₁.dir initialManifest []) none ∧ _ :=
    createInitialManifest_restores hmanifest hcreate
  obtain ⟨h', hrecover', ⟨-, htables', hmemtable, himmutable, -⟩, hrestores, hpasses⟩ :=
    Handle.recover_restores hinitial.torn hvalid Nat.one_pos (Nat.one_lt_two_pow (by decide)) sweep
      h₁.trace
  have hsame : Handle.blank h₁.dir (Handle.blank h₁.dir initialManifest []).manifest h₁.trace = h₁ :=
    hblank.symm
  rw [hsame] at hrecover'
  obtain rfl := Except.ok.inj (hrecover.symm.trans hrecover')
  have hversions : ∀ e, e ∉ h.versions := by
    intro e
    rw [Handle.mem_versions, htables', hmemtable, himmutable]
    simp [Handle.blank, MemTable.empty, MemTable.contents]
  obtain ⟨ops, htrace, -, hrecovered, -⟩ := hpasses
  have hall : d.Orderly h.trace := by
    rw [htrace]
    exact horderly.append (hdir ▸ hrecovered)
  refine .opened hd hopen hsweep ⟨Layered.opened hopen, (Handle.open_space hopen
    hd.lastSequence_lt).1, .nil, .nil, by simp, fun key value q _ => ?_⟩ hall hrestores
  refine VisibleValue.congr fun e => ?_
  simp [hversions e]

/-- `Open` finds the log and all of the pending group or nothing of it; each of its operations
preserves both. -/
theorem Directory.Preserves.opened {d : Directory} {log pending : List InternalEntry} {durable : Prop}
    (hp : d.Preserves o durable log pending) (hsynced : durable → d.WalsSynced) (listing : Listing)
    (sweep : SweepFaults) :
    ∃ h, Handle.open o d listing sweep = .ok h ∧ h.Holds o (log ++ recoveredOf pending h) ∧
      (recoveredOf pending h = [] ∨ recoveredOf pending h = pending) ∧
      h.dir.Restores o durable h none ∧ d.Orderly h.trace ∧
      ∀ before, before <+: h.trace → (before.foldl DirOp.apply d).Preserves o durable log pending := by
  obtain ⟨x, hr, hh, hcases⟩ := hp.exists_recovered hsynced
  obtain ⟨h, hrecover, ⟨-, htables, hmemtable, himmutable, hnext⟩, hrestores, hpasses⟩ :=
    Handle.recover_restores hr hh.layered.valid hh.pos hh.space sweep []
  have hopen : Handle.open o d listing sweep = .ok h :=
    (Handle.open_eq_recover hr.manifest hh.layered.valid listing sweep).trans hrecover
  have hkept : recoveredOf pending h = recoveredOf pending x := by
    rw [recoveredOf, recoveredOf, hnext]
  obtain ⟨ops, htrace, -, horderly, hin⟩ := hpasses
  obtain rfl : h.trace = ops := htrace
  refine ⟨h, hopen, ?_, ?_, hrestores, horderly, fun before hbefore => ?_⟩
  · rw [hkept]
    exact hh.move (Layered.opened hopen) (.of_eq htables hmemtable himmutable) hnext
  · rw [hkept]
    exact hcases.imp_left And.left
  · have hx := hin before hbefore
    rcases hcases with ⟨hnone, hpending⟩ | hall
    · rw [hnone, List.append_nil] at hh
      exact .before hx hh (.inl rfl) hpending
    · rw [hall] at hh
      exact .behind hx hh rfl

/-- Whatever a crash leaves behind a step, `Open` finds the layers of the handle there, unless a
write failed before. -/
theorem Live.Inv.open_eq_ok (hi : l.Inv o) (hfailed : l.failed = []) {c : Crash}
    (hcrash : c.Survivable o l.opened) {d : Directory} (hleaves : c.Leaves l.opened l.handle.trace d)
    (listing : Listing) (sweep : SweepFaults) :
    ∃ h, Handle.open o d listing sweep = .ok h ∧ h.manifest = l.handle.manifest ∧
      h.tables = l.handle.tables ∧ h.memtable = l.handle.memtable ∧
      h.immutable = l.handle.immutable ∧ h.nextSequence = l.handle.nextSequence := by
  have hh := hi.holds
  obtain ⟨left, hw, -, hnone⟩ := hi.recovers
  obtain rfl := hnone hfailed
  have hr : l.handle.dir.Restores o (l.opened.Durable o) l.handle none :=
    ⟨hi.present.manifest, hi.present.tables, hw⟩
  obtain ⟨readers, hk⟩ := hi.kept
  obtain ⟨left', hr', hleft⟩ := hleaves.restores hcrash hi.orderly
    (fun x hx => hk.allocated.always.holds x hx) (hi.replayed.symm ▸ hr)
  have hsettled := hr'.settle (hleft.elim id fun heq => heq ▸ rfl)
  obtain ⟨h, hrecover, hlayers, -⟩ :=
    Handle.recover_restores hsettled hh.layered.valid hh.pos hh.space sweep []
  exact ⟨h, (Handle.open_eq_recover hsettled.manifest hh.layered.valid listing sweep).trans hrecover,
    hlayers⟩

namespace Life

/-- What holds of a database in every state of its lives. -/
def Inv (o : Options) : Life → Prop
  | running l => l.Inv o
  | down d log pending => d.Written ∧ d.Preserves o (d.Durable o) log pending

/-- What a crash inside a life leaves. -/
theorem inv_down {c : Crash} {d' : Directory} {ops before : List DirOp}
    {log pending : List InternalEntry}
    (hi : l.Inv o) (hrun : (System.system o false).Run l.history.system l'.history.system)
    (htrace : l'.handle.trace = l.handle.trace ++ ops) (hbefore : before <+: ops)
    (hpasses : l.handle.Passes (·.Preserves o (l.opened.Durable o) log pending) l'.handle)
    (hcrash : c.Survivable o l.opened) (hleaves : c.Leaves l.opened (l.handle.trace ++ before) d') :
    Inv o (.down d' log pending) := by
  obtain ⟨listing, sweep, h, hd, hopen, hrun₀⟩ := hi.origin
  obtain ⟨readers, hk⟩ := Kept.of_run hd hopen (hrun₀.trans hrun)
  obtain ⟨ops', htrace', -, -, hp⟩ := id hpasses
  obtain rfl := List.append_cancel_left (htrace.symm.trans htrace')
  have hdir : ∀ ops, (l.handle.trace ++ ops).foldl DirOp.apply l.opened =
      ops.foldl DirOp.apply l.handle.dir := fun ops => by rw [List.foldl_append, hi.replayed]
  have horderly := hi.orderly_passes hpasses
  obtain ⟨rest, rfl⟩ := hbefore
  rw [htrace, ← List.append_assoc] at horderly
  have hprefix : l.handle.trace ++ before <+: l'.handle.trace := by
    rw [htrace, ← List.append_assoc]
    exact List.prefix_append _ _
  have hsound : ∀ x, x <+: l.handle.trace ++ before → (x.foldl DirOp.apply l.opened).Sound :=
    fun x hx => hk.allocated.always.holds x (hx.trans hprefix)
  refine ⟨Directory.Written.leaves hd hopen (hrun₀.trans hrun) hprefix hsound horderly hleaves,
    hleaves.preserves hcrash horderly hsound ?_ fun x m heq => ?_⟩
  · rw [hdir]
    exact hp before (List.prefix_append _ _)
  · rcases List.eq_nil_or_concat before with rfl | ⟨before, op, rfl⟩
    · -- a region does not end behind a publication
      rw [List.append_nil] at heq
      exact absurd heq hi.orderly.ne_publish
    · rw [List.concat_eq_append, ← List.append_assoc] at heq
      obtain ⟨rfl, -⟩ := List.append_inj' heq rfl
      rw [hdir]
      refine hp before ?_
      rw [List.concat_eq_append, List.append_assoc]
      exact List.prefix_append _ _

section
variable (ho : o.Accepted) (hroom : o.HasRoom)
include ho hroom

theorem Inv.step {s s' : Life} (hi : Inv o s) (hstep : Step o s s') : Inv o s' := by
  cases hstep with
  | run hstep => exact (Live.Inv.step ho hroom hi hstep).1
  | @halt l c d hcrash hleaves =>
    obtain ⟨left, hw, hleft, -⟩ := Live.Inv.recovers hi
    have hr : l.handle.dir.Restores o (l.opened.Durable o) l.handle left :=
      ⟨hi.present.manifest, hi.present.tables, hw⟩
    have hpreserves : l.handle.dir.Preserves o (l.opened.Durable o) l.history.log l.failed :=
      .before hr (Live.Inv.holds hi) hleft (Live.Inv.issued hi)
    refine inv_down hi .refl (List.append_nil _).symm (List.prefix_refl []) (.refl hpreserves)
      hcrash ?_
    rwa [List.append_nil]
  | @crash l l' c ops before d hstep htrace hbefore hcrash hleaves =>
    obtain ⟨-, hpasses⟩ := Live.Inv.step ho hroom hi hstep
    exact inv_down hi (.tail .refl hstep.system_step) htrace hbefore hpasses hcrash hleaves
  | @«open» d log pending listing sweep h hsweep hopen =>
    obtain ⟨hd, hp⟩ := hi
    obtain ⟨h', hopen', hh, -, hr, horderly, -⟩ := hp.opened And.right listing sweep
    obtain rfl := Except.ok.inj (hopen.symm.trans hopen')
    exact .opened hd hopen hsweep hh horderly hr
  | @crashOpen d d' log pending listing sweep h c before hopen hbefore hcrash hleaves =>
    obtain ⟨hd, hp⟩ := hi
    obtain ⟨h', hopen', -, -, -, horderly, hpasses⟩ := hp.opened And.right listing sweep
    obtain rfl := Except.ok.inj (hopen.symm.trans hopen')
    have hrun : (System.system o false).Run (System.started h) (System.started h) := .refl
    obtain ⟨readers, hk⟩ := Kept.of_run hd hopen hrun
    have hsound : ∀ x, x <+: before → (x.foldl DirOp.apply d).Sound :=
      fun x hx => hk.allocated.always.holds x (hx.trans hbefore)
    have htrace : before <+: (System.started h).handle.trace := hbefore
    obtain ⟨rest, hrest⟩ := hbefore
    rw [← hrest] at horderly
    refine ⟨Directory.Written.leaves hd hopen hrun htrace hsound horderly hleaves,
      hleaves.preserves hcrash horderly hsound (hpasses before htrace) fun x m heq => ?_⟩
    exact hpasses x (List.IsPrefix.trans (heq ▸ List.prefix_append _ _) htrace)

omit ho hroom in
theorem Inv.init {s : Life} (hs : (transitions o).init s) : Inv o s := by
  obtain ⟨d, listing, sweep, h, hmanifest, htables, hsweep, hopen, rfl⟩ := hs
  exact .of_new (.new hmanifest htables) hmanifest hsweep hopen

theorem Inv.of_reachable {s : Life} (hs : (transitions o).Reachable s) : Inv o s :=
  hs.invariant (fun _ => Inv.init) fun _ _ hstep hi => hi.step ho hroom hstep

end

/-! ## Results -/

omit [EntrySize] in
/-- `Get` answers from the log. -/
theorem get_eq_lastOn {g : History} {w : Worker} (hr : History.Refines g)
    (hl : Layered o g.system.handle w) (hcache : o.blockCacheBytes ≠ 0)
    (hopen : g.system.handle.checkOpen.ok = true) (key : Bytes) :
    g.system.handle.get o key none = readResult (lastOn g.log key) := by
  have hpos : 0 < g.system.handle.nextSequence := (Nat.zero_le _).trans_lt hl.next
  refine hr.get hl hcache hopen key (by simp) (.inr ?_) (List.append_nil _).symm (fun e he => ?_)
    (by simp)
  · show g.system.handle.nextSequence ≤ g.system.handle.nextSequence - 1 + 1
    omega
  · have hlt := hr.below e he
    show e.sequence ≤ g.system.handle.nextSequence - 1
    omega

theorem Inv.get_eq_lastOn (hi : Inv o (.running l)) (hcache : o.blockCacheBytes ≠ 0)
    (hopen : l.handle.checkOpen.ok = true) (key : Bytes) :
    l.handle.get o key none = readResult (lastOn l.history.log key) := by
  obtain ⟨readers, hk⟩ := Live.Inv.kept hi
  exact Life.get_eq_lastOn (Live.Inv.refines hi) hk.layered hcache hopen key

/-- The operations that were committed in the lives of a database so far. -/
def log : Life → List InternalEntry
  | running l => l.history.log
  | down _ log _ => log

section
variable (ho : o.Accepted) (hroom : o.HasRoom)
include ho hroom

end

/-- A quiet step of the threads is a step of a life. -/
theorem exists_live_step {l : Live} {s : System} (hfailed : l.failed = [])
    (hquiet : System.QuietStep o l.history.system s) :
    ∃ g : History, g.system = s ∧ Live.Step o l ⟨l.opened, g, []⟩ := by
  obtain ⟨g, rfl, hstep⟩ := History.Step.exists_of_step hquiet.1
  have hlive := Live.Step.quiet hstep hquiet fun hne => absurd hfailed hne
  rw [hfailed] at hlive
  exact ⟨g, rfl, hlive⟩

theorem exists_running {l : Live} {s : System} (hfailed : l.failed = [])
    (hrun : (System.quiet o).Run l.history.system s) :
    ∃ g : History, g.system = s ∧
      (transitions o).Run (.running l) (.running ⟨l.opened, g, []⟩) := by
  induction hrun with
  | refl =>
    obtain ⟨d, g, failed⟩ := l
    obtain rfl : failed = [] := hfailed
    exact ⟨g, rfl, .refl⟩
  | tail _ hstep ih =>
    obtain ⟨g₁, rfl, hrun₁⟩ := ih
    obtain ⟨g, rfl, hlive⟩ := exists_live_step (l := ⟨l.opened, g₁, []⟩) rfl hstep
    exact ⟨g, rfl, hrun₁.tail (.run hlive)⟩

end Life

end

namespace Life

end Life

end TinyLsm
