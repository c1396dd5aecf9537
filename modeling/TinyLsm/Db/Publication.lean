import TinyLsm.Db.Backpressure
import TinyLsm.Db.Lifetime
import TinyLsm.Db.Read
import TinyLsm.Manifest.Codec

/-!
# Publication of a Manifest

`ManifestState::Publish` (`manifest_state.cpp`) operation by operation, with a failure at any of
them and a power loss behind any of them; and what the regions that publish do with the outcome. A
Manifest that is visible but perhaps not durable leaves a terminal error in the handle, which every
call reports from then on, unless it is a write that waits for the immutable MemTable.
-/

namespace TinyLsm

/-! ## The files of `Publish` -/

/-- `MANIFEST` and `MANIFEST.tmp`. -/
structure ManifestFiles where
  manifest : Option File
  temp : Option File
  /-- What the name `MANIFEST` stood for since the directory was last synced. -/
  onDisk : List (Option File)

/-- The operations of `Publish`; an append reaches the file byte by byte. -/
inductive ManifestOp where
  | createTemp
  | appendTemp (byte : UInt8)
  | syncTemp
  | rename
  | syncDir
deriving DecidableEq, Repr

/-- What an operation does. -/
def ManifestOp.apply (d : ManifestFiles) : ManifestOp → ManifestFiles
  | createTemp => { d with temp := some ⟨[], 0⟩ }
  | appendTemp byte => { d with temp := d.temp.map fun f => { f with data := f.data ++ [byte] } }
  | syncTemp => { d with temp := d.temp.map fun f => { f with synced := f.data.length } }
  | rename =>
    match d.temp with
    | none => d
    | some f => ⟨some f, none, d.onDisk ++ [some f]⟩
  | syncDir => { d with onDisk := [d.manifest] }

namespace ManifestFiles

/-- Operations in order. -/
def performAll (d : ManifestFiles) (ops : List ManifestOp) : ManifestFiles :=
  ops.foldl ManifestOp.apply d

theorem performAll_append (d : ManifestFiles) (ops ops' : List ManifestOp) :
    d.performAll (ops ++ ops') = (d.performAll ops).performAll ops' :=
  List.foldl_append

/-- What a power loss may leave under the name `MANIFEST`. -/
def Leaves (d : ManifestFiles) (left : Option File) : Prop :=
  ∃ f ∈ d.onDisk, Option.Rel File.Survives f left

/-- What `MANIFEST` decodes to. -/
def shown (parse : Bytes → Option ManifestMessage) (d : ManifestFiles) : Option ManifestSnapshot :=
  d.manifest.bind fun f => (decodeManifest parse f.data).toOption

end ManifestFiles

/-- A synced file that holds the complete encoding of a snapshot. -/
structure File.Encodes (f : File) (m : ManifestSnapshot) : Prop where
  encoded : encodeManifest m = .ok f.data
  synced : f.synced = f.data.length

/-! ## `Publish` -/

/-- Where `Publish` fails. -/
structure PublishFaults where
  /-- The flag says whether the file was created all the same. -/
  openTemp : Option (Failure × Bool) := none
  /-- The append failed behind some bytes. -/
  append : Option (Failure × ℕ) := none
  /-- The flag says whether the bytes were synced all the same. -/
  sync : Option (Failure × Bool) := none
  close : Option Failure := none
  rename : Option Failure := none
  syncDir : Option Failure := none

/-- The operations that write a complete and synced `MANIFEST.tmp`. -/
def writeTemp (encoded : Bytes) : List ManifestOp :=
  .createTemp :: encoded.map .appendTemp ++ [.syncTemp]

/-- The operations of `Publish` that take effect, and its outcome. -/
def publishOps (next : ManifestSnapshot) (f : PublishFaults) : List ManifestOp × PublishOutcome :=
  match encodeManifest next with
  | .error status => ([], .notPublished status)
  | .ok encoded =>
    match f.openTemp with
    | some (status, created) => (if created then [.createTemp] else [], .notPublished status.1)
    | none =>
      match f.append with
      | some (status, written) =>
        (.createTemp :: (encoded.take written).map .appendTemp, .notPublished status.1)
      | none =>
        match f.sync with
        | some (status, synced) =>
          (.createTemp :: encoded.map .appendTemp ++ if synced then [.syncTemp] else [],
            .notPublished status.1)
        | none =>
          match f.close with
          | some status => (writeTemp encoded, .notPublished status.1)
          | none =>
            match f.rename with
            | some status => (writeTemp encoded, .notPublished status.1)
            | none =>
              match f.syncDir with
              | some status => (writeTemp encoded ++ [.rename], .visibleNotDurable status.1)
              | none => (writeTemp encoded ++ [.rename, .syncDir], .durable)

/-- `ManifestState`. -/
structure ManifestState where
  current : ManifestSnapshot
  files : ManifestFiles

/-- `ManifestState::Publish`. -/
def ManifestState.publish (s : ManifestState) (next : ManifestSnapshot) (f : PublishFaults) :
    ManifestState × PublishOutcome :=
  let r := publishOps next f
  (⟨if r.2 = .durable then next else s.current, s.files.performAll r.1⟩, r.2)

/-! ## What `Publish` leaves -/

section
variable {d : ManifestFiles} {ops ops' : List ManifestOp} {next : ManifestSnapshot}
  {f : PublishFaults} {encoded : Bytes}

/-- Operations on the temporary file. -/
def OnlyTemp (ops : List ManifestOp) : Prop := ManifestOp.rename ∉ ops ∧ ManifestOp.syncDir ∉ ops

theorem OnlyTemp.of_isPrefix (h : OnlyTemp ops) (hops : ops' <+: ops) : OnlyTemp ops' :=
  ⟨fun hmem => h.1 (hops.subset hmem), fun hmem => h.2 (hops.subset hmem)⟩

/-- Operations on the temporary file leave `MANIFEST` alone. -/
theorem OnlyTemp.performAll (h : OnlyTemp ops) :
    (d.performAll ops).manifest = d.manifest ∧ (d.performAll ops).onDisk = d.onDisk := by
  induction ops generalizing d with
  | nil => exact ⟨rfl, rfl⟩
  | cons op ops ih =>
    simp only [OnlyTemp, List.mem_cons, not_or] at h
    obtain ⟨⟨hrename, hrest⟩, hsync, hrest'⟩ := h
    have hop : (op.apply d).manifest = d.manifest ∧ (op.apply d).onDisk = d.onDisk := by
      cases op with
      | rename => exact (hrename rfl).elim
      | syncDir => exact (hsync rfl).elim
      | _ => exact ⟨rfl, rfl⟩
    rw [← hop.1, ← hop.2]
    exact @ih (op.apply d) ⟨hrest, hrest'⟩

theorem onlyTemp_appends (bytes : Bytes) (behind : List ManifestOp) (h : OnlyTemp behind) :
    OnlyTemp (.createTemp :: bytes.map .appendTemp ++ behind) := by
  refine ⟨fun hmem => ?_, fun hmem => ?_⟩
  · simp [h.1] at hmem
  · simp [h.2] at hmem

theorem onlyTemp_writeTemp (encoded : Bytes) : OnlyTemp (writeTemp encoded) :=
  onlyTemp_appends encoded [.syncTemp] ⟨by simp, by simp⟩

theorem performAll_appendTemp (d : ManifestFiles) (data bytes : Bytes) (synced : ℕ) :
    ManifestFiles.performAll { d with temp := some ⟨data, synced⟩ } (bytes.map .appendTemp) =
      { d with temp := some ⟨data ++ bytes, synced⟩ } := by
  induction bytes generalizing data with
  | nil => simp [ManifestFiles.performAll]
  | cons byte bytes ih =>
    have hih := ih (data ++ [byte])
    rw [List.append_assoc, List.singleton_append] at hih
    exact hih

theorem performAll_writeTemp (d : ManifestFiles) (encoded : Bytes) :
    d.performAll (writeTemp encoded) = { d with temp := some ⟨encoded, encoded.length⟩ } := by
  have happend := performAll_appendTemp d [] encoded 0
  rw [writeTemp, ManifestFiles.performAll_append]
  exact congrArg (ManifestFiles.performAll · [.syncTemp]) happend

theorem performAll_rename (d : ManifestFiles) (encoded : Bytes) :
    d.performAll (writeTemp encoded ++ [.rename]) =
      ⟨some ⟨encoded, encoded.length⟩, none, d.onDisk ++ [some ⟨encoded, encoded.length⟩]⟩ := by
  rw [ManifestFiles.performAll_append, performAll_writeTemp]
  rfl

theorem performAll_syncDir (d : ManifestFiles) (encoded : Bytes) :
    d.performAll (writeTemp encoded ++ [.rename, .syncDir]) =
      ⟨some ⟨encoded, encoded.length⟩, none, [some ⟨encoded, encoded.length⟩]⟩ := by
  rw [List.append_cons, ManifestFiles.performAll_append, performAll_rename]
  rfl

/-- What `Publish` has done when it returns. -/
theorem publishOps_cases (next : ManifestSnapshot) (f : PublishFaults) :
    (∃ status, (publishOps next f).2 = .notPublished status ∧ OnlyTemp (publishOps next f).1) ∨
    ∃ encoded, encodeManifest next = .ok encoded ∧
      ((∃ status, publishOps next f = (writeTemp encoded ++ [.rename], .visibleNotDurable status)) ∨
        publishOps next f = (writeTemp encoded ++ [.rename, .syncDir], .durable)) := by
  unfold publishOps
  cases hencode : encodeManifest next with
  | error status => exact .inl ⟨status, rfl, by simp [OnlyTemp]⟩
  | ok encoded =>
    dsimp only
    split
    · rename_i status created _
      refine .inl ⟨status.1, rfl, ?_⟩
      cases created <;> simp [OnlyTemp]
    split
    · rename_i status written _
      refine .inl ⟨status.1, rfl, ?_⟩
      simpa using onlyTemp_appends (encoded.take written) [] ⟨by simp, by simp⟩
    split
    · rename_i status synced _
      refine .inl ⟨status.1, rfl, onlyTemp_appends encoded _ ?_⟩
      cases synced <;> simp [OnlyTemp]
    split
    · rename_i status _
      exact .inl ⟨status.1, rfl, onlyTemp_writeTemp encoded⟩
    split
    · rename_i status _
      exact .inl ⟨status.1, rfl, onlyTemp_writeTemp encoded⟩
    split
    · rename_i status _
      exact .inr ⟨encoded, rfl, .inl ⟨status.1, rfl⟩⟩
    · exact .inr ⟨encoded, rfl, .inr rfl⟩

/-- `Publish` stopped behind any of its operations. -/
theorem publishOps_prefix (hops : ops <+: (publishOps next f).1) :
    OnlyTemp ops ∨ ∃ encoded, encodeManifest next = .ok encoded ∧
      (ops = writeTemp encoded ++ [.rename] ∨ ops = writeTemp encoded ++ [.rename, .syncDir]) := by
  obtain ⟨status, -, htemp⟩ | ⟨encoded, hencode, ⟨status, heq⟩ | heq⟩ := publishOps_cases next f
  · exact .inl (htemp.of_isPrefix hops)
  · rw [heq, List.prefix_concat_iff] at hops
    rcases hops with rfl | hops
    · exact .inr ⟨encoded, hencode, .inl rfl⟩
    · exact .inl ((onlyTemp_writeTemp encoded).of_isPrefix hops)
  · rw [heq, List.append_cons, List.prefix_concat_iff, List.prefix_concat_iff] at hops
    rcases hops with rfl | rfl | hops
    · exact .inr ⟨encoded, hencode, .inr (by simp)⟩
    · exact .inr ⟨encoded, hencode, .inl rfl⟩
    · exact .inl ((onlyTemp_writeTemp encoded).of_isPrefix hops)

/-- At every point `MANIFEST` is what it was, or the complete new file. -/
theorem manifest_performAll (hops : ops <+: (publishOps next f).1) :
    (d.performAll ops).manifest = d.manifest ∨
      ∃ file : File, (d.performAll ops).manifest = some file ∧ file.Encodes next := by
  obtain htemp | ⟨encoded, hencode, rfl | rfl⟩ := publishOps_prefix hops
  · exact .inl htemp.performAll.1
  · rw [performAll_rename]
    exact .inr ⟨_, rfl, hencode, rfl⟩
  · rw [performAll_syncDir]
    exact .inr ⟨_, rfl, hencode, rfl⟩

/-- So it is after a power loss. -/
theorem leaves_performAll (hops : ops <+: (publishOps next f).1) {left : Option File}
    (hleft : (d.performAll ops).Leaves left) :
    d.Leaves left ∨ ∃ file : File, left = some file ∧ file.Encodes next := by
  have hnew : ∀ encoded, encodeManifest next = .ok encoded →
      Option.Rel File.Survives (some ⟨encoded, encoded.length⟩) left →
      ∃ file : File, left = some file ∧ file.Encodes next := by
    intro encoded hencode hrel
    cases hrel with
    | some hsurvives =>
      obtain rfl := hsurvives.eq_of_synced rfl
      exact ⟨_, rfl, hencode, rfl⟩
  obtain ⟨file, hfile, hrel⟩ := hleft
  obtain htemp | ⟨encoded, hencode, rfl | rfl⟩ := publishOps_prefix hops
  · rw [htemp.performAll.2] at hfile
    exact .inl ⟨file, hfile, hrel⟩
  · rw [performAll_rename, List.mem_append, List.mem_singleton] at hfile
    rcases hfile with hfile | rfl
    · exact .inl ⟨file, hfile, hrel⟩
    · exact .inr (hnew encoded hencode hrel)
  · rw [performAll_syncDir, List.mem_singleton] at hfile
    subst hfile
    exact .inr (hnew encoded hencode hrel)

end

namespace ManifestState

section
variable (parse : Bytes → Option ManifestMessage)

/-- `MANIFEST` durably shows the current snapshot. -/
structure Settled (s : ManifestState) (file : File) : Prop where
  manifest : s.files.manifest = some file
  onDisk : s.files.onDisk = [some file]
  synced : file.synced = file.data.length
  decoded : decodeManifest parse file.data = .ok s.current

/-- Publication is all or nothing: what each outcome says of `current` and of `MANIFEST`, what
`MANIFEST` is at every point inside `Publish` (`atomic`), and after a power loss there, from any state
(`crash`) and from one that shows its snapshot durably (`restart`). -/
structure AllOrNothing (s : ManifestState) (next : ManifestSnapshot) (f : PublishFaults) : Prop where
  notPublished : ∀ status, (s.publish next f).2 = .notPublished status →
    (s.publish next f).1.current = s.current ∧
      (s.publish next f).1.files.manifest = s.files.manifest
  visibleNotDurable : ∀ status, (s.publish next f).2 = .visibleNotDurable status →
    (s.publish next f).1.current = s.current ∧
      (s.publish next f).1.files.shown parse = some next
  durable : (s.publish next f).2 = .durable →
    (s.publish next f).1.current = next ∧ ∃ file, (s.publish next f).1.Settled parse file
  atomic : ∀ ops, ops <+: (publishOps next f).1 →
    (s.files.performAll ops).manifest = s.files.manifest ∨
      ∃ file : File, (s.files.performAll ops).manifest = some file ∧ file.Encodes next
  crash : ∀ ops left, ops <+: (publishOps next f).1 → (s.files.performAll ops).Leaves left →
    s.files.Leaves left ∨ ∃ file : File, left = some file ∧ file.Encodes next
  restart : ∀ old, s.Settled parse old → ∀ ops left, ops <+: (publishOps next f).1 →
    (s.files.performAll ops).Leaves left →
      ∃ file : File, left = some file ∧ (file = old ∨ file.Encodes next)

variable {parse} {s : ManifestState} {next : ManifestSnapshot} {f : PublishFaults}

/-- A power loss leaves a settled `MANIFEST` as it is. -/
theorem Settled.leaves {file : File} (h : s.Settled parse file) {left : Option File}
    (hleft : s.files.Leaves left) : left = some file := by
  obtain ⟨f, hf, hrel⟩ := hleft
  rw [h.onDisk, List.mem_singleton] at hf
  subst hf
  cases hrel with
  | some hsurvives => rw [hsurvives.eq_of_synced h.synced]

/-- The three ways in which `Publish` ends. -/
theorem publish_cases (s : ManifestState) (next : ManifestSnapshot) (f : PublishFaults) :
    (∃ status ops, OnlyTemp ops ∧
      s.publish next f = (⟨s.current, s.files.performAll ops⟩, .notPublished status)) ∨
    ∃ encoded, encodeManifest next = .ok encoded ∧
      ((∃ status, s.publish next f = (⟨s.current, some ⟨encoded, encoded.length⟩, none,
          s.files.onDisk ++ [some ⟨encoded, encoded.length⟩]⟩, .visibleNotDurable status)) ∨
        s.publish next f = (⟨next, some ⟨encoded, encoded.length⟩, none,
          [some ⟨encoded, encoded.length⟩]⟩, .durable)) := by
  unfold publish
  obtain ⟨status, hnot, htemp⟩ | ⟨encoded, hencode, ⟨status, heq⟩ | heq⟩ := publishOps_cases next f
  · refine .inl ⟨status, _, htemp, ?_⟩
    simp only [hnot]
    rfl
  · refine .inr ⟨encoded, hencode, .inl ⟨status, ?_⟩⟩
    rw [heq, ← performAll_rename]
    rfl
  · refine .inr ⟨encoded, hencode, .inr ?_⟩
    rw [heq, ← performAll_syncDir s.files]
    rfl

theorem publish_allOrNothing (hparse : parse next.proto = some next.message) :
    s.AllOrNothing parse next f := by
  have hcrash : ∀ ops left, ops <+: (publishOps next f).1 → (s.files.performAll ops).Leaves left →
      s.files.Leaves left ∨ ∃ file : File, left = some file ∧ file.Encodes next :=
    fun ops left hops hleft => leaves_performAll hops hleft
  refine ⟨fun status h => ?_, fun status h => ?_, fun h => ?_,
    fun ops hops => manifest_performAll hops, hcrash, fun old hold ops left hops hleft => ?_⟩
  · obtain ⟨_, ops, htemp, heq⟩ | ⟨encoded, hencode, ⟨_, heq⟩ | heq⟩ := publish_cases s next f
    all_goals rw [heq] at h ⊢
    · exact ⟨rfl, htemp.performAll.1⟩
    · cases h
    · cases h
  · obtain ⟨_, ops, htemp, heq⟩ | ⟨encoded, hencode, ⟨_, heq⟩ | heq⟩ := publish_cases s next f
    all_goals rw [heq] at h ⊢
    · cases h
    · refine ⟨rfl, ?_⟩
      simp [ManifestFiles.shown, decodeManifest_encodeManifest hencode hparse, Except.toOption]
    · cases h
  · obtain ⟨_, ops, htemp, heq⟩ | ⟨encoded, hencode, ⟨_, heq⟩ | heq⟩ := publish_cases s next f
    all_goals rw [heq] at h ⊢
    · cases h
    · cases h
    · exact ⟨rfl, _, rfl, rfl, rfl, decodeManifest_encodeManifest hencode hparse⟩
  · rcases hcrash ops left hops hleft with hleft | ⟨file, hfile, hnext⟩
    · exact ⟨old, hold.leaves hleft, .inl rfl⟩
    · exact ⟨file, hfile, .inr hnext⟩

end

end ManifestState

/-! ## The handle's view of `Publish` -/

/-- The failure of `Publish` as the handle sees it. -/
def PublishFaults.toFault (f : PublishFaults) : Option PublishFault :=
  match f.openTemp, f.append, f.sync, f.close, f.rename with
  | some (status, _), _, _, _, _ | none, some (status, _), _, _, _ | none, none, some (status, _), _, _
  | none, none, none, some status, _ | none, none, none, none, some status =>
    some (.notPublished status)
  | none, none, none, none, none => f.syncDir.map .syncDir

theorem PublishFaults.outcome_toFault (f : PublishFaults) (h : Handle) (next : ManifestSnapshot) :
    (h.publish next f.toFault).2 = (publishOps next f).2 := by
  obtain ⟨openTemp, append, sync, close, rename, syncDir⟩ := f
  unfold Handle.publish publishOps
  cases encodeManifest next with
  | error status => rfl
  | ok encoded =>
    cases openTemp with
    | some => rfl
    | none =>
    cases append with
    | some => rfl
    | none =>
    cases sync with
    | some => rfl
    | none =>
    cases close with
    | some => rfl
    | none =>
    cases rename with
    | some => rfl
    | none =>
    cases syncDir <;> rfl

/-- The state that goes with an outcome. -/
theorem Handle.publish_cases (h : Handle) (next : ManifestSnapshot) (fault : Option PublishFault) :
    (∃ status, h.publish next fault = (h, .notPublished status)) ∨
      (∃ status, h.publish next fault = (h.perform (.publish next), .visibleNotDurable status)) ∨
      h.publish next fault = (h.withManifest next, .durable) := by
  unfold Handle.publish
  split
  · exact .inl ⟨_, rfl⟩
  split
  · exact .inl ⟨_, rfl⟩
  · exact .inr (.inl ⟨_, rfl⟩)
  · exact .inr (.inr rfl)

/-- A handle that shows what the files show publishes as the files do. -/
theorem Handle.publish_refines {parse : Bytes → Option ManifestMessage} {s : ManifestState}
    {h : Handle} {next : ManifestSnapshot} {f : PublishFaults}
    (hparse : parse next.proto = some next.message) (hcurrent : s.current = h.manifest)
    (hshown : s.files.shown parse = h.dir.manifest) :
    (s.publish next f).2 = (h.publish next f.toFault).2 ∧
      (s.publish next f).1.current = (h.publish next f.toFault).1.manifest ∧
      (s.publish next f).1.files.shown parse = (h.publish next f.toFault).1.dir.manifest := by
  have houtcome : (s.publish next f).2 = (h.publish next f.toFault).2 :=
    (f.outcome_toFault h next).symm
  have hpublish := s.publish_allOrNothing (f := f) hparse
  refine ⟨houtcome, ?_⟩
  rcases h.publish_cases next f.toFault with ⟨status, heq⟩ | ⟨status, heq⟩ | heq
  all_goals rw [heq] at houtcome ⊢
  · obtain ⟨hs, hfiles⟩ := hpublish.notPublished status houtcome
    exact ⟨hs.trans hcurrent, by rw [ManifestFiles.shown, hfiles]; exact hshown⟩
  · obtain ⟨hs, hfiles⟩ := hpublish.visibleNotDurable status houtcome
    exact ⟨hs.trans hcurrent, hfiles⟩
  · obtain ⟨hs, file, hsettled⟩ := hpublish.durable houtcome
    refine ⟨hs, ?_⟩
    rw [ManifestFiles.shown, hsettled.manifest, Option.bind_some, hsettled.decoded, hs]
    rfl

/-! ## The callers of `Publish` -/

/-- Among these operations a Manifest became visible, and the directory was not synced behind it. -/
def VisibleOnly (ops : List DirOp) : Prop :=
  ∃ before m behind, ops = before ++ .publish m :: behind ∧ behind.head? ≠ some .syncDir

theorem VisibleOnly.of_append {ops ops' : List DirOp} (h : VisibleOnly (ops ++ ops')) :
    VisibleOnly ops ∨ VisibleOnly ops' := by
  obtain ⟨before, m, behind, heq, hsync⟩ := h
  rcases List.append_eq_append_iff.mp heq with ⟨rest, rfl, hrest⟩ | ⟨rest, rfl, hrest⟩
  · exact .inr ⟨rest, m, behind, hrest, hsync⟩
  · cases rest with
    | nil => exact .inr ⟨[], m, behind, by simpa using hrest.symm, hsync⟩
    | cons op rest =>
      rw [List.cons_append, List.cons.injEq] at hrest
      obtain ⟨rfl, rfl⟩ := hrest
      refine .inl ⟨before, m, rest, rfl, fun hhead => hsync ?_⟩
      rw [List.head?_append, hhead, Option.some_or]

namespace Handle

/-- The terminal error is set. -/
def Failed (h : Handle) : Prop := ∃ status, h.terminalError = some status ∧ status.ok = false

/-- From one state to the next the operations are added to the trace, a Manifest that is visible only
is reported, and a terminal error stays. -/
def Reports (h h' : Handle) : Prop :=
  ∃ ops, h'.trace = h.trace ++ ops ∧ (VisibleOnly ops → h'.Failed) ∧ (h.Failed → h'.Failed)

namespace Reports

variable {h h' h'' : Handle}

theorem of_eq (htrace : h'.trace = h.trace) (herror : h'.terminalError = h.terminalError) :
    Reports h h' := by
  refine ⟨[], by simp [htrace], ?_, fun hf => ?_⟩
  · rintro ⟨before, m, behind, heq, -⟩
    simp at heq
  · rwa [Failed, herror]

theorem refl (h : Handle) : Reports h h := of_eq rfl rfl

theorem trans (hh : Reports h h') (hh' : Reports h' h'') : Reports h h'' := by
  obtain ⟨ops, htrace, hvisible, hkeeps⟩ := hh
  obtain ⟨ops', htrace', hvisible', hkeeps'⟩ := hh'
  refine ⟨ops ++ ops', by rw [htrace', htrace, List.append_assoc], fun hv => ?_,
    fun hf => hkeeps' (hkeeps hf)⟩
  rcases hv.of_append with hv | hv
  · exact hkeeps' (hvisible hv)
  · exact hvisible' hv

theorem perform (h : Handle) {op : DirOp} (hop : ∀ m, op ≠ .publish m) :
    Reports h (h.perform op) := by
  refine ⟨[op], rfl, ?_, id⟩
  rintro ⟨before, m, behind, heq, -⟩
  rw [List.singleton_eq_append_iff] at heq
  rcases heq with ⟨rfl, heq⟩ | ⟨rfl, heq⟩
  · exact absurd (List.cons.inj heq).1.symm (hop m)
  · cases heq

theorem visible (h : Handle) (next : ManifestSnapshot) {status : Status} (hs : status.ok = false) :
    Reports h { h.perform (.publish next) with terminalError := some status } :=
  ⟨[.publish next], rfl, fun _ => ⟨status, rfl, hs⟩, fun _ => ⟨status, rfl, hs⟩⟩

theorem withManifest (h : Handle) (next : ManifestSnapshot) : Reports h (h.withManifest next) := by
  refine ⟨[.publish next, .syncDir], by simp, ?_, id⟩
  rintro ⟨before, m, behind, heq, hsync⟩
  rcases before with _ | ⟨op, _ | ⟨op', before⟩⟩
  · rw [List.nil_append, List.cons.injEq] at heq
    exact absurd (by rw [← heq.2]; rfl) hsync
  · simp at heq
  · simp at heq

end Reports

section
variable {o : Options} {h h' : Handle}

theorem reports_bestEffortRemove (h : Handle) (name : FileName) (fails : Bool) :
    Reports h (h.bestEffortRemove name fails) := by
  unfold bestEffortRemove
  split
  · split
    · exact .refl h
    · exact .of_eq rfl rfl
  · exact .perform h (by simp)

theorem reports_removeAll (names : List FileName) (fails : FileName → Bool) (h : Handle) :
    Reports h (h.removeAll names fails) := by
  unfold removeAll
  induction names generalizing h with
  | nil => exact .refl h
  | cons name names ih => exact (reports_bestEffortRemove h name (fails name)).trans (ih _)

theorem reports_cleanupObsoleteFiles (h : Handle) (listed : Option (List FileName))
    (fails : FileName → Bool) : Reports h (h.cleanupObsoleteFiles listed fails) := by
  have hpending : Reports h ({ h with pendingCleanup := [] }.removeAll h.pendingCleanup fails) :=
    Reports.trans (Reports.of_eq rfl rfl : Reports h { h with pendingCleanup := [] })
      (reports_removeAll _ _ _)
  cases listed with
  | none => exact hpending
  | some names => exact hpending.trans (reports_removeAll _ _ _)

theorem BuildsTo.reports {checked : Output → Option Status} {number : ℕ}
    {entries : List InternalEntry} {phase phase' : BuildPhase}
    (hb : BuildsTo o checked number entries h phase h' phase') : Reports h h' := by
  rcases hb with _ | _ | _ | _ | _
  · exact .perform h (by simp)
  · exact (Reports.perform h (by simp)).trans (.perform _ (by simp))
  · exact .refl h
  · exact .perform h (by simp)
  · exact .perform h (by simp)

theorem reports_buildStep {context : BuildContext} {checked : Output → Option Status}
    (hchecked : ∀ out s, checked out = some s → s.ok = false) {number : ℕ}
    {entries : List InternalEntry} {fault : Option Failure} {phase : BuildPhase}
    {r : Except Status BuildPhase} (hphase : ∀ out, phase ≠ .ready out)
    (hr : h.buildStep o context checked number entries fault phase = (h', r)) : Reports h h' := by
  cases r with
  | ok phase' => exact (buildStep_ok hphase hr).reports
  | error status =>
    rcases (buildStep_error hchecked hr).2 with rfl | ⟨-, rfl⟩
    · exact .refl _
    · exact .perform h (by simp)

theorem reports_buildOutput {number : ℕ} {entries : List InternalEntry} {f : CompactFaults}
    {r : Except Status Output} (hr : h.buildOutput o number entries f = (h', r)) : Reports h h' := by
  have hrule := buildOutput_rule (fun _ h₁ => Reports h h₁) (Reports h)
    (fun _ _ _ _ hb hP => hP.trans hb.reports) (fun _ _ hP => hP)
    (fun _ hP => hP.trans (.perform _ (by simp))) hr (.refl h)
  cases r with
  | ok out => exact hrule
  | error status => exact hrule.2

theorem reports_rotateMemTable {fault : Option RotateFault} {status : Status}
    (hr : h.rotateMemTable fault = (h', status)) : Reports h h' := by
  have hwal : Reports h h.withWal := (Reports.perform h (by simp)).trans (.perform _ (by simp))
  rcases rotateMemTable_cases hr with ⟨hw, -⟩ | ⟨rfl, hfail, -⟩ | ⟨rfl, -⟩
  · rcases hw with _ | _ | _
    · exact .refl h
    · exact .perform h (by simp)
    · exact hwal
  · exact hwal.trans (.visible _ _ hfail)
  · exact (hwal.trans (.withManifest _ _)).trans (.of_eq rfl rfl)

theorem reports_commitFlush {job : FlushJob} {out : Output} {fault : Option PublishFault}
    {status : Status} (hr : h.commitFlush o job out fault = (h', status)) : Reports h h' := by
  rcases commitFlush_cases hr with ⟨rfl, -⟩ | ⟨rfl, hfail, -⟩ | ⟨rfl, -⟩
  · exact .refl _
  · exact .visible _ _ hfail
  · exact (Reports.withManifest h _).trans (.of_eq rfl rfl)

theorem reports_beginBackgroundCompaction {fault : Option PublishFault}
    {r : Except Status CompactionJob} (hr : h.beginBackgroundCompaction o fault = (h', r)) :
    Reports h h' := by
  rcases beginBackgroundCompaction_cases hr with ⟨rfl, -⟩ | ⟨status, rfl, -, hfail, -⟩ | ⟨rfl, -⟩
  · exact .refl _
  · exact .visible _ _ hfail
  · exact .withManifest h _

theorem reports_commitCompaction {job : CompactionJob} {replacement : Option Output}
    {fault : Option PublishFault} {fails : FileName → Bool} {status : Status}
    (hr : h.commitCompaction job replacement fault fails = (h', status)) : Reports h h' := by
  rcases commitCompaction_cases hr with ⟨rfl, -⟩ | ⟨rfl, hfail, -⟩ | ⟨rfl, -⟩
  · exact .refl _
  · exact .visible _ _ hfail
  · refine (Reports.withManifest h (compactedManifest h.manifest job replacement)).trans
      (Reports.trans ?_ (reports_removeAll _ _ _))
    exact .of_eq rfl rfl

theorem reports_compactTablePrefix {inputCount : ℕ} {f : CompactFaults} {status : Status}
    (hr : h.compactTablePrefix o inputCount f = (h', status)) : Reports h h' := by
  have hsweep := reports_cleanupObsoleteFiles h f.sweep.listed f.sweep.fails
  rcases compactTablePrefix_cases hr with
    ⟨rfl, -⟩ | ⟨-, h₁, rfl, rfl | ⟨_, -, -, hc⟩ | ⟨_, h₂, r, -, -, hbuild, hend⟩⟩
  · exact .refl _
  · exact hsweep
  · exact hsweep.trans (reports_commitCompaction hc)
  · have hbuilt := hsweep.trans (reports_buildOutput hbuild)
    rcases hend with ⟨-, rfl⟩ | ⟨out, -, hc⟩
    · exact hbuilt
    · exact hbuilt.trans (reports_commitCompaction hc)

theorem reports_applyWriteGroup [EntrySize] {group : List WriterRequest} {f : WriteFaults}
    {status : Status} (hr : h.applyWriteGroup o group f = some (h', status)) : Reports h h' := by
  refine applyWriteGroup_keeps (Reports h) (fun h₁ op hop hP => hP.trans (.perform h₁ ?_))
    (fun h₁ m n _ hP => hP.trans (.of_eq rfl rfl))
    (fun h₁ h₂ fault status hr hP => hP.trans (reports_rotateMemTable hr)) hr (.refl h)
  rintro m rfl
  rcases hop with hop | ⟨bytes, hop⟩ <;> cases hop

end

end Handle

section
variable [EntrySize] {o : Options} {faultFree : Bool} {s s' : System}

/-- Every region that publishes a Manifest reports one that is visible only. -/
theorem System.Step.reports (hstep : System.Step o faultFree s s') :
    Handle.Reports s.handle s'.handle := by
  cases hstep with
  | write f hf happly => exact Handle.reports_applyWriteGroup happly
  | getSnapshot hopen => exact .of_eq rfl rfl
  | releaseSnapshot sequence => exact .of_eq rfl rfl
  | workerExit hworker hstop => exact .refl _
  | workerClaim hworker hstop hrequest =>
    refine .of_eq ?_ ?_ <;> (simp only [Handle.claim]; repeat' split) <;> rfl
  | flushBegin sweep hf hworker hr =>
    rcases Handle.beginFlush_dir hr with rfl | rfl
    · exact .refl _
    · exact Handle.reports_cleanupObsoleteFiles _ _ _
  | flushBuild fault hf hworker hphase hr => exact Handle.reports_buildStep (by simp) hphase hr
  | flushCommit fault hf hworker hr => exact Handle.reports_commitFlush hr
  | flushRemove fails hf hworker => exact Handle.reports_bestEffortRemove _ _ _
  | compactBegin fault hf hworker hr => exact Handle.reports_beginBackgroundCompaction hr
  | compactMerge fault hf hworker => exact .refl _
  | compactBuild fault hf hworker hphase hr =>
    exact Handle.reports_buildStep Handle.compactionChecked_error hphase hr
  | compactCommit fault fails hf hworker hr => exact Handle.reports_commitCompaction hr
  | compactDrop fault fails hf hworker hr => exact Handle.reports_commitCompaction hr
  | workerException status hf hworker => exact .refl _
  | workerAccount hworker =>
    refine .of_eq ?_ ?_ <;> (simp only [Handle.account]; repeat' split) <;> rfl
  | compactCall ht => exact .refl _
  | compactResume ht hwait => exact .refl _
  | compactRun f hf ht hr => exact Handle.reports_compactTablePrefix hr
  | closeCall ht =>
    split
    · exact .refl _
    · exact .of_eq rfl rfl
  | closeRound fault hf ht hr =>
    unfold Handle.closeRound at hr
    repeat' split at hr
    all_goals cases hr
    · exact .refl _
    · exact .refl _
    · exact .of_eq rfl rfl
    · have hrotate := Handle.reports_rotateMemTable
        (show s.handle.rotateMemTable fault = ((s.handle.rotateMemTable fault).1, _) from rfl)
      split
      · exact hrotate
      · exact hrotate.trans (.of_eq rfl rfl)
    · exact .refl _
  | closeWake ht => exact .refl _
  | closeSync fault hf ht hr =>
    unfold Handle.closeSyncWal at hr
    repeat' split at hr
    all_goals cases hr
    · exact .of_eq rfl rfl
    · exact (Handle.Reports.perform _ (by simp)).trans (.of_eq rfl rfl)
    · exact .of_eq rfl rfl
  | closeJoined fault hf ht hworker hr =>
    cases hr
    exact .of_eq rfl rfl
  | next ht => exact .refl _

/-- A terminal error stays as long as the handle is used. -/
theorem Handle.Failed.run (hfailed : s.handle.Failed) (hrun : (System.system o faultFree).Run s s') :
    s'.handle.Failed := by
  refine hrun.keeps (P := fun s => s.handle.Failed) (fun s s' hstep hs => ?_) hfailed
  obtain ⟨-, -, -, hkeeps⟩ := hstep.reports
  exact hkeeps hs

end

/-! ## Calls behind a terminal error -/

namespace Handle

section
variable [EntrySize] (o : Options)

/-- `SubmitWrite` of a batch whose request is committed in a group with others, unless `Close` has
stopped the queue; none while it waits for the immutable MemTable. -/
def submitWrite (h : Handle) (batch : WriteBatch) (before behind : List WriterRequest)
    (f : WriteFaults) : Option (Handle × Status) :=
  match validateWriteBatch o batch with
  | .error status => some (h, status)
  | .ok queueBytes =>
    if batch = [] then some (h, h.checkOpen)
    else if o.maxPendingWriteBytes < queueBytes then
      some (h, .resourceExhausted "batch exceeds bounded writer queue bytes")
    else h.applyWriteGroup o (before ++ ⟨before.length, batch, queueBytes⟩ :: behind) f

/-- `Put`. -/
def put (h : Handle) (key value : Bytes) := h.submitWrite o [.put key value]

/-- `Delete`. -/
def delete (h : Handle) (key : Bytes) := h.submitWrite o [.delete key]

/-- `Write`. -/
def write (h : Handle) (batch : WriteBatch) := h.submitWrite o batch

/-- A batch that `SubmitWrite` lets into the queue. -/
def Queued (batch : WriteBatch) : Prop :=
  batch ≠ [] ∧ ∃ queueBytes ≤ o.maxPendingWriteBytes, validateWriteBatch o batch = .ok queueBytes

end

section
variable {h : Handle}

theorem Failed.checkOpen (hf : h.Failed) : h.checkOpen.ok = false := by
  obtain ⟨status, herror, hs⟩ := hf
  unfold Handle.checkOpen
  split
  · rfl
  · rw [herror]
    exact hs

theorem Failed.newIterator (hf : h.Failed) (start limit : Bytes) (snapshot : Option Snapshot) :
    h.newIterator start limit snapshot = .error h.checkOpen := by
  rw [Handle.newIterator, if_pos hf.checkOpen]

theorem Failed.writeWaitOver (hf : h.Failed) : h.writeWaitOver := by
  obtain ⟨status, herror, -⟩ := hf
  simp [Handle.writeWaitOver, herror]

theorem Failed.workWaitOver (hf : h.Failed) : h.workWaitOver := by
  obtain ⟨status, herror, -⟩ := hf
  simp [Handle.workWaitOver, Handle.hasError, herror]

theorem Failed.compactTablePrefix (hf : h.Failed) (o : Options) (inputCount : ℕ)
    (f : CompactFaults) : h.compactTablePrefix o inputCount f = (h, h.checkOpen) := by
  rw [Handle.compactTablePrefix, Handle.compactionStatus, if_pos hf.checkOpen]

variable [EntrySize] {o : Options}

/-- A failed handle does not commit a group. -/
theorem Failed.applyWriteGroup (hf : h.Failed) {group : List WriterRequest} (hgroup : group ≠ [])
    (f : WriteFaults) : h.applyWriteGroup o group f =
      if h.writeBlocked o then none else some (h, h.checkOpen) := by
  rw [Handle.applyWriteGroup, if_neg hgroup, prepareForWrite_eq, prepared, if_pos hf.checkOpen]
  cases h.writeBlocked o with
  | true => rfl
  | false => simp [hf.checkOpen]

/-- A write on a failed handle fails, unless it gets into the queue and waits there. -/
theorem Failed.submitWrite_iff (hf : h.Failed) (batch : WriteBatch)
    (before behind : List WriterRequest) (f : WriteFaults) :
    (∃ status, h.submitWrite o batch before behind f = some (h, status) ∧ status.ok = false) ↔
      (Queued o batch → h.writeBlocked o = false) := by
  unfold submitWrite
  cases hvalid : validateWriteBatch o batch with
  | error status =>
    refine iff_of_true ⟨status, rfl, validateWriteBatch_error o hvalid⟩ ?_
    rintro ⟨-, queueBytes, -, hok⟩
    rw [hvalid] at hok
    cases hok
  | ok queueBytes =>
    dsimp only
    split
    · rename_i hnil
      exact iff_of_true ⟨_, rfl, hf.checkOpen⟩ fun hq => absurd hnil hq.1
    rename_i hne
    split
    · rename_i hbytes
      refine iff_of_true ⟨_, rfl, rfl⟩ ?_
      rintro ⟨-, queueBytes', hle, hok⟩
      rw [hvalid] at hok
      obtain rfl := Except.ok.inj hok
      omega
    rename_i hbytes
    have hqueued : Queued o batch := ⟨hne, queueBytes, not_lt.mp hbytes, hvalid⟩
    rw [hf.applyWriteGroup (by simp)]
    cases hblocked : h.writeBlocked o with
    | true => simp [hqueued]
    | false => simp [hf.checkOpen]

end

end Handle

section
variable [EntrySize] (o : Options) (faultFree : Bool)

/-- The calls that read, and `Compact`, report the terminal error: a `Compact` call that starts
returns at once, one that waits is woken, and none of them returns okay. -/
structure System.Rejects (s : System) : Prop where
  get : ∀ key snapshot, ∃ status, s.handle.get o key snapshot = .error status ∧ status.ok = false
  scan : ∀ start limit, ∃ status, s.handle.scan start limit = .error status ∧ status.ok = false
  newIterator : ∀ start limit snapshot, ∃ status,
    s.handle.newIterator start limit snapshot = .error status ∧ status.ok = false
  getSnapshot : ∃ status, s.handle.getSnapshot o = (s.handle, .error status) ∧ status.ok = false
  compactStart : ∀ s' t, System.Step o faultFree s s' → s.calls t = .idle →
    s'.calls t = .idle ∨ s'.calls t = .closeLoop ∨
      ∃ status, s'.calls t = .returned status ∧ status.ok = false
  compactEnd : ∀ s' t, System.Step o faultFree s s' →
    (s.calls t = .compactWaiting ∨ ∃ inputCount, s.calls t = .compactReady inputCount) →
    s'.calls t = s.calls t ∨ ∃ status, s'.calls t = .returned status ∧ status.ok = false
  compactWakes : s.handle.workWaitOver

variable {o faultFree} {s : System}

/-- What becomes of a thread that is idle or inside `Compact`: a `Close` call starts, or an error is
returned. -/
theorem Handle.Failed.call_step {s' : System} (hf : s.handle.Failed)
    (hstep : System.Step o faultFree s s') (t : ℕ)
    (ht : s.calls t = .idle ∨ s.calls t = .compactWaiting ∨
      ∃ inputCount, s.calls t = .compactReady inputCount) :
    s'.calls t = s.calls t ∨ (s.calls t = .idle ∧ s'.calls t = .closeLoop) ∨
      ∃ status, s'.calls t = .returned status ∧ status.ok = false := by
  have hopen := hf.checkOpen
  have hnot : s.handle.checkOpen.ok ≠ true := by simp [hopen]
  -- only the thread that moves changes its place
  have hmove : ∀ t' c, (t = t' → c = .returned s.handle.checkOpen) →
      Function.update s.calls t' c t = s.calls t ∨
      (s.calls t = .idle ∧ Function.update s.calls t' c t = .closeLoop) ∨
      ∃ status, Function.update s.calls t' c t = .returned status ∧ status.ok = false := by
    intro t' c hc
    rcases eq_or_ne t t' with rfl | hne
    · rw [Function.update_self, hc rfl]
      exact .inr (.inr ⟨_, rfl, hopen⟩)
    · exact .inl (Function.update_of_ne hne _ _)
  -- the calls inside `Close` are others
  have hclose : ∀ t' c, (t ≠ t') → Function.update s.calls t' c t = s.calls t ∨
      (s.calls t = .idle ∧ Function.update s.calls t' c t = .closeLoop) ∨
      ∃ status, Function.update s.calls t' c t = .returned status ∧ status.ok = false :=
    fun t' c hne => .inl (Function.update_of_ne hne _ _)
  cases hstep with
  | compactCall ht' => exact hmove _ _ fun _ => if_neg hnot
  | compactResume ht' hwait => exact hmove _ _ fun _ => if_neg hnot
  | compactRun f hf' ht' hr =>
    rw [hf.compactTablePrefix] at hr
    cases hr
    exact hmove _ _ fun _ => rfl
  | @closeCall t' ht' =>
    split
    · rcases eq_or_ne t t' with rfl | hne
      · exact .inr (.inr ⟨_, Function.update_self .., rfl⟩)
      · exact hclose _ _ hne
    · rcases eq_or_ne t t' with rfl | hne
      · exact .inr (.inl ⟨ht', Function.update_self ..⟩)
      · exact hclose _ _ hne
  | closeRound fault hf' ht' hr =>
    refine hclose _ _ ?_
    rintro rfl
    simp [ht'] at ht
  | closeWake ht' =>
    refine hclose _ _ ?_
    rintro rfl
    rcases ht' with ⟨ht', -⟩ | ⟨ht', -⟩ <;> simp [ht'] at ht
  | closeSync fault hf' ht' hr =>
    refine hclose _ _ ?_
    rintro rfl
    simp [ht'] at ht
  | closeJoined fault hf' ht' hworker hr =>
    refine hclose _ _ ?_
    rintro rfl
    simp [ht'] at ht
  | next ht' =>
    refine hclose _ _ ?_
    rintro rfl
    simp [ht'] at ht
  | _ => exact .inl rfl

theorem Handle.Failed.rejects (hf : s.handle.Failed) : s.Rejects o faultFree := by
  have hopen := hf.checkOpen
  refine ⟨fun key snapshot => ⟨_, by rw [Handle.get, if_pos hopen], hopen⟩,
    fun start limit => ⟨_, by rw [Handle.scan, hf.newIterator], hopen⟩,
    fun start limit snapshot => ⟨_, hf.newIterator start limit snapshot, hopen⟩,
    ⟨_, by rw [Handle.getSnapshot, if_pos hopen], hopen⟩, fun s' t hstep ht => ?_,
    fun s' t hstep ht => ?_, hf.workWaitOver⟩
  · rcases hf.call_step hstep t (.inl ht) with heq | ⟨-, hloop⟩ | hreturned
    · exact .inl (heq.trans ht)
    · exact .inr (.inl hloop)
    · exact .inr (.inr hreturned)
  · rcases hf.call_step hstep t (.inr ht) with heq | ⟨hidle, -⟩ | hreturned
    · exact .inl heq
    · simp [hidle] at ht
    · exact .inr hreturned

/-- Publication is all or nothing, for every state, snapshot and pattern of failures, and a handle
publishes as the files do. A region in which a Manifest became visible only sets the terminal error.
From then on every read and every `Compact` fails; a write fails exactly when no immutable MemTable
exists, or the active one is not full, or the batch does not get into the queue. -/
theorem publication_is_all_or_nothing_iff (parse : Bytes → Option ManifestMessage) :
    (∀ (m : ManifestState) next f, parse next.proto = some next.message →
      m.AllOrNothing parse next f) ∧
    (∀ (m : ManifestState) (h : Handle) next f, parse next.proto = some next.message →
      m.current = h.manifest → m.files.shown parse = h.dir.manifest →
      (m.publish next f).2 = (h.publish next f.toFault).2 ∧
        (m.publish next f).1.current = (h.publish next f.toFault).1.manifest ∧
        (m.publish next f).1.files.shown parse = (h.publish next f.toFault).1.dir.manifest) ∧
    ∀ s s' s'' : System, (System.system o faultFree).Reachable s → System.Step o faultFree s s' →
      (System.system o faultFree).Run s' s'' →
      ∃ ops, s'.handle.trace = s.handle.trace ++ ops ∧
        (VisibleOnly ops → s'.handle.Failed ∧ s''.Rejects o faultFree ∧
          ∀ batch before behind f,
            (∃ status, s''.handle.submitWrite o batch before behind f = some (s''.handle, status) ∧
              status.ok = false) ↔
            (Handle.Queued o batch →
              s''.handle.immutable = none ∨ s''.handle.memtable.bytes < o.memtableBytes)) := by
  refine ⟨fun m next f hparse => ManifestState.publish_allOrNothing hparse,
    fun m h next f hparse hcurrent hshown => Handle.publish_refines hparse hcurrent hshown,
    fun s s' s'' _ hstep hrun => ?_⟩
  obtain ⟨ops, htrace, hvisible, -⟩ := hstep.reports
  refine ⟨ops, htrace, fun hv => ?_⟩
  have hfailed := (hvisible hv).run hrun
  refine ⟨hvisible hv, hfailed.rejects, fun batch before behind f => ?_⟩
  rw [hfailed.submitWrite_iff, Handle.writeBlocked_eq_false_iff]

end

/-! ## A flush whose directory sync fails -/

/-- The output that a worker is about to commit. -/
def Worker.flushed : Worker → Option (FlushJob × Output)
  | .flushing job (.ready out) => some (job, out)
  | _ => none

theorem Worker.flushed_eq_some {w : Worker} {job : FlushJob} {out : Output}
    (h : w.flushed = some (job, out)) : w = .flushing job (.ready out) := by
  unfold flushed at h
  split at h
  · cases h
    rfl
  · cases h

/-- The directory cannot be synced. -/
def syncDirFails : PublishFault := .syncDir ⟨.ioError "sync", rfl⟩

/-- Two generations are full, and the older one is flushed but for its Manifest. -/
def flushedButManifest : List Move :=
  Preparing.twoGenerations ++ List.replicate 6 (.worker [])

/-- The Manifest of a flush is visible only, and a `Put` behind it never returns. -/
theorem visible_only_keeps_put_looping :
    let _ := entrySize80
    ∃ s s' : System, (System.system Preparing.smallMemTable false).Reachable s ∧
      System.Step Preparing.smallMemTable false s s' ∧
      (∃ ops, s'.handle.trace = s.handle.trace ++ ops ∧ VisibleOnly ops) ∧ s'.handle.Failed ∧
      s'.handle.put Preparing.smallMemTable [0x61] [0x62] [] [] {} = none ∧
      ∀ w, (Preparing.system Preparing.smallMemTable none).Run ⟨s'.handle, .looping⟩ w →
        w.point = .looping := by
  intro _
  have htests : ((System.openThen Preparing.smallMemTable .empty ⟨false, []⟩
      ⟨none, fun _ => false⟩ flushedButManifest).map fun s => (s.handle.terminalError,
        s.worker.flushed.map fun p =>
          let r := s.handle.commitFlush Preparing.smallMemTable p.1 p.2 (some syncDirFails)
          (r.1.terminalError.isSome, r.1.writeBlocked Preparing.smallMemTable))) =
      some (none, some (true, true)) := by
    decide +kernel
  obtain ⟨s, hs, htests⟩ := Option.map_eq_some_iff.mp htests
  simp only [Prod.mk.injEq, Option.map_eq_some_iff] at htests
  obtain ⟨hnone, ⟨job, out⟩, hflushed, hterminal, hblocked⟩ := htests
  obtain ⟨h₀, hopen, hmoves⟩ := System.openThen_eq_some hs
  rcases hr : s.handle.commitFlush Preparing.smallMemTable job out (some syncDirFails) with ⟨h, status⟩
  rw [hr] at hterminal hblocked
  have hvisible : h = { s.handle.perform (.publish (Handle.flushedManifest s.handle.manifest out)) with
      terminalError := some status } ∧ status.ok = false := by
    rcases Handle.commitFlush_cases hr with ⟨rfl, -⟩ | ⟨rfl, hfail, -⟩ | ⟨-, -, hfault, -⟩
    · simp [hnone] at hterminal
    · exact ⟨rfl, hfail⟩
    · cases hfault
  have hstep : System.Step Preparing.smallMemTable false s _ :=
    .flushCommit (some syncDirFails) (by simp) (Worker.flushed_eq_some hflushed) hr
  have hfailed : h.Failed := ⟨status, by rw [hvisible.1], hvisible.2⟩
  have hput : h.put Preparing.smallMemTable [0x61] [0x62] [] [] {} =
      h.applyWriteGroup Preparing.smallMemTable [⟨0, [.put [0x61] [0x62]], 82⟩] {} := rfl
  refine ⟨s, _, ⟨_, ⟨.empty, ⟨false, []⟩, ⟨none, fun _ => false⟩, h₀, by simp, hopen, rfl⟩,
    System.moves_run hmoves⟩, hstep, ⟨[.publish (Handle.flushedManifest s.handle.manifest out)], ?_,
    [], _, [], rfl, by simp⟩, hfailed, ?_, fun w hrun => ?_⟩
  · rw [hvisible.1]
    rfl
  · rw [hput, hfailed.applyWriteGroup (by simp), if_pos hblocked]
  · have hspinning : Preparing.Spinning Preparing.smallMemTable ⟨h, .looping⟩ :=
      ⟨rfl, hfailed.writeWaitOver, hblocked⟩
    exact (hrun.keeps (fun _ _ hstep h => h.step hstep) hspinning).1

/-- The Manifest of a rotation is visible only, and the next `Put` fails; a Manifest is published. -/
theorem publication_is_all_or_nothing_iff_rotation :
    let _ := entrySize80
    (∀ f, ManifestState.AllOrNothing parseSample ⟨initialManifest, none, none, [none]⟩ sampleManifest f) ∧
    ∃ s s' : System, (System.system Preparing.smallMemTable false).Reachable s ∧
      System.Step Preparing.smallMemTable false s s' ∧
      (∃ ops, s'.handle.trace = s.handle.trace ++ ops ∧ VisibleOnly ops) ∧
      s'.Rejects Preparing.smallMemTable false ∧
      ∃ status, s'.handle.put Preparing.smallMemTable [0x61] [0x62] [] [] {} =
        some (s'.handle, status) ∧ status.ok = false := by
  intro _
  have htests : ((System.openThen Preparing.smallMemTable .empty ⟨false, []⟩
      ⟨none, fun _ => false⟩ []).map fun s =>
        (s.handle.applyWriteGroup Preparing.smallMemTable [WriterQueue.firstRequest]
          { rotateAfter := some (.publish syncDirFails) }).map fun r =>
          (decide (s.handle.trace.length < r.1.trace.length), r.1.trace.getLast?,
            r.1.immutable)) =
      some (some (true, some (.publish (Handle.rotatedManifest initialManifest)), none)) := by
    decide +kernel
  obtain ⟨s, hs, htests⟩ := Option.map_eq_some_iff.mp htests
  obtain ⟨⟨h, status⟩, happly, htests⟩ := Option.map_eq_some_iff.mp htests
  simp only [Prod.mk.injEq, decide_eq_true_eq] at htests
  obtain ⟨hlength, hlast, himmutable⟩ := htests
  obtain ⟨h₀, hopen, hmoves⟩ := System.openThen_eq_some hs
  have hreach : (System.system Preparing.smallMemTable false).Reachable s :=
    ⟨_, ⟨.empty, ⟨false, []⟩, ⟨none, fun _ => false⟩, h₀, by simp, hopen, rfl⟩,
      System.moves_run hmoves⟩
  have hstep : System.Step Preparing.smallMemTable false s { s with handle := h } :=
    .write _ (by simp) happly
  obtain ⟨hpublish, -, hcalls⟩ :=
    @publication_is_all_or_nothing_iff _ Preparing.smallMemTable false parseSample
  obtain ⟨ops, htrace, hrejects⟩ := hcalls s _ _ hreach hstep .refl
  have hops : ops ≠ [] := by
    rintro rfl
    rw [List.append_nil] at htrace
    exact absurd hlength (by rw [← htrace]; exact lt_irrefl _)
  have hvisible : VisibleOnly ops := by
    refine ⟨ops.dropLast, Handle.rotatedManifest initialManifest, [], ?_, by simp⟩
    refine (List.dropLast_append_getLast? _ ?_).symm
    rwa [← List.getLast?_append_of_ne_nil s.handle.trace hops, ← htrace]
  obtain ⟨-, hrejected, hwrite⟩ := hrejects hvisible
  exact ⟨fun f => hpublish _ _ f (if_pos rfl), s, _, hreach, hstep, ⟨ops, htrace, hvisible⟩, hrejected,
    (hwrite [.put [0x61] [0x62]] [] [] {}).mpr fun _ => .inl himmutable⟩

end TinyLsm
