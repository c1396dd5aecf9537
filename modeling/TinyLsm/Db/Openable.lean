import TinyLsm.Db.Lives

/-!
# Databases that can be opened again

What `Open` accepts it leaves recoverable: behind its cuts each WAL that the Manifest names holds,
record by record, what went into its MemTable. So the invariant of a life holds from `Open` on whatever
directory the program left behind, and the published files are there and can be opened.
-/

namespace TinyLsm

namespace Handle

/-! ## What recovery leaves -/

section
variable [EntrySize] {o : Options} {durable : Prop} {h h' h₁ : Handle} {number floor last : ℕ}
  {m : MemTable}

/-- A WAL that is recovered holds the records of its MemTable and nothing behind them. -/
theorem logs_of_recoverWal (hr : h.recoverWal o number floor = .ok (h₁, last, m))
    (hsynced : durable → h.dir.WalsSynced) : h₁.dir.Logs o durable number floor last m [] := by
  unfold recoverWal at hr
  split at hr
  · cases hr
  rename_i f hf
  split at hr
  · cases hr
  rename_i result target hreplay
  obtain ⟨hreplayed, hwhole⟩ := replayed_of_replay hreplay
  cases hr
  have hlength : durable → f.synced = f.data.length := fun hdurable => hsynced hdurable number f hf
  split
  · refine ⟨⟨f.data.take result.validBytes, min f.synced result.validBytes⟩,
      f.data.take result.validBytes, by simp [DirOp.apply, hf], (List.append_nil _).symm,
      fun hdurable => ?_, hreplayed⟩
    rw [hlength hdurable, List.length_take]
    exact le_of_eq (min_comm _ _)
  · rename_i hnot
    have hall := hwhole (Bool.eq_false_of_not_eq_true hnot)
    refine ⟨f, f.data.take result.validBytes, hf, by rw [hall, List.append_nil], fun hdurable => ?_,
      hreplayed⟩
    rw [hlength hdurable, hall]

omit [EntrySize] in
theorem walsSynced_of_cut (hcut : h₁ = h ∨ ∃ size, h₁ = h.perform (.truncate (.wal number) size))
    (hsynced : h.dir.WalsSynced) : h₁.dir.WalsSynced := by
  rcases hcut with rfl | ⟨size, rfl⟩
  · exact hsynced
  intro n f hf
  simp only [perform_dir, DirOp.apply, Function.update_apply] at hf
  split at hf
  · rename_i heq
    obtain ⟨f', hf', rfl⟩ := Option.map_eq_some_iff.mp hf
    have hlength := hsynced number f' hf'
    simp only [List.length_take]
    omega
  · exact hsynced n f hf

/-- The steps of recovery so far: the layers of `h'` are those of the directory, which was changed
orderly. -/
theorem restores_of_recoverActive {h₀ : Handle} (hr : h.recoverActive o floor = .ok h')
    (hrecovered : Passes (fun _ => True) h₀ h) (hmanifest : h.dir.manifest = some h.manifest)
    (hvalid : h.manifest.Valid)
    (htables : List.Forall₂ (OpensAs h.dir) h.manifest.liveTables h.tables)
    (hseals : h.dir.Seals o durable h floor) (hsynced : durable → h.dir.WalsSynced) :
    h'.dir.Restores o durable h' none ∧ Passes (fun _ => True) h₀ h' ∧
      h'.pendingCleanup = h.pendingCleanup := by
  unfold recoverActive at hr
  split at hr
  · cases hr
  rename_i h₁ last m hwal
  split at hr
  · cases hr
  cases hr
  have hlogs := logs_of_recoverWal hwal hsynced
  obtain ⟨-, hcut⟩ := recoverWal_cases hwal
  obtain ⟨⟨d, t, heq⟩, hsame, hfiles⟩ := files_of_cut hcut
  have hpasses : Passes (fun _ => True) h h₁ := by
    rcases hcut with rfl | ⟨size, rfl⟩
    · exact .refl trivial
    · exact .perform (fun _ => FileName.noConfusion) trivial trivial
  have hseals₁ : h₁.dir.Seals o durable h floor := hseals.of_file fun hne => hfiles _ fun heq =>
    hvalid.wals_ne (FileName.wal.inj heq)
  have htables₁ := opensAs_of_files htables fun t _ => hfiles (.sst t.fileNumber) (by simp)
  rw [heq] at hlogs hsame hseals₁ htables₁ hpasses ⊢
  refine ⟨⟨hsame.trans hmanifest, htables₁, .active ?_ (by simpa using hlogs) .nothing⟩,
    hrecovered.trans (hpasses.trans (.of_eq rfl rfl trivial)), rfl⟩
  cases hseals₁ with
  | none hzero himmutable => exact .none hzero himmutable
  | some hne himmutable hsome hsealed htorn => exact .some hne himmutable hsome hsealed htorn

theorem restores_of_recoverWals (hr : h.recoverWals o = .ok h') (himmutable : h.immutable = none)
    (hmanifest : h.dir.manifest = some h.manifest) (hvalid : h.manifest.Valid)
    (htables : List.Forall₂ (OpensAs h.dir) h.manifest.liveTables h.tables)
    (hsynced : durable → h.dir.WalsSynced) :
    h'.dir.Restores o durable h' none ∧ Passes (fun _ => True) h h' ∧
      h'.pendingCleanup = h.pendingCleanup := by
  unfold recoverWals at hr
  split at hr
  · rename_i hzero
    exact restores_of_recoverActive hr (.refl trivial) hmanifest hvalid htables
      (.none hzero himmutable) hsynced
  rename_i hne
  split at hr
  · cases hr
  rename_i h₁ last m hwal
  split at hr
  · cases hr
  rename_i hempty
  have hlogs := logs_of_recoverWal hwal hsynced
  obtain ⟨-, hcut⟩ := recoverWal_cases hwal
  have hsynced₁ : durable → h₁.dir.WalsSynced :=
    fun hdurable => walsSynced_of_cut hcut (hsynced hdurable)
  obtain ⟨⟨d, t, heq⟩, hsame, hfiles⟩ := files_of_cut hcut
  have hpasses : Passes (fun _ => True) h h₁ := by
    rcases hcut with rfl | ⟨size, rfl⟩
    · exact .refl trivial
    · exact .perform (fun _ => FileName.noConfusion) trivial trivial
  have htables₁ := opensAs_of_files htables fun t _ => hfiles (.sst t.fileNumber) (by simp)
  rw [heq] at hr hlogs hsame hpasses hsynced₁ htables₁
  let h₂ : Handle := { h with dir := d, trace := t, immutable := some m }
  have hseals : h₂.dir.Seals o durable h₂ last :=
    .some hne rfl (Bool.eq_false_of_not_eq_true hempty) hlogs (.inl rfl)
  have hpasses₂ : Passes (fun _ => True) h h₂ := hpasses.trans (.of_eq rfl rfl trivial)
  exact restores_of_recoverActive (h := h₂) hr hpasses₂ (hsame.trans hmanifest) hvalid htables₁ hseals
    hsynced₁

/-- The directory behind `Open` holds the handle that is returned. -/
theorem restores_of_recover {d : Directory} {manifest : ManifestSnapshot} {sweep : SweepFaults}
    (hr : (blank d manifest []).recover o sweep = .ok h) (hmanifest : d.manifest = some manifest)
    (hvalid : manifest.Valid) (hsynced : durable → d.WalsSynced) :
    h.dir.Restores o durable h none ∧ d.Orderly h.trace := by
  unfold recover at hr
  split at hr
  · cases hr
  rename_i h₁ htables
  split at hr
  · cases hr
  rename_i h₂ hwals
  unfold openManifestSSTables at htables
  split at htables
  · cases htables
  rename_i tables hopen
  cases htables
  cases hr
  obtain ⟨hr₂, hpasses, hpending⟩ :=
    restores_of_recoverWals hwals rfl hmanifest hvalid (openTables_eq_ok hopen) hsynced
  have hclean := Harmless.cleanupObsoleteFiles hpending sweep.listed sweep.fails
  obtain ⟨d₃, t₃, p, hswept⟩ := OnlyFiles.cleanupObsoleteFiles h₂ sweep.listed sweep.fails
  have hswept' := hclean.restores h₂ rfl hr₂
  obtain ⟨ops, htrace, -, horderly, -⟩ :=
    hpasses.trans (hswept'.mono fun _ _ => trivial)
  have hlast := hswept'.last
  refine ⟨?_, ?_⟩
  · rw [hswept] at hlast ⊢
    exact hlast.congr rfl rfl rfl rfl rfl
  · obtain rfl : (h₂.cleanupObsoleteFiles sweep.listed sweep.fails).trace = ops := htrace
    exact horderly

end

end Handle

/-! ## Lives on any directory -/

section
variable [EntrySize] {o : Options} {d : Directory} {listing : Listing} {sweep : SweepFaults}
  {h : Handle}

/-- The versions of a handle, the older ones first, are a log that it holds. -/
theorem Handle.exists_holds (hd : d.Written) (hopen : Handle.open o d listing sweep = .ok h) :
    ∃ log, h.Holds o log := by
  have hl : Layered o h .waiting := Layered.opened hopen
  set log := h.versions.insertionSort fun a b => a.sequence ≤ b.sequence with hlog
  have hperm : log.Perm h.versions := List.perm_insertionSort _ _
  refine ⟨log, hl, (Handle.open_space hopen hd.lastSequence_lt).1, List.pairwise_insertionSort _ _,
    hl.versions_distinct.perm hperm, fun e he => hl.versions_lt (hperm.mem_iff.mp he), ?_⟩
  exact fun key value q _ => VisibleValue.congr fun e => hperm.mem_iff.symm

/-- A life begins on every directory that the program left behind. -/
theorem Live.Inv.exists_of_open (hd : d.Written) (hsweep : sweep.fails = fun _ => false)
    (hopen : Handle.open o d listing sweep = .ok h) :
    ∃ log, Live.Inv o ⟨d, ⟨System.started h, log, []⟩, []⟩ := by
  obtain ⟨m, hvalid, ⟨hmanifest, hrecover⟩ | ⟨hmanifest, -⟩⟩ :=
    Handle.open_eq_ok hopen
  · have hsynced : d.Durable o → d.WalsSynced := And.right
    obtain ⟨hr, horderly⟩ := Handle.restores_of_recover hrecover hmanifest hvalid hsynced
    obtain ⟨log, hh⟩ := Handle.exists_holds hd hopen
    exact ⟨log, .opened hd hopen hsweep hh horderly hr⟩
  · exact ⟨[], .of_new hd hmanifest hsweep hopen⟩

/-- The invariant of a life holds in every run of the threads without a sweep beside an output. -/
theorem Live.Inv.of_run (ho : o.Accepted) (hroom : o.HasRoom) (hd : d.Written)
    (hsweep : sweep.fails = fun _ => false) (hopen : Handle.open o d listing sweep = .ok h)
    {s : System} (hrun : (System.quiet o).Run (System.started h) s) :
    ∃ g : History, g.system = s ∧ Live.Inv o ⟨d, g, []⟩ := by
  induction hrun with
  | refl =>
    obtain ⟨log, hi⟩ := Live.Inv.exists_of_open hd hsweep hopen
    exact ⟨_, rfl, hi⟩
  | tail _ hstep ih =>
    obtain ⟨g₁, rfl, hi⟩ := ih
    obtain ⟨g, rfl, hlive⟩ := Life.exists_live_step (l := ⟨d, g₁, []⟩) rfl hstep
    exact ⟨g, rfl, (hi.step ho hroom hlive).1⟩

end

end TinyLsm
