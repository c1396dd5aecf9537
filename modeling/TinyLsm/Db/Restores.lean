import TinyLsm.Db.SequenceSpace
import TinyLsm.Db.Unlinks
import TinyLsm.Wal.Replayed

/-!
# Directories that hold a handle

A directory restores a handle when its Manifest is the current one, its tables open as they did, and
the WALs that it names hold, record by record, what is in the MemTables. Behind the last record may
stand what one failed commit left. `Open` on such a directory recovers the layers of the handle, and
that one group when its record is complete.
-/

namespace TinyLsm

/-! ## Logs of MemTables -/

section
variable [EntrySize] {limits : DecodeLimits} {floor previous last : ℕ} {m m' : MemTable} {bytes : Bytes}

/-- A log puts its entries into the MemTable. -/
theorem Replayed.between (h : Replayed MemTable.applyBatch limits previous m bytes last m')
    (hm : m.Between floor previous) (hfloor : floor ≤ previous) : m'.Between floor last := by
  induction h with
  | nil => exact hm
  | cons _ habove happly _ ih =>
    obtain ⟨hm₁, hle⟩ := hm.applyBatch hfloor
      (fun e he => (habove e (List.mem_of_mem_head? he)).1) happly
    exact ih hm₁ (hfloor.trans hle)

theorem Replayed.between_empty
    (h : Replayed MemTable.applyBatch limits floor .empty bytes last m) : m.Between floor last :=
  h.between ⟨MemTable.inv_empty, by simp [MemTable.empty, MemTable.contents]⟩ le_rfl

/-- The last sequence is that of a version, unless there is no record. -/
theorem Replayed.exists_last (h : Replayed MemTable.applyBatch limits previous m bytes last m')
    (hm : m.Inv) : bytes = [] ∨ ∃ e ∈ m'.contents, e.sequence = last := by
  -- a version that is there stays there
  have hkeeps : ∀ {previous m bytes last m'},
      Replayed MemTable.applyBatch limits previous m bytes last m' → m.Inv →
      (∃ e ∈ m.contents, e.sequence = previous) → ∃ e ∈ m'.contents, e.sequence = last := by
    intro previous m bytes last m' h
    induction h with
    | nil => exact fun _ he => he
    | cons hframe _ happly _ ih =>
      intro hm _
      obtain ⟨hm₁, hmem, -⟩ := hm.applyBatch happly
      obtain ⟨e, he, hlast⟩ := exists_lastSequence hframe.ne_nil _
      exact ih hm₁ ⟨e, (hmem e).mpr (.inr he), hlast.symm⟩
  cases h with
  | nil => exact .inl rfl
  | cons hframe _ happly hrest =>
    obtain ⟨hm₁, hmem, -⟩ := hm.applyBatch happly
    obtain ⟨e, he, hlast⟩ := exists_lastSequence hframe.ne_nil _
    exact .inr (hkeeps hrest hm₁ ⟨e, (hmem e).mpr (.inr he), hlast.symm⟩)

end

/-! ## What a directory holds -/

section
variable [EntrySize] (o : Options) (durable : Prop)

/-- The WAL holds the records of the MemTable, synced if they are to be durable, and some bytes behind
them. -/
def Directory.Logs (d : Directory) (number floor last : ℕ) (m : MemTable) (tail : Bytes) : Prop :=
  ∃ f records, d.files (.wal number) = some f ∧ f.data = records ++ tail ∧
    (durable → records.length ≤ f.synced) ∧
    Replayed MemTable.applyBatch o.limits floor .empty records last m

/-- What a failed commit leaves behind the records of the MemTable: nothing, a part of a record, or
all of it, which is then recovered as well. -/
inductive LeftBehind (last : ℕ) (m : MemTable) : Bytes → Option (List InternalEntry) → Prop
  | nothing : LeftBehind last m [] none
  | torn {tail} (htorn : TornTail o.limits tail) : LeftBehind last m tail (some [])
  | whole {tail g m'} (hframe : IsFrame o.limits g tail)
      (habove : ∀ e ∈ g, last < e.sequence ∧ e.sequence < 2 ^ 64 - 1)
      (happly : m.applyBatch g = .ok m') : LeftBehind last m tail (some g)

/-- The WAL of the immutable MemTable, if there is one; `floor` is its last sequence. -/
inductive Directory.Seals (d : Directory) (h : Handle) : ℕ → Prop
  | none (hzero : h.manifest.immutableWalNumber = 0) (himmutable : h.immutable = none) :
      Seals d h h.manifest.lastSequence
  | some {m tail floor} (hne : h.manifest.immutableWalNumber ≠ 0) (himmutable : h.immutable = some m)
      (hsome : m.isEmpty = false)
      (hlogs : d.Logs o durable h.manifest.immutableWalNumber h.manifest.lastSequence floor m tail)
      (htorn : TornTail o.limits tail) : Seals d h floor

/-- The WALs hold the MemTables and behind them the entries `left` of a failed commit. -/
inductive Directory.Recovers (d : Directory) (h : Handle) : Option (List InternalEntry) → Prop
  | active {floor tail left} (hseals : d.Seals o durable h floor)
      (hlogs : d.Logs o durable h.manifest.activeWalNumber floor (h.nextSequence - 1) h.memtable tail)
      (hleft : LeftBehind o (h.nextSequence - 1) h.memtable tail left) : Recovers d h left
  /-- The WAL was sealed behind the failed commit. -/
  | sealed {m tail left} (hne : h.manifest.immutableWalNumber ≠ 0) (himmutable : h.immutable = some m)
      (hsome : m.isEmpty = false)
      (hlogs : d.Logs o durable h.manifest.immutableWalNumber h.manifest.lastSequence
        (h.nextSequence - 1) m tail)
      (hleft : LeftBehind o (h.nextSequence - 1) m tail left)
      (hactive : ∃ f, d.files (.wal h.manifest.activeWalNumber) = some f ∧ f.data = [])
      (hempty : h.memtable = .empty) : Recovers d h left

/-- The directory holds the layers of the handle, and the entries `left` of a failed commit. -/
structure Directory.Restores (d : Directory) (h : Handle) (left : Option (List InternalEntry)) :
    Prop where
  manifest : d.manifest = some h.manifest
  tables : List.Forall₂ (Handle.OpensAs d) h.manifest.liveTables h.tables
  wals : d.Recovers o durable h left

end

section
variable [EntrySize] {o : Options} {durable : Prop} {d d' : Directory} {h h' : Handle}
  {left : Option (List InternalEntry)} {number floor last : ℕ} {m : MemTable} {tail : Bytes}

theorem Directory.Logs.of_file (hlogs : d.Logs o durable number floor last m tail)
    (hfile : d'.files (.wal number) = d.files (.wal number)) :
    d'.Logs o durable number floor last m tail := by
  obtain ⟨f, records, hf, hlog⟩ := hlogs
  exact ⟨f, records, hfile.trans hf, hlog⟩

theorem Directory.Seals.of_file {floor : ℕ} (hseals : d.Seals o durable h floor)
    (hfile : h.manifest.immutableWalNumber ≠ 0 → d'.files (.wal h.manifest.immutableWalNumber) =
      d.files (.wal h.manifest.immutableWalNumber)) : d'.Seals o durable h floor := by
  cases hseals with
  | none hzero hnone => exact .none hzero hnone
  | some hne hsome hnonempty hlogs htorn =>
    exact .some hne hsome hnonempty (hlogs.of_file (hfile hne)) htorn

namespace Directory.Restores

/-- Only the named files matter. -/
theorem of_files (hr : d.Restores o durable h left) (hmanifest : d'.manifest = d.manifest)
    (hfiles : ∀ name, h.manifest.Names name → d'.files name = d.files name) :
    d'.Restores o durable h left := by
  have hactive : d'.files (.wal h.manifest.activeWalNumber) =
      d.files (.wal h.manifest.activeWalNumber) := hfiles (.wal _) (.inl rfl)
  have himmutable : h.manifest.immutableWalNumber ≠ 0 →
      d'.files (.wal h.manifest.immutableWalNumber) =
        d.files (.wal h.manifest.immutableWalNumber) :=
    fun hne => hfiles (.wal _) (.inr ⟨hne, rfl⟩)
  refine ⟨hmanifest.trans hr.manifest, ?_, ?_⟩
  · exact Handle.opensAs_of_files hr.tables fun t ht => hfiles (.sst _) (List.mem_map_of_mem ht)
  · cases hr.wals with
    | active hseals hlogs hleft =>
      exact .active (hseals.of_file himmutable) (hlogs.of_file hactive) hleft
    | sealed hne hsome hnonempty hlogs hleft hempty hmemtable =>
      exact .sealed hne hsome hnonempty (hlogs.of_file (himmutable hne)) hleft
        (by rwa [hactive]) hmemtable

/-- Only the layers matter. -/
theorem congr (hr : d.Restores o durable h left) (hmanifest : h'.manifest = h.manifest)
    (htables : h'.tables = h.tables) (hmemtable : h'.memtable = h.memtable)
    (himmutable : h'.immutable = h.immutable) (hnext : h'.nextSequence = h.nextSequence) :
    d.Restores o durable h' left := by
  obtain ⟨hm, ht, hw⟩ := hr
  refine ⟨hmanifest ▸ hm, hmanifest ▸ htables ▸ ht, ?_⟩
  cases hw with
  | active hseals hlogs hleft =>
    refine .active ?_ (hmanifest ▸ hnext ▸ hmemtable ▸ hlogs) (hnext ▸ hmemtable ▸ hleft)
    cases hseals with
    | none hzero hnone => exact hmanifest ▸ .none (hmanifest ▸ hzero) (himmutable.trans hnone)
    | some hne hsome hnonempty hsealed htorn =>
      exact .some (hmanifest ▸ hne) (himmutable.trans hsome) hnonempty (hmanifest ▸ hsealed) htorn
  | sealed hne hsome hnonempty hlogs hleft hactive hempty =>
    exact .sealed (hmanifest ▸ hne) (himmutable.trans hsome) hnonempty (hmanifest ▸ hnext ▸ hlogs)
      (hnext ▸ hleft) (hmanifest ▸ hactive) (hmemtable.trans hempty)

end Directory.Restores

/-- A torn record is the most that stands behind the records of the active MemTable. -/
theorem Directory.Recovers.settled (hw : d.Recovers o durable h left) (hleft : left.getD [] = []) :
    ∃ floor tail, d.Seals o durable h floor ∧
      d.Logs o durable h.manifest.activeWalNumber floor (h.nextSequence - 1) h.memtable tail ∧
      TornTail o.limits tail ∧ (left = none → tail = []) := by
  have htorn : ∀ {last m tail}, LeftBehind o last m tail left →
      TornTail o.limits tail ∧ (left = none → tail = []) := by
    intro last m tail hbehind
    cases hbehind with
    | nothing => exact ⟨.inl rfl, fun _ => rfl⟩
    | torn htorn => exact ⟨htorn, by simp⟩
    | whole hframe => exact absurd hleft hframe.ne_nil
  cases hw with
  | active hseals hlogs hbehind => exact ⟨_, _, hseals, hlogs, htorn hbehind⟩
  | sealed hne hsome hnonempty hlogs hbehind hactive hempty =>
    obtain ⟨f, hf, hdata⟩ := hactive
    refine ⟨_, [], .some hne hsome hnonempty hlogs (htorn hbehind).1, ⟨f, [], hf, hdata, ?_, ?_⟩,
      .inl rfl, fun _ => rfl⟩
    · exact fun _ => Nat.zero_le _
    · rw [hempty]
      exact .nil

/-- Nothing is less than a torn record. -/
theorem Directory.Restores.torn (hr : d.Restores o durable h none) :
    d.Restores o durable h (some []) := by
  obtain ⟨floor, tail, hseals, hlogs, htorn, -⟩ := hr.wals.settled rfl
  exact ⟨hr.manifest, hr.tables, .active hseals hlogs (.torn htorn)⟩

theorem Directory.Restores.settle (hr : d.Restores o durable h left) (hleft : left.getD [] = []) :
    d.Restores o durable h (some []) := by
  cases left with
  | none => exact hr.torn
  | some g => exact (show g = [] from hleft) ▸ hr

end

/-! ## Operations on other files -/

/-- The operation changes no file that the Manifest names, and no table. -/
def DirOp.Harmless (m : ManifestSnapshot) : DirOp → Prop
  | create name | append name _ | sync name | truncate name _ => ¬ m.Names name ∧ ∀ n, name ≠ .sst n
  | remove name => ¬ m.Names name
  | rename source target => ¬ m.Names source ∧ ¬ m.Names target
  | publish _ => False
  | syncDir => True

theorem DirOp.Harmless.apply {m : ManifestSnapshot} {op : DirOp} (hop : op.Harmless m)
    (d : Directory) : (op.apply d).manifest = d.manifest ∧
      ∀ name, m.Names name → (op.apply d).files name = d.files name := by
  have hapart : ∀ {name other}, m.Names name → ¬ m.Names other → name ≠ other := by
    rintro name other hname hother rfl
    exact hother hname
  cases op with
  | create name | append name | sync name | truncate name =>
    exact ⟨rfl, fun _ hname => Function.update_of_ne (hapart hname hop.1) _ _⟩
  | remove name => exact ⟨rfl, fun _ hname => Function.update_of_ne (hapart hname hop) _ _⟩
  | rename source target =>
    simp only [DirOp.apply]
    split
    · exact ⟨rfl, fun _ _ => rfl⟩
    · refine ⟨rfl, fun _ hname => ?_⟩
      dsimp only
      rw [Function.update_of_ne (hapart hname hop.1), Function.update_of_ne (hapart hname hop.2)]
  | publish => exact hop.elim
  | syncDir => exact ⟨rfl, fun _ _ => rfl⟩

theorem DirOp.Harmless.foldl {m : ManifestSnapshot} {ops : List DirOp}
    (hops : ∀ op ∈ ops, op.Harmless m) (d : Directory) :
    (ops.foldl DirOp.apply d).manifest = d.manifest ∧
      ∀ name, m.Names name → (ops.foldl DirOp.apply d).files name = d.files name := by
  induction ops generalizing d with
  | nil => exact ⟨rfl, fun _ _ => rfl⟩
  | cons op ops ih =>
    obtain ⟨hop, hfiles⟩ := (hops op List.mem_cons_self).apply d
    obtain ⟨hrest, hfiles'⟩ := ih (fun op' hop' => hops op' (List.mem_cons_of_mem _ hop')) (op.apply d)
    exact ⟨hrest.trans hop, fun name hname => (hfiles' name hname).trans (hfiles name hname)⟩

theorem Directory.Restores.harmless [EntrySize] {o : Options} {durable : Prop} {d : Directory}
    {h : Handle} {left : Option (List InternalEntry)} {op : DirOp} (hr : d.Restores o durable h left)
    (hop : op.Harmless h.manifest) : (op.apply d).Restores o durable h left :=
  hr.of_files (hop.apply d).1 (hop.apply d).2

/-! ## The order of file operations -/

/-- The operation makes, moves or removes no name that the published Manifest has, and writes to no
table. -/
def DirOp.Steady (manifest : Option ManifestSnapshot) : DirOp → Prop
  | create name => (∀ m, manifest = some m → ¬ m.Names name) ∧ ∀ n, name ≠ .sst n
  | append name _ | sync name | truncate name _ => ∀ n, name ≠ .sst n
  | rename source target => ∀ m, manifest = some m → ¬ m.Names source ∧ ¬ m.Names target
  | remove name => ∀ m, manifest = some m → ¬ m.Names name
  | publish _ => False
  | syncDir => True

theorem DirOp.Harmless.steady {m : ManifestSnapshot} {op : DirOp} (hop : op.Harmless m) :
    op.Steady (some m) := by
  cases op with
  | create name =>
    refine ⟨?_, hop.2⟩
    rintro _ ⟨⟩
    exact hop.1
  | append | sync | truncate => exact hop.2
  | remove | rename =>
    rintro _ ⟨⟩
    exact hop
  | publish => exact hop
  | syncDir => trivial

/-- The names that the Manifest has stay, and behind a published Manifest the directory is synced at
once. -/
inductive Directory.Orderly : Directory → List DirOp → Prop
  | nil {d : Directory} : Orderly d []
  | op {d : Directory} {op : DirOp} {ops : List DirOp} (hop : op.Steady d.manifest)
      (hops : Orderly (op.apply d) ops) : Orderly d (op :: ops)
  | publish {d : Directory} {m : ManifestSnapshot} {ops : List DirOp}
      (hops : Orderly ((DirOp.publish m).apply d) ops) : Orderly d (.publish m :: .syncDir :: ops)

theorem Directory.Orderly.append {d : Directory} {ops ops' : List DirOp} (h : d.Orderly ops)
    (h' : (ops.foldl DirOp.apply d).Orderly ops') : d.Orderly (ops ++ ops') := by
  induction h with
  | nil => exact h'
  | op hop _ ih => exact .op hop (ih h')
  | publish _ ih => exact .publish (ih h')

/-- An operation is steady, or publishes a Manifest that is synced behind it. -/
theorem Directory.Orderly.split {d : Directory} {before rest : List DirOp} {op : DirOp}
    (h : d.Orderly (before ++ op :: rest)) :
    op.Steady (before.foldl DirOp.apply d).manifest ∨
      ∃ m rest', op = .publish m ∧ rest = .syncDir :: rest' := by
  generalize hops : before ++ op :: rest = ops at h
  induction h generalizing before with
  | nil => simp at hops
  | op hop _ ih =>
    cases before with
    | nil =>
      obtain ⟨rfl, rfl⟩ := List.cons.inj hops
      exact .inl hop
    | cons first before =>
      rw [List.cons_append, List.cons.injEq] at hops
      obtain ⟨rfl, hops⟩ := hops
      exact ih hops
  | @publish _ m ops _ ih =>
    match before with
    | [] =>
      obtain ⟨rfl, rfl⟩ := List.cons.inj hops
      exact .inr ⟨m, ops, rfl, rfl⟩
    | [first] =>
      simp only [List.cons_append, List.nil_append, List.cons.injEq] at hops
      obtain ⟨-, rfl, -⟩ := hops
      exact .inl trivial
    | first :: second :: before =>
      simp only [List.cons_append, List.cons.injEq] at hops
      obtain ⟨rfl, rfl, hops⟩ := hops
      have hrest := ih hops
      exact hrest

namespace Handle

/-- From one state to the other, the file operations are orderly, and every directory in between has
the property. -/
def Passes (P : Directory → Prop) (h h' : Handle) : Prop :=
  ∃ ops, h'.trace = h.trace ++ ops ∧ h'.dir = ops.foldl DirOp.apply h.dir ∧ h.dir.Orderly ops ∧
    ∀ before, before <+: ops → P (before.foldl DirOp.apply h.dir)

namespace Passes

variable {P Q : Directory → Prop} {h h' h'' : Handle}

theorem of_eq (htrace : h'.trace = h.trace) (hdir : h'.dir = h.dir) (hP : P h.dir) : Passes P h h' :=
  ⟨[], by simp [htrace], hdir, .nil, fun before hbefore => List.prefix_nil.mp hbefore ▸ hP⟩

theorem refl (hP : P h.dir) : Passes P h h := .of_eq rfl rfl hP

theorem perform {op : DirOp} (hop : op.Steady h.dir.manifest) (hP : P h.dir)
    (hP' : P (op.apply h.dir)) : Passes P h (h.perform op) := by
  refine ⟨[op], rfl, rfl, .op hop .nil, fun before hbefore => ?_⟩
  rcases List.prefix_cons_iff.mp hbefore with rfl | ⟨rest, rfl, hrest⟩
  · exact hP
  · rw [List.prefix_nil.mp hrest]
    exact hP'

/-- A Manifest is published. -/
theorem publish {next : ManifestSnapshot} (hP : P h.dir)
    (hP' : P ((DirOp.publish next).apply h.dir)) :
    Passes P h ((h.perform (.publish next)).perform .syncDir) := by
  refine ⟨[.publish next, .syncDir], by simp, rfl, .publish .nil, fun before hbefore => ?_⟩
  rcases List.prefix_cons_iff.mp hbefore with rfl | ⟨rest, rfl, hrest⟩
  · exact hP
  · rcases List.prefix_cons_iff.mp hrest with rfl | ⟨rest', rfl, hrest'⟩
    · exact hP'
    · rw [List.prefix_nil.mp hrest']
      exact hP'

theorem trans (hh : Passes P h h') (hh' : Passes P h' h'') : Passes P h h'' := by
  obtain ⟨ops, htrace, hdir, horderly, hP⟩ := hh
  obtain ⟨ops', htrace', hdir', horderly', hP'⟩ := hh'
  refine ⟨ops ++ ops', by rw [htrace', htrace, List.append_assoc], ?_,
    horderly.append (hdir ▸ horderly'), fun before hbefore => ?_⟩
  · rw [List.foldl_append, ← hdir, hdir']
  · rcases List.prefix_or_prefix_of_prefix hbefore (List.prefix_append ops ops') with hfirst | hrest
    · exact hP before hfirst
    · obtain ⟨rest, rfl⟩ := hrest
      rw [List.foldl_append, ← hdir]
      exact hP' rest ((List.prefix_append_right_inj ops).mp hbefore)

theorem mono (hh : Passes P h h') (hPQ : ∀ d, P d → Q d) : Passes Q h h' := by
  obtain ⟨ops, htrace, hdir, horderly, hP⟩ := hh
  exact ⟨ops, htrace, hdir, horderly, fun before hbefore => hPQ _ (hP before hbefore)⟩

theorem last (hh : Passes P h h') : P h'.dir := by
  obtain ⟨ops, -, hdir, -, hP⟩ := hh
  rw [hdir]
  exact hP ops (List.prefix_refl _)

end Passes

/-- From one state to the other the Manifest stays, and so do the files it names. -/
structure Harmless (h h' : Handle) : Prop where
  manifest : h'.manifest = h.manifest
  ops : ∃ ops, h'.trace = h.trace ++ ops ∧ h'.dir = ops.foldl DirOp.apply h.dir ∧
    ∀ op ∈ ops, op.Harmless h.manifest

namespace Harmless

variable {h h' h'' : Handle}

theorem refl (h : Handle) : Harmless h h := ⟨rfl, [], by simp, rfl, by simp⟩

theorem of_eq (hmanifest : h'.manifest = h.manifest) (htrace : h'.trace = h.trace)
    (hdir : h'.dir = h.dir) : Harmless h h' :=
  ⟨hmanifest, [], by simp [htrace], hdir, by simp⟩

theorem perform {op : DirOp} (hop : op.Harmless h.manifest) : Harmless h (h.perform op) :=
  ⟨rfl, [op], rfl, rfl, by simpa using hop⟩

theorem trans (hh : Harmless h h') (hh' : Harmless h' h'') : Harmless h h'' := by
  obtain ⟨hmanifest, ops, htrace, hdir, hops⟩ := hh
  obtain ⟨hmanifest', ops', htrace', hdir', hops'⟩ := hh'
  refine ⟨hmanifest'.trans hmanifest, ops ++ ops', by rw [htrace', htrace, List.append_assoc], ?_,
    fun op hop => ?_⟩
  · rw [List.foldl_append, ← hdir, hdir']
  · rcases List.mem_append.mp hop with hop | hop
    · exact hops op hop
    · exact hmanifest ▸ hops' op hop

theorem files (hh : Harmless h h') : h'.dir.manifest = h.dir.manifest ∧
    ∀ name, h.manifest.Names name → h'.dir.files name = h.dir.files name := by
  obtain ⟨-, ops, -, hdir, hops⟩ := hh
  rw [hdir]
  exact DirOp.Harmless.foldl hops h.dir

theorem orderly {m : ManifestSnapshot} {ops : List DirOp} (hops : ∀ op ∈ ops, op.Harmless m)
    {d : Directory} (hd : d.manifest = some m) : d.Orderly ops := by
  induction ops generalizing d with
  | nil => exact .nil
  | cons op ops ih =>
    have hop := hops op List.mem_cons_self
    exact .op (hd ▸ hop.steady) (ih (fun other hother => hops other (List.mem_cons_of_mem _ hother))
      ((hop.apply d).1.trans hd))

/-- What harmless operations keep, holds in between. -/
theorem passes {P : Directory → Prop} (hh : Harmless h h') (hmanifest : h.dir.manifest = some h.manifest)
    (hP : P h.dir) (hkeeps : ∀ (op : DirOp) d, op.Harmless h.manifest → P d → P (op.apply d)) :
    Passes P h h' := by
  obtain ⟨-, ops, htrace, hdir, hops⟩ := hh
  refine ⟨ops, htrace, hdir, orderly hops hmanifest, fun before hbefore => ?_⟩
  have hall : ∀ op ∈ before, op.Harmless h.manifest := fun op hop => hops op (hbefore.subset hop)
  clear hdir htrace hops hbefore
  induction before using List.reverseRecOn with
  | nil => exact hP
  | append_singleton before op ih =>
    rw [List.foldl_append]
    exact hkeeps op _ (hall op (by simp)) (ih fun other hother => hall other (by simp [hother]))

theorem bestEffortRemove {name : FileName} (hname : ¬ h.manifest.Names name) (fails : Bool) :
    Harmless h (h.bestEffortRemove name fails) := by
  unfold Handle.bestEffortRemove
  split
  · split
    · exact .refl h
    · exact .of_eq rfl rfl rfl
  · exact .perform hname

theorem removeAll {names : List FileName} (hnames : ∀ name ∈ names, ¬ h.manifest.Names name)
    (fails : FileName → Bool) : Harmless h (h.removeAll names fails) := by
  unfold Handle.removeAll
  induction names generalizing h with
  | nil => exact .refl h
  | cons name names ih =>
    have hfirst := bestEffortRemove (hnames name List.mem_cons_self) (fails name)
    refine hfirst.trans (ih fun other hother => ?_)
    rw [hfirst.manifest]
    exact hnames other (List.mem_cons_of_mem _ hother)

theorem cleanupObsoleteFiles (hpending : h.pendingCleanup = []) (listed : Option (List FileName))
    (fails : FileName → Bool) : Harmless h (h.cleanupObsoleteFiles listed fails) := by
  unfold Handle.cleanupObsoleteFiles
  rw [hpending]
  cases listed with
  | none => exact .of_eq rfl rfl rfl
  | some names =>
    have hcleared : Harmless h { h with pendingCleanup := [] } := .of_eq rfl rfl rfl
    refine hcleared.trans ?_
    exact removeAll (fun name hname => not_names_of_obsolete (List.mem_filter.mp hname).2) fails

/-- The directory still holds the handle. -/
theorem restores [EntrySize] {o : Options} {durable : Prop} {left : Option (List InternalEntry)}
    (hh : Harmless h h') (h₀ : Handle) (hmanifest : h₀.manifest = h.manifest)
    (hr : h.dir.Restores o durable h₀ left) : Passes (·.Restores o durable h₀ left) h h' :=
  hh.passes (hmanifest ▸ hr.manifest) hr fun _ _ hop hr => hr.harmless (hmanifest ▸ hop)

end Harmless

/-! ## Open -/

section
variable [EntrySize] {o : Options} {durable : Prop} {h h₀ : Handle} {number floor last : ℕ}
  {m : MemTable} {tail : Bytes}

/-- Recovery of a WAL cuts off what stands behind the records. -/
theorem recoverWal_logs (hlogs : h₀.dir.Logs o durable number floor last m tail)
    (htorn : TornTail o.limits tail) :
    ∃ h₁, h₀.recoverWal o number floor = .ok (h₁, last, m) ∧
      (h₁ = h₀ ∨ ∃ size, h₁ = h₀.perform (.truncate (.wal number) size)) ∧
      h₁.dir.Logs o durable number floor last m [] := by
  obtain ⟨f, records, hf, hdata, hsynced, hreplayed⟩ := hlogs
  obtain ⟨result, hreplay, hmax, hvalid, htruncated⟩ := hreplayed.replay_eq htorn
  simp only [recoverWal, hf, hdata, hreplay, hmax]
  refine ⟨_, rfl, ?_⟩
  split
  · refine ⟨.inr ⟨_, rfl⟩, ⟨records, min f.synced records.length⟩, records, ?_, by simp, ?_,
      hreplayed⟩
    · simp [DirOp.apply, hf, hdata, hvalid]
    · exact fun hdurable => le_min (hsynced hdurable) le_rfl
  · rename_i hnot
    have hnil : tail = [] := by simpa [htruncated] using hnot
    exact ⟨.inl rfl, f, records, hf, by rw [hdata, hnil], hsynced, hreplayed⟩

theorem recoverWal_passes {h₁ : Handle} (hr : h₀.dir.Restores o durable h (some []))
    (hr₁ : h₁.dir.Restores o durable h (some []))
    (hcut : h₁ = h₀ ∨ ∃ size, h₁ = h₀.perform (.truncate (.wal number) size)) :
    Passes (·.Restores o durable h (some [])) h₀ h₁ := by
  rcases hcut with rfl | ⟨size, rfl⟩
  · exact .refl hr
  · exact .perform (fun _ => FileName.noConfusion) hr hr₁

omit [EntrySize] in
/-- A cut of one WAL leaves the other files. -/
theorem files_of_cut {h₁ : Handle}
    (hcut : h₁ = h₀ ∨ ∃ size, h₁ = h₀.perform (.truncate (.wal number) size)) :
    (∃ d t, h₁ = { h₀ with dir := d, trace := t }) ∧ h₁.dir.manifest = h₀.dir.manifest ∧
      ∀ name, name ≠ .wal number → h₁.dir.files name = h₀.dir.files name := by
  rcases hcut with rfl | ⟨size, rfl⟩
  · exact ⟨⟨_, _, rfl⟩, rfl, fun _ _ => rfl⟩
  · exact ⟨⟨_, _, rfl⟩, rfl, fun name hname => Function.update_of_ne hname _ _⟩

/-- The active WAL is recovered behind the sealed one. -/
theorem recoverActive_restores (h₀ : Handle) (hr : h₀.dir.Restores o durable h (some []))
    (hseals : h₀.dir.Seals o durable h floor)
    (hlogs : h₀.dir.Logs o durable h.manifest.activeWalNumber floor (h.nextSequence - 1) h.memtable
      tail) (htorn : TornTail o.limits tail) (hvalid : h.manifest.Valid)
    (hpos : 0 < h.nextSequence) (hlt : h.nextSequence < 2 ^ 64) (hmanifest : h₀.manifest = h.manifest) :
    ∃ d t, h₀.recoverActive o floor = .ok { h₀ with
        memtable := h.memtable, nextSequence := h.nextSequence, dir := d, trace := t } ∧
      d.Restores o durable h none ∧ Passes (·.Restores o durable h (some [])) h₀ { h₀ with
        memtable := h.memtable, nextSequence := h.nextSequence, dir := d, trace := t } := by
  rw [← hmanifest] at hlogs
  obtain ⟨h₁, hwal, hcut, hlogs₁⟩ := recoverWal_logs hlogs htorn
  obtain ⟨⟨d, t, heq⟩, hsame, hfiles⟩ := files_of_cut hcut
  have hr₁ : h₁.dir.Restores o durable h none := by
    refine ⟨hsame.trans hr.manifest, ?_, .active (hseals.of_file fun _ => hfiles _ ?_)
      (hmanifest ▸ hlogs₁) .nothing⟩
    · exact opensAs_of_files hr.tables fun t _ => hfiles _ (by simp)
    · rw [hmanifest]
      exact fun heq => hvalid.wals_ne (FileName.wal.inj heq)
  have hpasses := recoverWal_passes hr hr₁.torn hcut
  rw [heq] at hwal hpasses hr₁
  refine ⟨d, t, ?_, hr₁, hpasses.trans (.of_eq rfl rfl hr₁.torn)⟩
  simp only [recoverActive, hwal]
  rw [if_neg (by omega), Nat.sub_add_cancel hpos]

/-- The WALs are recovered as the MemTables of the handle. -/
theorem recoverWals_restores (h₀ : Handle) (hr : h₀.dir.Restores o durable h (some []))
    (hvalid : h.manifest.Valid) (hpos : 0 < h.nextSequence) (hlt : h.nextSequence < 2 ^ 64)
    (hmanifest : h₀.manifest = h.manifest) (hnone : h₀.immutable = none) :
    ∃ d t, h₀.recoverWals o = .ok { h₀ with
        memtable := h.memtable, immutable := h.immutable, nextSequence := h.nextSequence, dir := d
        trace := t } ∧
      d.Restores o durable h none ∧ Passes (·.Restores o durable h (some [])) h₀ { h₀ with
        memtable := h.memtable, immutable := h.immutable, nextSequence := h.nextSequence, dir := d
        trace := t } := by
  obtain ⟨floor, tail, hseals, hlogs, htorn, -⟩ := hr.wals.settled rfl
  have himmutableWal : h₀.manifest.immutableWalNumber = h.manifest.immutableWalNumber := by
    rw [hmanifest]
  have hlast : h₀.manifest.lastSequence = h.manifest.lastSequence := by rw [hmanifest]
  unfold recoverWals
  rw [himmutableWal, hlast]
  cases hseals with
  | none hzero himmutable =>
    obtain ⟨d, t, hactive, hr', hpasses⟩ := recoverActive_restores h₀ hr (.none hzero himmutable)
      hlogs htorn hvalid hpos hlt hmanifest
    rw [if_pos hzero, hactive, himmutable, ← hnone]
    exact ⟨d, t, rfl, hr', hpasses⟩
  | @some m sealedTail _ hne himmutable hsome hsealed hsealedTorn =>
    obtain ⟨h₁, hwal, hcut, hsealed₁⟩ := recoverWal_logs hsealed hsealedTorn
    obtain ⟨⟨d₁, t₁, heq⟩, hsame, hfiles⟩ := files_of_cut hcut
    have hlogs₁ := hlogs.of_file (hfiles _ fun heq => hvalid.wals_ne
      (FileName.wal.inj heq).symm)
    have hseals₁ : h₁.dir.Seals o durable h floor :=
      .some hne himmutable hsome hsealed₁ (.inl rfl)
    have hr₁ : h₁.dir.Restores o durable h (some []) := by
      refine ⟨hsame.trans hr.manifest, ?_, .active hseals₁ hlogs₁ (.torn htorn)⟩
      exact opensAs_of_files hr.tables fun t _ => hfiles _ (by simp)
    have hpasses₁ := recoverWal_passes hr hr₁ hcut
    rw [heq] at hwal hpasses₁ hr₁ hseals₁ hlogs₁
    obtain ⟨d, t, hactive, hr', hpasses⟩ := recoverActive_restores
      { h₀ with dir := d₁, trace := t₁, immutable := some m } hr₁ hseals₁ hlogs₁ htorn hvalid
      hpos hlt hmanifest
    refine ⟨d, t, ?_, hr', ?_⟩
    · rw [if_neg hne, hwal]
      dsimp only
      rw [hsome, if_neg (by simp), himmutable, hactive]
    · rw [himmutable]
      exact (hpasses₁.trans (.of_eq rfl rfl hr₁)).trans hpasses

/-- `Open` behind the Manifest recovers the layers of the handle, whatever it lists and wherever its
removals fail, and cuts off the torn record; the directory holds them at each of its operations. -/
theorem recover_restores {d : Directory} (hr : d.Restores o durable h (some []))
    (hvalid : h.manifest.Valid) (hpos : 0 < h.nextSequence) (hlt : h.nextSequence < 2 ^ 64)
    (sweep : SweepFaults) (t : List DirOp) :
    ∃ h₁, (blank d h.manifest t).recover o sweep = .ok h₁ ∧
      (h₁.manifest = h.manifest ∧ h₁.tables = h.tables ∧ h₁.memtable = h.memtable ∧
        h₁.immutable = h.immutable ∧ h₁.nextSequence = h.nextSequence) ∧
      h₁.dir.Restores o durable h₁ none ∧
      Passes (·.Restores o durable h (some [])) (blank d h.manifest t) h₁ := by
  have htables : (blank d h.manifest t).openManifestSSTables =
      .ok { blank d h.manifest t with tables := h.tables } := by
    simp only [openManifestSSTables, blank, openTables_ok hr.tables]
  obtain ⟨d₁, t₁, hwals, hr₁, hpasses⟩ := recoverWals_restores
    { blank d h.manifest t with tables := h.tables } hr hvalid hpos hlt rfl rfl
  set h₂ : Handle := { blank d h.manifest t with
    tables := h.tables, memtable := h.memtable, immutable := h.immutable
    nextSequence := h.nextSequence, dir := d₁, trace := t₁ } with hh₂
  have hharmless := Harmless.cleanupObsoleteFiles (h := h₂) rfl sweep.listed sweep.fails
  obtain ⟨d₃, t₃, p, hswept⟩ := OnlyFiles.cleanupObsoleteFiles h₂ sweep.listed sweep.fails
  have hsweep := hharmless.restores h rfl hpasses.last
  have hclean := (hharmless.restores h rfl hr₁).last
  rw [hswept] at hclean
  refine ⟨(h₂.cleanupObsoleteFiles sweep.listed sweep.fails).startBackgroundWorker o, ?_, ?_, ?_, ?_⟩
  · simp only [recover, htables, hwals]
  · rw [hswept]
    exact ⟨rfl, rfl, rfl, rfl, rfl⟩
  · rw [hswept]
    exact hclean.congr rfl rfl rfl rfl rfl
  · exact (Passes.trans (.of_eq rfl rfl hr) hpasses).trans
      (hsweep.trans (.of_eq rfl rfl hsweep.last))

theorem open_eq_recover {d : Directory} {m : ManifestSnapshot} (hmanifest : d.manifest = some m)
    (hvalid : m.Valid) (listing : Listing) (sweep : SweepFaults) :
    Handle.open o d listing sweep = (blank d m []).recover o sweep := by
  simp only [Handle.open, hmanifest, loadManifest, ManifestSnapshot.validate_eq_none_iff.mpr hvalid]

end

end Handle

end TinyLsm
