import TinyLsm.Db.CrashWrites

/-!
# What a crash leaves

The directory that a crash of the process or a power loss leaves, and what `Open` finds in it. A power
loss cuts the record of a failed or unfinished commit, so that it is torn, or leaves it whole; a whole
one is recovered with the log.
-/

namespace TinyLsm

/-! ## What a crash leaves -/

/-- What an operation does while the entries of the directory lag: only the contents of the files
change. -/
def DirOp.lag (d : Directory) : DirOp → Directory
  | create name =>
    { d with files := Function.update d.files name ((d.files name).map fun _ => ⟨[], 0⟩) }
  | rename _ _ | remove _ | publish _ => d
  | op => op.apply d

/-- The directories that are there behind file operations: those with all entries, and those that lack
the last ones of the entries behind the last sync of the directory. -/
inductive Directory.Lags (d : Directory) : List DirOp → Directory → Prop
  | now {ops : List DirOp} : Lags d ops (ops.foldl DirOp.apply d)
  | late {ops : List DirOp} {op : DirOp} {d' : Directory} (hl : Lags d ops d') (hop : op ≠ .syncDir) :
      Lags d (ops ++ [op]) (op.lag d')

/-- What ends a life of a database. -/
inductive Crash where
  /-- The process ends: the files stay as they are. -/
  | process
  /-- Of the entries behind the last sync of the directory stay the first ones, and of every file the
  synced bytes and some of those behind them. -/
  | powerLoss
deriving DecidableEq

/-- The directory that a crash leaves behind file operations. -/
def Crash.Leaves : Crash → Directory → List DirOp → Directory → Prop
  | process, d, ops, d' => d' = ops.foldl DirOp.apply d
  | powerLoss, d, ops, d' => ∃ d₁, d.Lags ops d₁ ∧ d₁.Survives d'

/-- The WALs are synced. -/
def Directory.WalsSynced (d : Directory) : Prop :=
  ∀ n f, d.files (.wal n) = some f → f.synced = f.data.length

/-- What is written behind `Open` on the directory survives a power loss. -/
def Directory.Durable (o : Options) (d : Directory) : Prop := o.syncOnWrite ∧ d.WalsSynced

/-- A life that was opened on the directory survives the crash: a power loss only with `sync_on_write`
and when `Open` found the WALs synced, since it syncs none of the records that it recovers. -/
def Crash.Survivable (c : Crash) (o : Options) (d : Directory) : Prop := c = .powerLoss → d.Durable o

theorem Directory.Survives.file {d d' : Directory} (h : d.Survives d') {name : FileName} {f : File}
    (hf : d.files name = some f) : ∃ f', d'.files name = some f' ∧ f.Survives f' := by
  have hrel := h.files name
  rw [hf] at hrel
  cases hf' : d'.files name with
  | none =>
    rw [hf'] at hrel
    cases hrel
  | some f' =>
    rw [hf'] at hrel
    cases hrel with
    | some hs => exact ⟨f', rfl, hs⟩

/-- Tables are published synced, and survive. -/
theorem Directory.Survives.table {d d' : Directory} (h : d.Survives d') (hs : d.Sound) {n : ℕ}
    {f : File} (hf : d.files (.sst n) = some f) : d'.files (.sst n) = some f := by
  obtain ⟨f', hf', hsurvives⟩ := h.file hf
  rw [hf', hsurvives.eq_of_synced (hs.tables n f hf).synced]

/-- Of every file stay at most `n` bytes behind the synced ones. -/
def Directory.cut (d : Directory) (n : ℕ) : Directory :=
  { d with
    files := fun name => (d.files name).map fun f =>
      ⟨f.data.take (f.synced + n), (f.data.take (f.synced + n)).length⟩ }

theorem Directory.survives_cut (d : Directory) (n : ℕ) : d.Survives (d.cut n) := by
  refine ⟨rfl, fun name => ?_⟩
  show Option.Rel File.Survives (d.files name) ((d.files name).map _)
  cases d.files name with
  | none => exact .none
  | some f => exact .some ⟨List.take_prefix_take_left (Nat.le_add_right _ _), List.take_prefix _ _, rfl⟩

/-! ## Lagging entries -/

/-- The Manifest is the same, and so are the files it names. -/
structure Directory.Agrees (d d' : Directory) : Prop where
  manifest : d'.manifest = d.manifest
  files : ∀ m, d.manifest = some m → ∀ name, m.Names name → d'.files name = d.files name

theorem Directory.Agrees.refl (d : Directory) : d.Agrees d := ⟨rfl, fun _ _ _ _ => rfl⟩

/-- A steady operation does to the named files what it does while the entries lag. -/
theorem Directory.Agrees.steady {d d' : Directory} {op : DirOp} (ha : d.Agrees d')
    (hop : op.Steady d.manifest) : (op.apply d).Agrees (op.lag d') := by
  obtain ⟨hmanifest, hfiles⟩ := ha
  have hapart : ∀ {m name other}, d.manifest = some m → m.Names name →
      (∀ m, d.manifest = some m → ¬ m.Names other) → name ≠ other := by
    rintro m name other hm hname hother rfl
    exact hother m hm hname
  have hsame : ∀ {name : FileName} {f : Option File → Option File},
      Directory.Agrees { d with files := Function.update d.files name (f (d.files name)) }
        { d' with files := Function.update d'.files name (f (d'.files name)) } := by
    refine fun {other f} => ⟨hmanifest, fun m hm name hname => ?_⟩
    dsimp only at hm ⊢
    by_cases heq : name = other
    · subst heq
      rw [Function.update_self, Function.update_self, hfiles m hm name hname]
    · rw [Function.update_of_ne heq, Function.update_of_ne heq, hfiles m hm name hname]
  cases op with
  | create other =>
    refine ⟨hmanifest, fun m hm name hname => ?_⟩
    have hne := hapart hm hname hop.1
    dsimp only [DirOp.apply, DirOp.lag]
    rw [Function.update_of_ne hne, Function.update_of_ne hne, hfiles m hm name hname]
  | append | sync | truncate => exact hsame
  | rename source target =>
    have hagree := fun m hm name hname => hfiles m hm name hname
    simp only [DirOp.apply, DirOp.lag]
    split
    · exact ⟨hmanifest, hfiles⟩
    · refine ⟨hmanifest, fun m hm name hname => ?_⟩
      have hsource := hapart hm hname fun m hm => (hop m hm).1
      have htarget := hapart hm hname fun m hm => (hop m hm).2
      dsimp only
      rw [Function.update_of_ne hsource, Function.update_of_ne htarget, hfiles m hm name hname]
  | remove other =>
    refine ⟨hmanifest, fun m hm name hname => ?_⟩
    dsimp only [DirOp.apply, DirOp.lag]
    rw [Function.update_of_ne (hapart hm hname hop), hfiles m hm name hname]
  | publish => exact hop.elim
  | syncDir => exact ⟨hmanifest, hfiles⟩

/-- Behind a publication comes the sync of the directory. -/
theorem Directory.Orderly.ne_publish {d : Directory} {ops before : List DirOp} {m : ManifestSnapshot}
    (ho : d.Orderly ops) : ops ≠ before ++ [.publish m] := by
  rintro rfl
  rcases ho.split with hpublish | ⟨_, _, -, hsync⟩
  · exact hpublish.elim
  · cases hsync

/-- However the entries lag, the named files are those of the whole directory, or of the one before the
Manifest that was published last. -/
theorem Directory.Lags.agrees {d d' : Directory} {ops rest : List DirOp} (hl : d.Lags ops d')
    (ho : d.Orderly (ops ++ rest)) :
    (ops.foldl DirOp.apply d).Agrees d' ∨
      ∃ before m, ops = before ++ [.publish m] ∧ (before.foldl DirOp.apply d).Agrees d' := by
  induction hl generalizing rest with
  | now => exact .inl (.refl _)
  | @late ops op d' _ hop ih =>
    have ho' : d.Orderly (ops ++ op :: rest) := by simpa using ho
    have hagrees : (ops.foldl DirOp.apply d).Agrees d' := by
      rcases ih ho' with hagrees | ⟨before, m, rfl, -⟩
      · exact hagrees
      · -- behind the publication comes the sync
        have hsplit : d.Orderly (before ++ .publish m :: op :: rest) := by simpa using ho'
        rcases hsplit.split with hpublish | ⟨_, _, -, hsync⟩
        · exact hpublish.elim
        · exact absurd (List.cons.inj hsync).1 hop
    rcases ho'.split with hsteady | ⟨m, rest', rfl, -⟩
    · rw [List.foldl_append]
      exact .inl (hagrees.steady hsteady)
    · exact .inr ⟨ops, m, rfl, hagrees⟩

/-- The Manifest and the tables are those of an earlier moment. -/
theorem Directory.Lags.tables {d d' : Directory} {ops rest : List DirOp} (hl : d.Lags ops d')
    (ho : d.Orderly (ops ++ rest)) :
    ∃ before, before <+: ops ∧ d'.manifest = (before.foldl DirOp.apply d).manifest ∧
      ∀ n, d'.files (.sst n) = (before.foldl DirOp.apply d).files (.sst n) := by
  induction hl generalizing rest with
  | now => exact ⟨_, List.prefix_refl _, rfl, fun _ => rfl⟩
  | @late ops op d' _ hop ih =>
    have ho' : d.Orderly (ops ++ op :: rest) := by simpa using ho
    obtain ⟨before, hbefore, hmanifest, hfiles⟩ := ih ho'
    refine ⟨before, hbefore.trans (List.prefix_append ops _), ?_, fun n => ?_⟩
    · rw [← hmanifest]
      cases op <;> rfl
    · rw [← hfiles n]
      rcases ho'.split with hsteady | ⟨m, rest', rfl, -⟩
      · cases op with
        | create name => exact Function.update_of_ne (hsteady.2 n).symm _ _
        | append name | sync name | truncate name => exact Function.update_of_ne (hsteady n).symm _ _
        | rename | remove | publish | syncDir => rfl
      · rfl

theorem TornTail.of_prefix {limits : DecodeLimits} {tail tail' : Bytes} (h : TornTail limits tail)
    (hpre : tail' <+: tail) : TornTail limits tail' := by
  rcases h with rfl | ⟨g, bytes, hframe, htail, hlt⟩
  · exact .inl (List.prefix_nil.mp hpre)
  · exact .inr ⟨g, bytes, hframe, hpre.trans htail, hpre.length_le.trans_lt hlt⟩

section
variable [EntrySize] {o : Options} {d d' : Directory} {h : Handle}
  {left : Option (List InternalEntry)}

/-- A cut leaves a part of what stood behind the records. -/
theorem LeftBehind.of_prefix {last : ℕ} {m : MemTable} {tail tail' : Bytes}
    (hl : LeftBehind o last m tail left) (hpre : tail' <+: tail) :
    ∃ left', LeftBehind o last m tail' left' ∧ (left'.getD [] = [] ∨ left' = left) := by
  cases hl with
  | nothing => exact ⟨none, List.prefix_nil.mp hpre ▸ .nothing, .inl rfl⟩
  | torn htorn => exact ⟨some [], .torn (htorn.of_prefix hpre), .inl rfl⟩
  | @whole _ g m' hframe habove happly =>
    rcases hpre.length_le.lt_or_eq with hlt | heq
    · exact ⟨some [], .torn (.inr ⟨g, tail, hframe, hpre, hlt⟩), .inl rfl⟩
    · rw [hpre.eq_of_length heq]
      exact ⟨some g, .whole hframe habove happly, .inr rfl⟩

/-- The synced records survive a power loss, and some bytes behind them. -/
theorem Directory.Logs.survives {number floor last : ℕ} {m : MemTable} {tail : Bytes}
    (hlogs : d.Logs o True number floor last m tail) (hd : d.Survives d') :
    ∃ tail', tail' <+: tail ∧ d'.Logs o True number floor last m tail' := by
  obtain ⟨f, records, hf, hdata, hsynced, hreplayed⟩ := hlogs
  obtain ⟨f', hf', hsurvives⟩ := hd.file hf
  have hrecords : records <+: f'.data := by
    refine List.IsPrefix.trans (List.prefix_take_iff.mpr ⟨?_, hsynced trivial⟩) hsurvives.synced
    exact hdata ▸ List.prefix_append records tail
  obtain ⟨tail', htail⟩ := hrecords
  refine ⟨tail', ?_, f', records, hf', htail.symm, fun _ => ?_, hreplayed⟩
  · have happended := hsurvives.appended
    rw [hdata, ← htail] at happended
    exact (List.prefix_append_right_inj records).mp happended
  · rw [hsurvives.durable, ← htail]
    simp

theorem Directory.Seals.survives {floor : ℕ} (hs : d.Seals o True h floor) (hd : d.Survives d') :
    d'.Seals o True h floor := by
  cases hs with
  | none hzero hnone => exact .none hzero hnone
  | some hne hsome hnonempty hlogs htorn =>
    obtain ⟨tail', hpre, hlogs'⟩ := hlogs.survives hd
    exact .some hne hsome hnonempty hlogs' (htorn.of_prefix hpre)

theorem Directory.Restores.survives (hr : d.Restores o True h left) (hs : d.Sound)
    (hd : d.Survives d') :
    ∃ left', d'.Restores o True h left' ∧ (left'.getD [] = [] ∨ left' = left) := by
  have htables : List.Forall₂ (Handle.OpensAs d') h.manifest.liveTables h.tables :=
    hr.tables.imp fun m t hopens => by
      obtain ⟨f, hf, hopen⟩ := hopens.opened
      exact ⟨hopens.number_eq, ⟨f, hd.table hs hf, hopen⟩, hopens.size_eq, hopens.validated⟩
  have hmanifest := hd.manifest.trans hr.manifest
  cases hr.wals with
  | active hseals hlogs hbehind =>
    obtain ⟨tail', hpre, hlogs'⟩ := hlogs.survives hd
    obtain ⟨left', hbehind', hleft⟩ := hbehind.of_prefix hpre
    exact ⟨left', ⟨hmanifest, htables, .active (hseals.survives hd) hlogs' hbehind'⟩, hleft⟩
  | sealed hne himmutable hsome hlogs hbehind hactive hempty =>
    obtain ⟨tail', hpre, hlogs'⟩ := hlogs.survives hd
    obtain ⟨left', hbehind', hleft⟩ := hbehind.of_prefix hpre
    obtain ⟨f, hf, hdata⟩ := hactive
    obtain ⟨f', hf', hsurvives⟩ := hd.file hf
    refine ⟨left', ⟨hmanifest, htables, .sealed hne himmutable hsome hlogs' hbehind' ⟨f', hf', ?_⟩
      hempty⟩, hleft⟩
    exact List.prefix_nil.mp (hdata ▸ hsurvives.appended)

/-- Only the named files matter. -/
theorem Directory.Preserves.agrees {durable : Prop} {log pending : List InternalEntry}
    (hp : d.Preserves o durable log pending) (ha : d.Agrees d') :
    d'.Preserves o durable log pending := by
  cases hp with
  | before hr hh hleft hpending =>
    exact .before (hr.of_files ha.manifest (ha.files _ hr.manifest)) hh hleft hpending
  | behind hr hh hleft => exact .behind (hr.of_files ha.manifest (ha.files _ hr.manifest)) hh hleft

theorem Directory.Preserves.survives {log pending : List InternalEntry}
    (hp : d.Preserves o True log pending) (hs : d.Sound) (hd : d.Survives d') :
    d'.Preserves o True log pending := by
  cases hp with
  | before hr hh hleft hpending =>
    obtain ⟨left', hr', hleft'⟩ := hr.survives hs hd
    refine .before hr' hh (hleft'.elim .inl fun heq => ?_) hpending
    exact heq ▸ hleft
  | behind hr hh hleft =>
    obtain ⟨left', hr', hleft'⟩ := hr.survives hs hd
    refine .behind hr' hh (hleft'.elim id fun heq => ?_)
    exact heq ▸ hleft

omit [EntrySize] in
/-- A directory whose entries lag is sound. -/
theorem Directory.Lags.sound {ops rest : List DirOp} (hl : d.Lags ops d') (ho : d.Orderly (ops ++ rest))
    (hs : ∀ before, before <+: ops → (before.foldl DirOp.apply d).Sound) : d'.Sound := by
  obtain ⟨before, hbefore, hmanifest, hfiles⟩ := hl.tables ho
  have hsound := hs before hbefore
  exact ⟨fun m hm => hsound.manifest m (hmanifest ▸ hm),
    fun n f hf => hsound.tables n f (hfiles n ▸ hf)⟩

/-! ## Synced records -/

section
variable {durable durable' : Prop}

/-- Whole WALs that are synced hold synced records. -/
theorem Directory.Logs.resync {number floor last : ℕ} {m : MemTable} {tail : Bytes}
    (hlogs : d.Logs o durable number floor last m tail) (hsynced : durable' → d.WalsSynced) :
    d.Logs o durable' number floor last m tail := by
  obtain ⟨f, records, hf, hdata, -, hreplayed⟩ := hlogs
  refine ⟨f, records, hf, hdata, fun hdurable => ?_, hreplayed⟩
  rw [hsynced hdurable _ f hf, hdata, List.length_append]
  exact Nat.le_add_right _ _

theorem Directory.Restores.resync (hr : d.Restores o durable h left)
    (hsynced : durable' → d.WalsSynced) : d.Restores o durable' h left := by
  refine ⟨hr.manifest, hr.tables, ?_⟩
  cases hr.wals with
  | active hseals hlogs hleft =>
    refine .active ?_ (hlogs.resync hsynced) hleft
    cases hseals with
    | none hzero hnone => exact .none hzero hnone
    | some hne hsome hnonempty hsealed htorn =>
      exact .some hne hsome hnonempty (hsealed.resync hsynced) htorn
  | sealed hne hsome hnonempty hlogs hleft hactive hempty =>
    exact .sealed hne hsome hnonempty (hlogs.resync hsynced) hleft hactive hempty

theorem Directory.Preserves.resync {log pending : List InternalEntry}
    (hp : d.Preserves o durable log pending) (hsynced : durable' → d.WalsSynced) :
    d.Preserves o durable' log pending := by
  cases hp with
  | before hr hh hleft hpending => exact .before (hr.resync hsynced) hh hleft hpending
  | behind hr hh hleft => exact .behind (hr.resync hsynced) hh hleft

/-- What a crash leaves preserves what the directory did, and did before the publication that it may
take back. -/
theorem Crash.Leaves.preserves {c : Crash} {ops rest : List DirOp} {log pending : List InternalEntry}
    (hleaves : c.Leaves d ops d') (hdurable : c = .powerLoss → durable)
    (ho : d.Orderly (ops ++ rest))
    (hs : ∀ before, before <+: ops → (before.foldl DirOp.apply d).Sound)
    (hp : (ops.foldl DirOp.apply d).Preserves o durable log pending)
    (hpublish : ∀ before m, ops = before ++ [.publish m] →
      (before.foldl DirOp.apply d).Preserves o durable log pending) :
    d'.Preserves o (d'.Durable o) log pending := by
  cases c with
  | process =>
    -- the next life asks anew whether the WALs are synced
    obtain rfl : d' = ops.foldl DirOp.apply d := hleaves
    exact hp.resync And.right
  | powerLoss =>
    rw [eq_true (hdurable rfl)] at hp hpublish
    obtain ⟨d₁, hl, hd⟩ := hleaves
    refine Directory.Preserves.resync (Directory.Preserves.survives ?_ (hl.sound ho hs) hd) And.right
    rcases hl.agrees ho with hagrees | ⟨before, m, hops, hagrees⟩
    · exact hp.agrees hagrees
    · exact (hpublish before m hops).agrees hagrees

/-- What a crash between two regions leaves restores the handle. -/
theorem Crash.Leaves.restores {c : Crash} {ops : List DirOp} (hleaves : c.Leaves d ops d')
    (hdurable : c = .powerLoss → durable) (ho : d.Orderly ops)
    (hs : ∀ before, before <+: ops → (before.foldl DirOp.apply d).Sound)
    (hr : (ops.foldl DirOp.apply d).Restores o durable h left) :
    ∃ left', d'.Restores o (d'.Durable o) h left' ∧ (left'.getD [] = [] ∨ left' = left) := by
  cases c with
  | process =>
    obtain rfl : d' = ops.foldl DirOp.apply d := hleaves
    exact ⟨left, hr.resync And.right, .inr rfl⟩
  | powerLoss =>
    rw [eq_true (hdurable rfl)] at hr
    obtain ⟨d₁, hl, hd⟩ := hleaves
    have ho' : d.Orderly (ops ++ []) := by rwa [List.append_nil]
    rcases hl.agrees ho' with hagrees | ⟨before, m, hops, -⟩
    · obtain ⟨left', hr', hleft⟩ :=
        (hr.of_files hagrees.manifest (hagrees.files _ hr.manifest)).survives (hl.sound ho' hs) hd
      exact ⟨left', hr'.resync And.right, hleft⟩
    · exact absurd hops ho.ne_publish

end

/-! ## What is recovered -/

theorem Directory.Logs.absorb {durable : Prop} {number floor last : ℕ} {m m' : MemTable}
    {tail : Bytes} {g : List InternalEntry} (hlogs : d.Logs o durable number floor last m tail)
    (hsynced : durable → d.WalsSynced) (hframe : IsFrame o.limits g tail)
    (habove : ∀ e ∈ g, last < e.sequence ∧ e.sequence < 2 ^ 64 - 1)
    (happly : m.applyBatch g = .ok m') :
    d.Logs o durable number floor (lastSequence g last) m' [] := by
  obtain ⟨f, records, hf, hdata, -, hreplayed⟩ := hlogs
  refine ⟨f, records ++ tail, hf, by rw [hdata, List.append_nil], fun hd => ?_, hreplayed.trans
    (.single hframe (fun e he => ⟨(habove e he).1, ?_⟩) happly)⟩
  · rw [hsynced hd _ f hf, hdata]
  · have hlt := (habove e he).2
    omega

/-- The sequences of a group that went into a MemTable. -/
theorem MemTable.Inv.le_lastSequence {m m' : MemTable} {g : List InternalEntry} (hm : m.Inv)
    (happly : m.applyBatch g = .ok m') (previous : ℕ) :
    ∀ e ∈ g, e.sequence ≤ lastSequence g previous := by
  obtain ⟨-, -, -, -, hpairwise⟩ := hm.applyBatch happly
  intro e he
  obtain ⟨l, hl⟩ : ∃ l, g.getLast? = some l :=
    Option.ne_none_iff_exists'.mp (by simpa using List.ne_nil_of_mem he)
  rw [← List.dropLast_append_getLast? l hl] at he hpairwise
  rw [lastSequence, hl]
  rcases List.mem_append.mp he with he | he
  · exact ((List.pairwise_append.mp hpairwise).2.2 e he l (by simp)).le
  · rw [List.mem_singleton.mp he]

omit [EntrySize] in
theorem MemTable.isEmpty_of_mem {m : MemTable} {e : InternalEntry} (he : e ∈ m.contents) :
    m.isEmpty = false := by
  by_contra hempty
  have hentries : m.entries = [] := by simpa [isEmpty] using hempty
  simp [contents, hentries] at he

/-- A complete record behind the log belongs to the handle that is recovered. -/
theorem Directory.Restores.absorb {durable : Prop} {log g : List InternalEntry}
    (hr : d.Restores o durable h (some g)) (hne : g ≠ []) (hh : h.Holds o log)
    (hsynced : durable → d.WalsSynced) :
    ∃ h', d.Restores o durable h' none ∧ h'.Holds o (log ++ g) := by
  have hpos := hh.pos
  obtain ⟨last, hlast⟩ := exists_lastSequence hne (h.nextSequence - 1)
  have hbounds : ∀ {m m' : MemTable}, m.Inv → m.applyBatch g = .ok m' →
      (∀ e ∈ g, h.nextSequence - 1 < e.sequence ∧ e.sequence < 2 ^ 64 - 1) →
      h.nextSequence ≤ lastSequence g (h.nextSequence - 1) + 1 ∧
      lastSequence g (h.nextSequence - 1) + 1 < 2 ^ 64 ∧ ∀ e ∈ g, h.nextSequence ≤ e.sequence ∧
        e.sequence < lastSequence g (h.nextSequence - 1) + 1 := by
    intro m m' hm happly habove
    have hle := hm.le_lastSequence happly (h.nextSequence - 1)
    have hlt := habove last hlast.1
    rw [hlast.2] at hle ⊢
    refine ⟨by omega, by omega, fun e he => ?_⟩
    have habove := habove e he
    have hle := hle e he
    omega
  cases hr.wals with
  | @active floor tail _ hseals hlogs hbehind =>
    cases hbehind with
    | torn => exact absurd rfl hne
    | @whole _ _ m' hframe habove happly =>
      obtain ⟨hle, hlt, hsequences⟩ := hbounds hh.layered.memtable happly habove
      refine ⟨{ h with memtable := m', nextSequence := lastSequence g (h.nextSequence - 1) + 1 },
        ⟨hr.manifest, hr.tables, ?_⟩, hh.store happly hle hlt hsequences⟩
      have hseals' : d.Seals o durable { h with
          memtable := m', nextSequence := lastSequence g (h.nextSequence - 1) + 1 } floor := by
        cases hseals with
        | none hzero hnone => exact .none hzero hnone
        | some hne hsome hnonempty hsealed htorn => exact .some hne hsome hnonempty hsealed htorn
      exact .active hseals' (hlogs.absorb hsynced hframe habove happly) .nothing
  | @sealed m tail _ hnumber himmutable hsome hlogs hbehind hactive hempty =>
    cases hbehind with
    | torn => exact absurd rfl hne
    | @whole _ _ m' hframe habove happly =>
      obtain ⟨hle, hlt, hsequences⟩ := hbounds (hh.layered.immutable m himmutable) happly habove
      refine ⟨{ h with immutable := some m', nextSequence := lastSequence g (h.nextSequence - 1) + 1 },
        ⟨hr.manifest, hr.tables, ?_⟩, hh.storeSealed himmutable hempty happly hle hlt hsequences⟩
      have hmem := ((hh.layered.immutable m himmutable).applyBatch happly).2.1 last
      exact .sealed hnumber rfl (MemTable.isEmpty_of_mem (hmem.mpr (.inr hlast.1)))
        (hlogs.absorb hsynced hframe habove happly) .nothing hactive hempty

omit [EntrySize] in
/-- Those of the pending operations that `Open` found: they are below its next sequence. -/
def recoveredOf (pending : List InternalEntry) (h : Handle) : List InternalEntry :=
  pending.filter fun e => decide (e.sequence < h.nextSequence)

/-- `Open` finds all of the pending group, or nothing of it. -/
theorem Directory.Preserves.exists_recovered {durable : Prop} {log pending : List InternalEntry}
    (hp : d.Preserves o durable log pending) (hsynced : durable → d.WalsSynced) :
    ∃ h, d.Restores o durable h (some []) ∧ h.Holds o (log ++ recoveredOf pending h) ∧
      (recoveredOf pending h = [] ∧ (∀ e ∈ pending, h.nextSequence ≤ e.sequence) ∨
        recoveredOf pending h = pending) := by
  have hbehind : ∀ {h : Handle}, h.Holds o (log ++ pending) → recoveredOf pending h = pending := by
    intro h hh
    exact List.filter_eq_self.mpr fun e he =>
      decide_eq_true (hh.below e (List.mem_append_right log he))
  cases hp with
  | @before h left hr hh hleft hpending =>
    by_cases hnil : left.getD [] = []
    · have hnone : recoveredOf pending h = [] :=
        List.filter_eq_nil_iff.mpr fun e he => by simpa using hpending e he
      refine ⟨h, hr.settle hnil, ?_, .inl ⟨hnone, hpending⟩⟩
      rwa [hnone, List.append_nil]
    · obtain rfl := hleft.resolve_left hnil
      obtain ⟨h', hr', hh'⟩ := hr.absorb hnil hh hsynced
      exact ⟨h', hr'.torn, (hbehind hh').symm ▸ hh', .inr (hbehind hh')⟩
  | @behind h left hr hh hleft =>
    exact ⟨h, hr.settle hleft, (hbehind hh).symm ▸ hh, .inr (hbehind hh)⟩

end

end TinyLsm
