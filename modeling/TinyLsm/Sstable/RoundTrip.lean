import TinyLsm.Sstable.TableIterator

/-!
# SSTable round trip

Ordered entries whose keys, values, blocks and index stay below 2^32 bytes are accepted by every
`Add` and by `Finish`, and the reader gives them back.
-/

namespace TinyLsm

/-! ## Accepted blocks -/

/-- The bytes of the data block of `es`. -/
def blockEncoding (ri : ℕ) (es : List InternalEntry) : Bytes :=
  blockBody (groupsBytes (restartGroups ri 0 es)) (groupOffsets 0 (restartGroups ri 0 es))
      es.length ++
    putFixed32 (crc32c (blockBody (groupsBytes (restartGroups ri 0 es))
      (groupOffsets 0 (restartGroups ri 0 es)) es.length))

theorem forall₂_encodedBlock {ri : ℕ} {bss : List (List InternalEntry)} {encs : List Bytes}
    (h : List.Forall₂ (EncodedBlock ri) bss encs) : encs = bss.map (blockEncoding ri) := by
  induction h with
  | nil => rfl
  | cons henc _ ih => rw [List.map_cons, ← ih, henc.bytes_eq, blockEncoding]

/-- What an entry must satisfy to be stored. -/
structure EntryStorable (e : InternalEntry) : Prop where
  sequence_pos : 1 ≤ e.sequence
  sequence_lt : e.sequence < 2 ^ 64
  tombstone : e.type = .tombstone → e.value = []
  key_lt : e.userKey.length < 2 ^ 32
  value_lt : e.value.length < 2 ^ 32

theorem encodeEntries_ok (ri : ℕ) {es : List InternalEntry} :
    ∀ (i : ℕ) (previous : Option InternalEntry) (out : Bytes) (restarts : List ℕ),
      Ordered es → (∀ p, previous = some p → ∀ e ∈ es, InternalLess p e) →
      (∀ e ∈ es, EntryStorable e) →
      out.length + (continueBytes (baseKey ri i previous) (restartGroups ri i es)).length < 2 ^ 32 →
      ∃ result, encodeEntries ri i previous out restarts es = .ok result := by
  induction es with
  | nil =>
    intro i previous out restarts _ _ _ _
    exact ⟨_, rfl⟩
  | cons e es ih =>
    intro i previous out restarts hord hprev hfit hsize
    obtain ⟨hless, hrest⟩ := List.pairwise_cons.mp hord
    have he := hfit e List.mem_cons_self
    rw [continueBytes_cons, List.length_append, ← sharedLength_eq] at hsize
    have hshared : sharedLength ri i previous e.userKey ≤ e.userKey.length := by
      rw [sharedLength_eq]
      exact sharedPrefix_le_right _ _
    have hkey := he.key_lt
    have hvalue := he.value_lt
    simp only [encodeEntries]
    rw [if_neg, if_neg]
    · refine ih _ _ _ _ hrest (fun p hp => ?_) (fun e' he' => hfit e' (List.mem_cons_of_mem _ he')) ?_
      · obtain rfl := Option.some.inj hp
        exact hless
      · rw [List.length_append]
        omega
    · simp only [fitsU32, decide_eq_true_eq, not_not]
      exact ⟨by omega, by omega, by omega, hvalue⟩
    · rintro (⟨p, hp, hnot⟩ | ⟨htomb, hne⟩)
      · exact hnot (hprev p hp e List.mem_cons_self)
      · exact hne (he.tombstone htomb)

theorem length_blockEncoding (ri : ℕ) (es : List InternalEntry) :
    (blockEncoding ri es).length =
      (groupsBytes (restartGroups ri 0 es)).length + 4 * (restartGroups ri 0 es).length + 12 := by
  simp only [blockEncoding, blockBody, List.length_append, length_putFixed32,
    length_flatMap_putFixed32, length_groupOffsets]
  omega

/-- `EncodeDataBlock` accepts an ordered block of storable entries below 2^32 bytes. -/
theorem encodeDataBlock_ok {ri : ℕ} {es : List InternalEntry} (hri : 1 ≤ ri) (hne : es ≠ [])
    (hord : Ordered es) (hfit : ∀ e ∈ es, EntryStorable e)
    (hsize : (blockEncoding ri es).length < 2 ^ 32) :
    encodeDataBlock es ri = .ok (blockEncoding ri es) := by
  rw [length_blockEncoding] at hsize
  obtain ⟨⟨out, restarts⟩, henc⟩ := encodeEntries_ok ri 0 none [] [] hord (by simp) hfit (by
      simp only [Nat.zero_mod, baseKey, if_true, continueBytes_nil, List.length_nil]
      omega)
  have hok : ∃ bytes, encodeDataBlock es ri = .ok bytes := by
    unfold encodeDataBlock
    rw [if_neg hne, if_neg (by omega), henc]
    exact ⟨_, rfl⟩
  obtain ⟨bytes, hbytes⟩ := hok
  rw [hbytes, (encodeDataBlock_eq_ok hbytes).bytes_eq, blockEncoding]

/-! ## Accepted tables -/

/-- Entries that `SSTableBuilder` accepts with the given block size and restart interval: strictly
ordered and storable, with every data block and the index below 2^32 bytes. -/
structure TableFits (blockBytes ri : ℕ) (es : List InternalEntry) : Prop where
  ne_nil : es ≠ []
  ordered : Ordered es
  storable : ∀ e ∈ es, EntryStorable e
  blockBytes_pos : 1 ≤ blockBytes
  interval_pos : 1 ≤ ri
  block_lt : ∀ bs ∈ cutBlocks blockBytes [] es, (blockEncoding ri bs).length < 2 ^ 32
  index_lt : (indexBytes (blockMetas 0 (cutBlocks blockBytes [] es)
    ((cutBlocks blockBytes [] es).map (blockEncoding ri)))).length < 2 ^ 32

theorem length_le_groupsBytes (gs : List (List InternalEntry)) :
    gs.flatten.length ≤ (groupsBytes gs).length := by
  induction gs with
  | nil => simp
  | cons g gs ih =>
    have := length_le_groupBytes [] g
    simp only [List.flatten_cons, List.length_append, groupsBytes_cons]
    omega

theorem length_le_blockEncoding (ri : ℕ) (es : List InternalEntry) :
    es.length ≤ (blockEncoding ri es).length := by
  have := length_le_groupsBytes (restartGroups ri 0 es)
  rw [flatten_restartGroups] at this
  rw [length_blockEncoding]
  omega

/-- The bytes of the data blocks. -/
def dataBytes (ri : ℕ) (bss : List (List InternalEntry)) : ℕ :=
  ((bss.map (blockEncoding ri)).flatten).length

theorem dataBytes_cons (ri : ℕ) (bs : List InternalEntry) (bss : List (List InternalEntry)) :
    dataBytes ri (bs :: bss) = (blockEncoding ri bs).length + dataBytes ri bss := by
  simp [dataBytes]

theorem length_flatten_le_dataBytes (ri : ℕ) (bss : List (List InternalEntry)) :
    bss.flatten.length ≤ dataBytes ri bss := by
  induction bss with
  | nil => simp
  | cons bs bss ih =>
    have := length_le_blockEncoding ri bs
    rw [dataBytes_cons, List.flatten_cons, List.length_append]
    omega

/-- Blocks below 2^32 bytes, one behind another. -/
theorem length_flatten_le {encs : List Bytes} (h : ∀ enc ∈ encs, enc.length < 2 ^ 32) :
    encs.flatten.length ≤ encs.length * 2 ^ 32 := by
  induction encs with
  | nil => simp
  | cons enc encs ih =>
    have h1 := h enc List.mem_cons_self
    have h2 := ih fun enc' henc' => h enc' (List.mem_cons_of_mem _ henc')
    rw [List.flatten_cons, List.length_append, List.length_cons, Nat.add_mul]
    omega

theorem length_blockMetas (offset : ℕ) (bss : List (List InternalEntry)) (encs : List Bytes)
    (h : encs.length = bss.length) : (blockMetas offset bss encs).length = bss.length := by
  induction bss generalizing offset encs with
  | nil => cases encs <;> rfl
  | cons bs bss ih =>
    cases encs with
    | nil => simp at h
    | cons enc encs => simp [blockMetas, ih _ encs (by simpa using h)]

/-- The index bounds the number of blocks, and so the size of the data. -/
theorem length_flatten_lt {bss : List (List InternalEntry)} {encs : List Bytes}
    (hlength : encs.length = bss.length) (hblocks : ∀ enc ∈ encs, enc.length < 2 ^ 32)
    (hindex : (indexBytes (blockMetas 0 bss encs)).length < 2 ^ 32) :
    encs.flatten.length < 2 ^ 60 := by
  have hmetas := length_le_flatMap_encodeBlockMeta (blockMetas 0 bss encs)
  rw [length_blockMetas _ _ _ hlength, ← hlength] at hmetas
  simp only [indexBytes, List.length_append, length_putFixed32] at hindex
  have hdata := length_flatten_le hblocks
  omega

theorem TableFits.dataBytes_lt {blockBytes ri : ℕ} {es : List InternalEntry}
    (h : TableFits blockBytes ri es) : dataBytes ri (cutBlocks blockBytes [] es) < 2 ^ 60 := by
  refine length_flatten_lt (by simp) (fun enc henc => ?_) h.index_lt
  obtain ⟨bs, hbs, rfl⟩ := List.mem_map.mp henc
  exact h.block_lt bs hbs

theorem mem_blockMetas {m : BlockMeta} {bss : List (List InternalEntry)} {encs : List Bytes} :
    ∀ {offset : ℕ}, m ∈ blockMetas offset bss encs →
      ∃ bs ∈ bss, m.firstKey = groupKey bs ∧ m.lastKey = lastKeyOf [] bs := by
  induction bss generalizing encs with
  | nil => intro offset hm; simp [blockMetas] at hm
  | cons bs bss ih =>
    intro offset hm
    cases encs with
    | nil => simp [blockMetas] at hm
    | cons enc encs =>
      rcases List.mem_cons.mp hm with rfl | hm
      · exact ⟨bs, List.mem_cons_self, rfl, rfl⟩
      · obtain ⟨bs', hbs', hkeys⟩ := ih hm
        exact ⟨bs', List.mem_cons_of_mem _ hbs', hkeys⟩

namespace SSTableBuilder

variable {blockBytes ri : ℕ} {b : SSTableBuilder} {done : List (List InternalEntry)}
  {es : List InternalEntry}

theorem flushBlock_ok (h : Inv blockBytes ri b done) (hri : 1 ≤ ri) (hne : b.pending ≠ [])
    (hord : Ordered b.pending) (hfit : ∀ e ∈ b.pending, EntryStorable e)
    (hblock : (blockEncoding ri b.pending).length < 2 ^ 32)
    (hoffset : b.offset + (blockEncoding ri b.pending).length < 2 ^ 64) :
    ∃ b', flushBlock b = .ok b' ∧ b'.info = b.info ∧ b'.finished = b.finished ∧
      b'.offset = b.offset + (blockEncoding ri b.pending).length ∧
      b'.blocks = b.blocks ++ [⟨groupKey b.pending, lastKeyOf [] b.pending, b.offset,
        (blockEncoding ri b.pending).length⟩] := by
  have henc := encodeDataBlock_ok hri hne hord hfit hblock
  have hok : ∃ b', flushBlock b = .ok b' := by
    unfold flushBlock
    cases hp : b.pending with
    | nil => exact absurd hp hne
    | cons e rest =>
      obtain ⟨l, hl⟩ : ∃ l, (e :: rest).getLast? = some l :=
        ⟨_, List.getLast?_eq_some_getLast (by simp)⟩
      rw [hp] at henc hoffset
      simp only [List.head?_cons, hl, h.interval_eq, henc]
      rw [if_neg (by omega)]
      exact ⟨_, rfl⟩
  obtain ⟨b', hb'⟩ := hok
  obtain ⟨enc, hblk, -, rfl⟩ := flushBlock_eq_ok hne hb'
  have : enc = blockEncoding ri b.pending := by
    rw [hblk.bytes_eq, h.interval_eq, blockEncoding]
  subst this
  exact ⟨_, hb', rfl, rfl, rfl, rfl⟩

/-- `Add` of an entry behind all that were added passes its checks. -/
theorem add_eq (h : Inv blockBytes ri b done) {e : InternalEntry} (hri : 1 ≤ ri)
    (hbefore : ∀ a ∈ done.flatten ++ b.pending, InternalLess a e) :
    add b e = if startsBlock b e then (flushBlock b).bind fun b => push b e else push b e := by
  unfold add
  rw [if_neg (by simp [h.open_]), if_neg (by rw [h.interval_eq]; omega), if_neg]
  · split
    · cases flushBlock b <;> rfl
    · rfl
  · rintro (⟨last, hlast, hnot⟩ | ⟨block, hblock, hnot⟩)
    · exact hnot (hbefore last (List.mem_append_right _ (List.mem_of_getLast? hlast)))
    · -- the last written block ends below the pending one, which is not above the new entry
      obtain ⟨bs, hbs, -, hkey⟩ := mem_blockMetas (h.metas ▸ List.mem_of_getLast? hblock)
      have hdone : done ≠ [] := List.ne_nil_of_mem hbs
      obtain ⟨p, hp⟩ := List.exists_mem_of_ne_nil _ (h.pending_ne hdone)
      have hbne : bs ≠ [] := by
        obtain ⟨enc, henc⟩ : ∃ enc, EncodedBlock ri bs enc := by
          obtain ⟨enc, -, henc⟩ := TableFile.forall₂_exists h.encoded hbs
          exact ⟨enc, henc⟩
        exact henc.ne_nil
      obtain ⟨a, ha, hakey⟩ := lastKeyOf_mem [] hbne
      have hlt := (List.pairwise_append.mp h.separated).2.2 bs hbs b.pending (by simp) a ha p hp
      rw [hkey, ← hakey] at hnot
      exact hnot (hlt.trans_le (hbefore p (List.mem_append_right _ hp)).key_le)

/-- One `Add` that the remaining entries allow. -/
theorem add_ok (h : Inv blockBytes ri b done) {e : InternalEntry} (hri : 1 ≤ ri)
    (hord : Ordered (done.flatten ++ b.pending ++ e :: es))
    (hfit : ∀ e' ∈ b.pending, EntryStorable e')
    (hcut : cutsBlock blockBytes b.pending e → (blockEncoding ri b.pending).length < 2 ^ 32 ∧
      b.offset + (blockEncoding ri b.pending).length < 2 ^ 64)
    (hcount : (done.flatten ++ b.pending).length < 2 ^ 60) :
    ∃ b', add b e = .ok b' := by
  have hbefore : ∀ a ∈ done.flatten ++ b.pending, InternalLess a e := fun a ha =>
    (List.pairwise_append.mp hord).2.2 a ha e List.mem_cons_self
  have hpush : ∀ b' : SSTableBuilder, b'.info = b.info → ∃ b'', push b' e = .ok b'' := by
    intro b' hinfo
    unfold push
    rw [if_neg]
    · exact ⟨_, rfl⟩
    · rw [hinfo, h.info_eq]
      simp only
      omega
  rw [add_eq h hri hbefore]
  have hiff : startsBlock b e ↔ cutsBlock blockBytes b.pending e := by
    simp only [startsBlock, cutsBlock, h.blockBytes_eq, h.pendingBytes_eq]
  by_cases hc : cutsBlock blockBytes b.pending e
  · rw [if_pos (hiff.mpr hc)]
    obtain ⟨hblock, hoffset⟩ := hcut hc
    obtain ⟨last, hlast, -⟩ := hc
    have hne : b.pending ≠ [] := by
      rintro h0
      rw [h0] at hlast
      cases hlast
    have hpord : Ordered b.pending :=
      (List.pairwise_append.mp (List.pairwise_append.mp hord).1).2.1
    obtain ⟨b', hflush, hinfo, -⟩ := flushBlock_ok h hri hne hpord hfit hblock hoffset
    rw [hflush]
    exact hpush b' hinfo
  · rw [if_neg (fun hs => hc (hiff.mp hs))]
    exact hpush b rfl

/-- Behind entries that were added in order, `Add` passes its checks. -/
theorem added_of_ordered {out : List InternalEntry} (hord : Ordered out) {blockBytes ri : ℕ}
    {before rest : List InternalEntry} {e : InternalEntry} {b : SSTableBuilder} (hri : 1 ≤ ri)
    (hout : out = before ++ e :: rest)
    (hadd : addAll (.new blockBytes ri) before = (b, none)) :
    b.add e = if b.startsBlock e then b.flushBlock.bind (fun b => b.push e) else b.push e := by
  obtain ⟨done, hinv, hcut⟩ := (inv_new blockBytes ri).addAll hadd
  have hflat := congrArg List.flatten hcut
  rw [List.flatten_append, List.nil_append, flatten_cutBlocks] at hflat
  refine add_eq hinv hri fun a ha => ?_
  have hbefore : a ∈ before := by
    rw [show done.flatten ++ b.pending = before by simpa [SSTableBuilder.new] using hflat] at ha
    exact ha
  rw [hout] at hord
  exact (List.pairwise_append.mp hord).2.2 a hbefore e List.mem_cons_self

/-- All `Add` calls on entries whose cut fits. -/
theorem addAll_ok (hri : 1 ≤ ri) : ∀ {b : SSTableBuilder} {done : List (List InternalEntry)},
    Inv blockBytes ri b done → Ordered (done.flatten ++ b.pending ++ es) →
    (∀ e ∈ b.pending ++ es, EntryStorable e) →
    (∀ bs ∈ cutBlocks blockBytes b.pending es, (blockEncoding ri bs).length < 2 ^ 32) →
    dataBytes ri (done ++ cutBlocks blockBytes b.pending es) < 2 ^ 60 →
    ∃ b', addAll b es = (b', none) := by
  induction es with
  | nil =>
    intro b done _ _ _ _ _
    exact ⟨b, rfl⟩
  | cons e es ih =>
    intro b done h hord hfit hblock hdata
    have hoffset : b.offset = dataBytes ri done := by
      rw [h.offset_eq, forall₂_encodedBlock h.encoded, dataBytes]
    have happend : ∀ bss, dataBytes ri (done ++ bss) = dataBytes ri done + dataBytes ri bss := by
      intro bss
      simp [dataBytes]
    have hcount := length_flatten_le_dataBytes ri (done ++ cutBlocks blockBytes b.pending (e :: es))
    rw [List.flatten_append, flatten_cutBlocks, List.length_append, List.length_append] at hcount
    obtain ⟨b', hadd⟩ := add_ok h hri hord
      (fun e' he' => hfit e' (List.mem_append_left _ he'))
      (fun hc => by
        rw [cutBlocks, if_pos hc] at hblock hdata
        rw [happend, dataBytes_cons] at hdata
        exact ⟨hblock _ List.mem_cons_self, by omega⟩)
      (by rw [List.length_append]; omega)
    have hinv := h.add hadd
    simp only [addAll, hadd]
    rw [cutBlocks] at hblock hdata
    by_cases hc : cutsBlock blockBytes b.pending e
    · rw [if_pos hc] at hinv hblock hdata
      obtain ⟨hinv, hpending⟩ := hinv
      refine ih hinv ?_ ?_ ?_ ?_
      · rw [hpending]
        simpa using hord
      · rw [hpending]
        intro e' he'
        exact hfit e' (List.mem_append_right _ (by simpa using he'))
      · rw [hpending]
        exact fun bs hbs => hblock bs (List.mem_cons_of_mem _ hbs)
      · rw [hpending]
        simpa using hdata
    · rw [if_neg hc] at hinv hblock hdata
      obtain ⟨hinv, hpending⟩ := hinv
      refine ih hinv ?_ ?_ ?_ ?_
      · rw [hpending]
        simpa using hord
      · rw [hpending]
        intro e' he'
        exact hfit e' (by simpa using he')
      · rwa [hpending]
      · rwa [hpending]

/-- `Finish` on a builder whose last block, index and properties fit. -/
theorem finish_ok (h : Inv blockBytes ri b done) (hri : 1 ≤ ri) (hne : b.pending ≠ [])
    (hord : Ordered (done.flatten ++ b.pending))
    (hfit : ∀ e ∈ done.flatten ++ b.pending, EntryStorable e)
    (hblock : (blockEncoding ri b.pending).length < 2 ^ 32)
    (hdata : dataBytes ri (done ++ [b.pending]) < 2 ^ 60)
    (hindex : (indexBytes (blockMetas 0 (done ++ [b.pending])
      ((done ++ [b.pending]).map (blockEncoding ri)))).length < 2 ^ 32) :
    ∃ b' info, finish b = (b', .ok info) := by
  have hall : done.flatten ++ b.pending ≠ [] := by simp [hne]
  have hoffset : b.offset = dataBytes ri done := by
    rw [h.offset_eq, forall₂_encodedBlock h.encoded, dataBytes]
  have hdata' : b.offset + (blockEncoding ri b.pending).length < 2 ^ 60 := by
    rw [hoffset]
    simpa [dataBytes] using hdata
  obtain ⟨b₁, hflush, hinfo, -, hoffset₁, hblocks⟩ := flushBlock_ok h hri hne
    (List.pairwise_append.mp hord).2.1 (fun e he => hfit e (List.mem_append_right _ he)) hblock
    (by omega)
  have hkey : ∀ bs, bs ≠ [] → (∀ e ∈ bs, EntryStorable e) →
      (groupKey bs).length < 2 ^ 32 ∧ (lastKeyOf [] bs).length < 2 ^ 32 := by
    intro bs hbs hstore
    constructor
    · cases bs with
      | nil => exact absurd rfl hbs
      | cons e bs => exact (hstore e List.mem_cons_self).key_lt
    · obtain ⟨e, he, hek⟩ := lastKeyOf_mem [] hbs
      rw [← hek]
      exact (hstore e he).key_lt
  -- the index written by `Finish` is the index of the blocks
  have hmetas : b₁.blocks = blockMetas 0 (done ++ [b.pending])
      ((done ++ [b.pending]).map (blockEncoding ri)) := by
    rw [hblocks, List.map_append, List.map_cons, List.map_nil,
      blockMetas_append_singleton (forall₂_encodedBlock h.encoded ▸ h.encoded),
      ← forall₂_encodedBlock h.encoded, ← h.metas, h.offset_eq, Nat.zero_add]
  have hencoded : encodeIndex b₁.blocks = .ok (indexBytes b₁.blocks) := by
    unfold encodeIndex
    rw [if_neg]
    · simp [indexBytes]
    · rintro ⟨m, hm, hnot⟩
      obtain ⟨bs, hbs, hfirst, hlast⟩ := mem_blockMetas (hmetas ▸ hm)
      have hbs' : bs ≠ [] ∧ ∀ e ∈ bs, EntryStorable e := by
        rcases List.mem_append.mp hbs with hbs | hbs
        · obtain ⟨enc, -, henc⟩ := TableFile.forall₂_exists h.encoded hbs
          exact ⟨henc.ne_nil, fun e he =>
            hfit e (List.mem_append_left _ (List.mem_flatten_of_mem hbs he))⟩
        · rw [List.mem_singleton.mp hbs]
          exact ⟨hne, fun e he => hfit e (List.mem_append_right _ he)⟩
      obtain ⟨h1, h2⟩ := hkey bs hbs'.1 hbs'.2
      rw [hfirst, hlast] at hnot
      exact hnot ⟨by simpa [fitsU32] using h1, by simpa [fitsU32] using h2⟩
  obtain ⟨hsmall, hlarge⟩ := hkey _ hall hfit
  have hinfo' : b₁.info = ⟨0, (done.flatten ++ b.pending).length,
      groupKey (done.flatten ++ b.pending), lastKeyOf [] (done.flatten ++ b.pending),
      minSequenceOf (done.flatten ++ b.pending), maxSequenceOf (done.flatten ++ b.pending)⟩ := by
    rw [hinfo, h.info_eq]
  obtain ⟨⟨emin, hemin, hmin⟩, emax, hemax, hmax⟩ := exists_minSequenceOf hall
  have hproperties : encodeProperties ⟨b₁.info.entryCount, b₁.info.smallestKey, b₁.info.largestKey,
      b₁.info.minSequence, b₁.info.maxSequence⟩ =
        .ok (propertiesBytes ⟨b₁.info.entryCount, b₁.info.smallestKey, b₁.info.largestKey,
          b₁.info.minSequence, b₁.info.maxSequence⟩) := by
    unfold encodeProperties
    rw [if_neg]
    · rfl
    · rw [hinfo']
      have hminpos := (hfit emin hemin).sequence_pos
      rw [hmin] at hminpos
      have hle := (sequence_bounds _ emin hemin).2
      rw [hmin] at hle
      have hkeys : groupKey (done.flatten ++ b.pending) ≤ lastKeyOf [] (done.flatten ++ b.pending) := by
        obtain ⟨e, he, hek⟩ := lastKeyOf_mem [] hall
        rw [← hek]
        exact groupKey_le_of_mem hord he
      simp only [fitsU32, decide_eq_true_eq, not_or, not_lt]
      refine ⟨?_, ?_, hle, hkeys, not_le.mpr hsmall, not_le.mpr hlarge⟩
      · exact Nat.pos_iff_ne_zero.mp (List.length_pos_of_ne_nil hall)
      · omega
  unfold finish
  rw [if_neg (by simp [h.open_]), if_neg (by simp [hne]), hflush]
  simp only [hencoded, hproperties]
  have hindex' : (indexBytes b₁.blocks).length < 2 ^ 32 := by rwa [hmetas]
  rw [if_neg (by rw [hoffset₁]; omega), if_neg]
  · exact ⟨_, _, rfl⟩
  · rw [length_propertiesBytes, hinfo', hoffset₁]
    simp only
    omega

end SSTableBuilder

theorem buildTable_ok {blockBytes ri : ℕ} {es : List InternalEntry}
    (h : TableFits blockBytes ri es) :
    ∃ spans info, buildTable blockBytes ri es = (spans, .ok info) := by
  have hinv := SSTableBuilder.inv_new blockBytes ri
  have hpending : (SSTableBuilder.new blockBytes ri).pending = [] := rfl
  obtain ⟨b, hadd⟩ := SSTableBuilder.addAll_ok h.interval_pos hinv
    (by simpa [hpending] using h.ordered) (by simpa [hpending] using h.storable)
    (by rw [hpending]; exact h.block_lt) (by rw [hpending]; exact h.dataBytes_lt)
  obtain ⟨done, hdone, hcut⟩ := hinv.addAll hadd
  rw [hpending, List.nil_append] at hcut
  have hflat : done.flatten ++ b.pending = es := by
    have := congrArg List.flatten hcut
    rw [flatten_cutBlocks, List.flatten_append] at this
    simpa using this
  have hne : b.pending ≠ [] := by
    intro hnil
    have hdonenil : done = [] := by
      by_contra hd
      exact hdone.pending_ne hd hnil
    rw [hdonenil, hnil] at hflat
    exact h.ne_nil (by simpa using hflat.symm)
  obtain ⟨b', info, hfinish⟩ := SSTableBuilder.finish_ok hdone h.interval_pos hne
    (by rw [hflat]; exact h.ordered) (by rw [hflat]; exact h.storable)
    (h.block_lt _ (by rw [← hcut]; simp)) (by rw [hcut]; exact h.dataBytes_lt)
    (by rw [hcut]; exact h.index_lt)
  refine ⟨b'.appended, info, ?_⟩
  rw [buildTable, hadd]
  simp only [hfinish]

/-- The result `Get` gives for the first listed version: that entry, or one of the two
`NotFound` texts. -/
def IsGet (found : Option InternalEntry) (result : Result InternalEntry) : Prop :=
  match found with
  | some e => result = .ok e
  | none => ∃ m, result = .error (.notFound m)

section
variable {blockBytes ri : ℕ} {es : List InternalEntry}

/-- Building a table and reading it back: every step succeeds, the file is taken as v2, its
properties are those `Finish` returned, and `Scan` and `Get` return exactly the entries. -/
theorem table_round_trip (h : TableFits blockBytes ri es) (tableNumber : ℕ) :
    ∃ spans info r, buildTable blockBytes ri es = (spans, .ok info) ∧
      SSTableReader.open spans.flatten tableNumber = .ok r ∧ r.version = kSstableVersion ∧
      r.validateAndGetProperties = .ok ⟨info.fileSize, info.entryCount, info.smallestKey,
        info.largestKey, info.minSequence, info.maxSequence⟩ ∧
      info = ⟨spans.flatten.length, es.length, groupKey es, lastKeyOf [] es, minSequenceOf es,
        maxSequenceOf es⟩ ∧
      (∀ start limit, limit = [] ∨ start ≤ limit →
        r.scan start limit = .ok (es.filter fun e => MemTable.inRange start limit e.userKey)) ∧
      ∀ key sequence, IsGet (findVersion es key sequence) (r.get true key sequence) := by
  obtain ⟨spans, info, hbuild⟩ := buildTable_ok h
  obtain ⟨encs, hfile, hinfo⟩ := buildTable_eq_ok
    (fun e he => (h.storable e he).sequence_lt) hbuild
  have hencs := forall₂_encodedBlock hfile.encoded
  have hopen := (hfile.open_eq tableNumber).1 (by rw [hencs]; exact h.index_lt)
  have hvalid := hfile.valid tableNumber
  have hflat : (cutBlocks blockBytes [] es).flatten = es := by
    rw [flatten_cutBlocks, List.nil_append]
  -- the 64-bit size counter of `Finish` does not wrap
  have hsize : spans.flatten.length < 2 ^ 64 := by
    have hdata := h.dataBytes_lt
    have hindex := h.index_lt
    rw [dataBytes, ← hencs] at hdata
    rw [← hencs] at hindex
    have hkeys := hfile.properties_fit
    have h1 := hkeys.smallest_lt
    have h2 := hkeys.largest_lt
    rw [hfile.file_eq]
    simp only [List.length_append, length_propertiesBytes, length_encodeFooter, kSstableFooterSize]
    omega
  have hvalidate := hfile.validate tableNumber
  rw [hflat] at hvalidate
  refine ⟨spans, info, _, hbuild, hopen, rfl, ?_, ?_, fun start limit hrange => ?_,
    fun key sequence => ?_⟩
  · rw [hvalidate, hinfo, Nat.mod_eq_of_lt hsize]
  · rw [hinfo, Nat.mod_eq_of_lt hsize]
  · rw [hvalid.scan hrange, hflat]
  · have hget := hvalid.get_cached key sequence
    rw [hflat, isLookup_iff h.ordered] at hget
    rcases hget with ⟨e, hget, hfound⟩ | ⟨⟨m, hget⟩, hnone⟩
    · rw [hfound, hget, IsGet]
    · rw [hnone, hget]
      exact ⟨m, rfl⟩

/-- Two versions of one key and a tombstone, in blocks of one key each. -/
def roundTripEntries : List InternalEntry :=
  [⟨[107], 2, .value, [50]⟩, ⟨[107], 1, .value, [49]⟩, ⟨[108], 3, .tombstone, []⟩]

instance (e : InternalEntry) : Decidable (EntryStorable e) :=
  decidable_of_iff (1 ≤ e.sequence ∧ e.sequence < 2 ^ 64 ∧ (e.type = .tombstone → e.value = []) ∧
      e.userKey.length < 2 ^ 32 ∧ e.value.length < 2 ^ 32)
    ⟨fun ⟨h1, h2, h3, h4, h5⟩ => ⟨h1, h2, h3, h4, h5⟩,
      fun ⟨h1, h2, h3, h4, h5⟩ => ⟨h1, h2, h3, h4, h5⟩⟩

theorem table_round_trip_example :
    TableFits 1 1 roundTripEntries ∧
      ∃ spans info r, buildTable 1 1 roundTripEntries = (spans, .ok info) ∧
        SSTableReader.open spans.flatten 7 = .ok r ∧ r.version = kSstableVersion ∧
        IsGet (findVersion roundTripEntries [107] 1) (r.get true [107] 1) := by
  have hfits : TableFits 1 1 roundTripEntries :=
    ⟨by decide, by decide, by decide, by decide, by decide, by decide +kernel, by decide +kernel⟩
  obtain ⟨spans, info, r, hbuild, hopen, hversion, -, -, -, hget⟩ := table_round_trip hfits 7
  exact ⟨hfits, spans, info, r, hbuild, hopen, hversion, hget [107] 1⟩

end

end TinyLsm
