import TinyLsm.Sstable.RoundTrip
import TinyLsm.Sstable.Validation
import TinyLsm.Util.ByteChange

/-!
# Damaged tables

A table file with one changed byte never passes `SSTableReader::Open` and
`ValidateAndGetProperties`: the sections tile the file, each is sealed by a checksum, and the v1
reading of a damaged v2 footer fails the section check.
-/

namespace TinyLsm

variable {p : ℕ} {v : UInt8}

/-! ## Sections -/

theorem sealed_damaged {body : Bytes}
    (h : ByteChange (body ++ putFixed32 (crc32c body)) p v) {bytes : Bytes}
    (hbytes : bytes = (body ++ putFixed32 (crc32c body)).set p v) :
    crc32c (bytes.take (bytes.length - 4)) ≠ (getFixed32 bytes (bytes.length - 4)).getD 0 := by
  obtain ⟨a, ha, hne⟩ := h.exists_old
  have hlen : bytes.length - 4 = body.length := by
    rw [hbytes]
    simp
  rw [hlen, hbytes]
  exact checksum_set_ne ha hne

theorem decodeIndex_damaged {blocks : List BlockMeta} (h : ByteChange (indexBytes blocks) p v) :
    ∃ s, decodeIndex ((indexBytes blocks).set p v) = .error s := by
  generalize hbytes : (indexBytes blocks).set p v = bytes
  have hcrc := sealed_damaged h hbytes.symm
  unfold decodeIndex
  split
  · exact ⟨_, rfl⟩
  · simp only
    rw [if_pos hcrc]
    exact ⟨_, rfl⟩

theorem decodeProperties_damaged {properties : TableProperties}
    (h : ByteChange (propertiesBytes properties) p v) :
    ∃ s, decodeProperties ((propertiesBytes properties).set p v) = .error s := by
  generalize hbytes : (propertiesBytes properties).set p v = bytes
  have hcrc := sealed_damaged h hbytes.symm
  unfold decodeProperties
  split
  · exact ⟨_, rfl⟩
  · simp only
    rw [if_pos hcrc]
    exact ⟨_, rfl⟩

theorem decodeDataBlock_damaged {ri : ℕ} {es : List InternalEntry}
    (h : ByteChange (blockEncoding ri es) p v) :
    ∃ s, decodeDataBlock ((blockEncoding ri es).set p v) kSstableVersion = .error s := by
  generalize hbytes : (blockEncoding ri es).set p v = bytes
  have hcrc := sealed_damaged h hbytes.symm
  have hparse : ∃ s, parseV2BlockLayout bytes = .error s := by
    unfold parseV2BlockLayout
    split
    · exact ⟨_, rfl⟩
    · simp only
      rw [if_pos hcrc]
      exact ⟨_, rfl⟩
  obtain ⟨s, hs⟩ := hparse
  refine ⟨s, ?_⟩
  rw [decodeDataBlock, if_neg (by decide), if_pos rfl, decodeDataBlockV2, hs]

/-- A damaged v2 footer is not a v2 footer. -/
theorem decodeFooter_damaged {f : Footer} (h : ByteChange (encodeFooter f) p v) :
    ∃ s, decodeFooter ((encodeFooter f).set p v) = .error s := by
  have hlen : ((encodeFooter f).set p v).length = kSstableFooterSize := by simp
  have hbody : (footerBody f).length = 44 := by simp [footerBody]
  have hsplit : encodeFooter f = (footerBody f ++ putFixed32 (crc32c (footerBody f))) ++
      putFixed32 0 := by simp [encodeFooter]
  have hchange := h
  rw [hsplit] at hchange
  have hbad : (getFixed32 ((encodeFooter f).set p v) 48).getD 0 ≠ 0 ∨
      crc32c (((encodeFooter f).set p v).take 44) ≠
        (getFixed32 ((encodeFooter f).set p v) 44).getD 0 := by
    rw [hsplit]
    rcases hchange.append with ⟨hsealed, hset⟩ | ⟨hreserved, hset⟩
    · right
      rw [hset]
      obtain ⟨a, ha, hne⟩ := hsealed.exists_old
      have hcrc := checksum_set_ne ha hne
      rw [hbody] at hcrc
      rw [List.take_append_of_le_length (by simp [hbody]),
        getFixed32, LittleEndian.readAt_append_left (by simp [hbody])]
      exact hcrc
    · left
      rw [hset]
      set q := p - (footerBody f ++ putFixed32 (crc32c (footerBody f))).length with hq
      have hread : getFixed32 (footerBody f ++ putFixed32 (crc32c (footerBody f)) ++
          (putFixed32 0).set q v) 48 = some (LittleEndian.decode ((putFixed32 0).set q v)) := by
        rw [getFixed32, LittleEndian.readAt_of_le (by simp [hbody]), List.drop_left' (by simp [hbody]),
          List.take_of_length_le (by simp)]
      rw [hread, Option.getD_some]
      intro hzero
      -- four bytes that encode zero are zero bytes
      have hbytes := LittleEndian.encode_decode ((putFixed32 0).set q v)
      rw [hzero, List.length_set, length_putFixed32] at hbytes
      refine hreserved.ne ?_
      rw [show (putFixed32 0 : Bytes) = LittleEndian.encode 4 0 from rfl, hbytes,
        List.getElem?_set_self (by simpa using hreserved.lt)]
  have hv1 : ¬ kSstableFooterSize = kSstableV1FooterSize := by decide
  unfold decodeFooter
  simp only [hlen]
  rw [if_neg (by simp)]
  simp only [hv1, decide_false, Bool.false_eq_true, if_false]
  rw [if_pos]
  · exact ⟨_, rfl⟩
  · rcases hbad with hreserved | hcrc
    · exact .inr (.inr (.inr (.inl hreserved)))
    · exact .inr (.inr (.inr (.inr hcrc)))

/-- Read with the v1 layout, a damaged v2 footer of a small table either has a wrong version or
describes the v2 sections. -/
theorem decodeFooter_v1_damaged {f g : Footer} (hfits : f.Fits) (hindex : f.indexSize < 2 ^ 32)
    (hg : decodeFooter (((encodeFooter f).set p v).drop 16) = .ok g) :
    g.version = kSstableVersionV1 ∧ g.indexOffset = f.propertiesOffset ∧
      g.indexSize = f.propertiesSize := by
  obtain ⟨f1, f2, f3⟩ := encodeFooter_v1_fields hfits
  obtain ⟨hv, hversion, hoffset, hsize⟩ := decodeFooter_v1_eq_ok
    (by rw [List.length_drop, List.length_set, length_encodeFooter]; rfl) hg
  rw [getFixed32_drop] at hv
  rw [getFixed64_drop] at hoffset hsize
  have hp : p < 20 := by
    by_contra hp
    rw [getFixed32, LittleEndian.readAt_set (by omega), ← getFixed32, f1, Option.getD_some,
      Nat.div_eq_of_lt hindex] at hv
    exact absurd hv (by decide)
  rw [getFixed64, LittleEndian.readAt_set (by omega), ← getFixed64] at hoffset hsize
  rw [f2] at hoffset
  rw [f3] at hsize
  exact ⟨hversion, hoffset, hsize⟩

/-- A changed byte of the data section is a changed byte of one block. -/
theorem exists_damaged_block {ri : ℕ} {bss : List (List InternalEntry)} :
    ∀ {p : ℕ} (pre post : Bytes), ByteChange (bss.map (blockEncoding ri)).flatten p v →
      ∃ m ∈ blockMetas pre.length bss (bss.map (blockEncoding ri)), ∃ bs q,
        ByteChange (blockEncoding ri bs) q v ∧
        readExactly (pre ++ ((bss.map (blockEncoding ri)).flatten.set p v ++ post)) m.offset
          m.size = .ok ((blockEncoding ri bs).set q v) := by
  induction bss with
  | nil =>
    intro p pre post h
    exact absurd h.lt (by simp)
  | cons bs bss ih =>
    intro p pre post h
    rw [List.map_cons, List.flatten_cons] at h ⊢
    rw [blockMetas]
    rcases h.append with ⟨hblock, hset⟩ | ⟨hrest, hset⟩
    · refine ⟨_, List.mem_cons_self, bs, p, hblock, ?_⟩
      rw [hset, List.append_assoc]
      exact TableFile.readExactly_middle _ _ _ rfl (by simp)
    · obtain ⟨m, hm, bs', q, hchange, hread⟩ := ih (pre ++ blockEncoding ri bs) post hrest
      rw [List.length_append] at hm
      refine ⟨m, List.mem_cons_of_mem _ hm, bs', q, hchange, ?_⟩
      rw [hset]
      simpa only [List.append_assoc] using hread

/-! ## Files -/

namespace TableFile

variable {ri : ℕ} {bss : List (List InternalEntry)} {encs : List Bytes} {file : Bytes}

/-- The footer of a small table is found behind any bytes. -/
theorem readFooter_intact {f : Footer} (hfits : f.Fits) (hindex : f.indexSize < 2 ^ 32)
    (pre : Bytes) : SSTableReader.readFooter (pre ++ encodeFooter f) = .ok f := by
  rw [readFooter_append _ _ (length_encodeFooter f)]
  split
  · rename_i g hv1
    have := (decodeFooter_v1_tail hfits hv1).1
    omega
  · exact decodeFooter_encodeFooter hfits

/-- A reader whose file holds a damaged block under one of its index entries does not validate. -/
theorem validate_damaged_block {r : SSTableReader} {m : BlockMeta} {bs : List InternalEntry} {q : ℕ}
    (hm : m ∈ r.blocks) (hversion : r.version = kSstableVersion)
    (hchange : ByteChange (blockEncoding ri bs) q v)
    (hread : readExactly r.file m.offset m.size = .ok ((blockEncoding ri bs).set q v)) :
    ∃ s, r.validateAndGetProperties = .error s := by
  obtain ⟨s, hs⟩ := decodeDataBlock_damaged hchange
  have hblock : r.readBlock m = .error s := by
    simp only [SSTableReader.readBlock, hread, hversion, hs]
  cases hvalidate : r.validateAndGetProperties with
  | error s => exact ⟨s, rfl⟩
  | ok properties =>
    obtain ⟨bss', hvalid, -⟩ := SSTableReader.validate_sound hvalidate
    obtain ⟨bs', -, hok, -⟩ := forall₂_exists hvalid.blocks hm
    rw [hblock] at hok
    cases hok

/-- A reader of a damaged table does not validate it. -/
theorem damaged (h : TableFile ri bss encs file)
    (hindex : (indexBytes (blockMetas 0 bss encs)).length < 2 ^ 32) (hchange : ByteChange file p v)
    {tableNumber : ℕ} {r : SSTableReader}
    (hopen : SSTableReader.open (file.set p v) tableNumber = .ok r) :
    ∃ s, r.validateAndGetProperties = .error s := by
  obtain rfl := forall₂_encodedBlock h.encoded
  set data := (bss.map (blockEncoding ri)).flatten with hdata
  set metas := blockMetas 0 bss (bss.map (blockEncoding ri)) with hmetas
  set props := propertiesBytes (entriesProperties bss.flatten) with hprops
  set footer := tableFooter data.length (indexBytes metas).length props.length with hfooter
  obtain ⟨g, index, hg, hsections, hread, hdecode, hpersisted, hrfile, hversion⟩ :=
    SSTableReader.open_eq_ok hopen
  have hfits : footer.Fits := h.footer_fits
  have hlen : file.length = data.length + (indexBytes metas).length + props.length + 52 :=
    h.length_eq
  have hfile : file = (data ++ (indexBytes metas ++ props)) ++ encodeFooter footer := by
    rw [List.append_assoc, List.append_assoc]
    exact h.file_eq
  rw [hfile] at hchange
  rcases hchange.append with ⟨hsection, hset⟩ | ⟨hfoot, hset⟩
  · rw [hfile] at hg hread hpersisted hrfile
    rw [hset] at hg hread hpersisted hrfile
    -- the footer is intact, so the sections are read where they were written
    rw [readFooter_intact hfits hindex] at hg
    obtain rfl := Except.ok.inj hg
    have hoffset : footer.indexOffset = data.length := rfl
    have hsize : footer.indexSize = (indexBytes metas).length := rfl
    rcases hsection.append with ⟨hblock, hset⟩ | ⟨hsection, hset⟩
    · -- a data block: the index is intact, so the damaged block is read
      rw [hset] at hread hrfile
      rw [List.append_assoc, List.append_assoc, readExactly_middle _ _ _ (by simp [hoffset])
        hsize] at hread
      obtain rfl := Except.ok.inj hread
      obtain ⟨-, honly⟩ := decodeIndex_indexBytes
        (by have := h.sections_lt; omega) h.metas_fit
        (metas_separated (h.metas_forall₂.imp fun m bs ⟨_, _, _, h3, h4, _⟩ => ⟨h3, h4⟩)
          h.orderedBlocks)
      obtain ⟨m, hm, bs, q, hbad, hbytes⟩ := exists_damaged_block []
        (indexBytes metas ++ props ++ encodeFooter footer) hblock
      rw [List.nil_append, ← List.append_assoc, ← hrfile] at hbytes
      refine validate_damaged_block ?_ hversion hbad hbytes
      rw [honly _ hdecode]
      exact hm
    · rcases hsection.append with ⟨hbad, hset'⟩ | ⟨hbad, hset'⟩
      · obtain ⟨s, hs⟩ := decodeIndex_damaged hbad
        rw [hset, hset', List.append_assoc, List.append_assoc,
          readExactly_middle _ _ _ hoffset (by simp [hsize])] at hread
        rw [← Except.ok.inj hread, hs] at hdecode
        cases hdecode
      · obtain ⟨s, hs⟩ := decodeProperties_damaged hbad
        have hbytes := readExactly_middle (data ++ indexBytes metas) (props.set (p - data.length -
          (indexBytes metas).length) v) (encodeFooter footer)
          (by simp [hfooter, tableFooter] : footer.propertiesOffset = _)
          (by simp [hfooter, tableFooter] : footer.propertiesSize = _)
        have hv2 : footer.version = kSstableVersion := rfl
        rw [hset, hset', SSTableReader.readProperties, if_pos hv2, ← List.append_assoc,
          List.append_assoc, hbytes] at hpersisted
        simp only [hprops, hs] at hpersisted
        cases hpersisted
  · obtain ⟨s, hs⟩ := decodeFooter_damaged hfoot
    have hlarge := readFooter_append (data ++ (indexBytes metas ++ props))
      ((encodeFooter footer).set (p - (data ++ (indexBytes metas ++ props)).length) v)
      (by rw [List.length_set]; exact length_encodeFooter footer)
    rw [← hset, ← hfile, hg] at hlarge
    split at hlarge
    · rename_i g' hv1
      obtain rfl : g = g' := Except.ok.inj hlarge
      obtain ⟨hv, hoffset, hsize⟩ := decodeFooter_v1_damaged hfits hindex hv1
      obtain ⟨s', hs'⟩ := checkSections_v1 hv
        (by rw [List.length_set, hlen, hoffset, hsize]; rfl : (file.set p v).length = _)
      rw [hs'] at hsections
      cases hsections
    · rw [hs] at hlarge
      cases hlarge

end TableFile

/-- One changed byte of a finished table is reported by `Open` or by `ValidateAndGetProperties`. -/
theorem table_damage_detected {blockBytes ri tableNumber : ℕ} {entries : List InternalEntry}
    {spans : List Bytes} {info : BuiltTableInfo} (hseq : ∀ e ∈ entries, e.sequence < 2 ^ 64)
    (hbuild : buildTable blockBytes ri entries = (spans, .ok info))
    (hindex : (indexBytes (blockMetas 0 (cutBlocks blockBytes [] entries)
      ((cutBlocks blockBytes [] entries).map (blockEncoding ri)))).length < 2 ^ 32)
    (hchange : ByteChange spans.flatten p v) :
    (∃ s, SSTableReader.open (spans.flatten.set p v) tableNumber = .error s) ∨
      ∃ r s, SSTableReader.open (spans.flatten.set p v) tableNumber = .ok r ∧
        r.validateAndGetProperties = .error s := by
  obtain ⟨encs, hfile, -⟩ := buildTable_eq_ok hseq hbuild
  rw [← forall₂_encodedBlock hfile.encoded] at hindex
  cases hopen : SSTableReader.open (spans.flatten.set p v) tableNumber with
  | error s => exact .inl ⟨s, rfl⟩
  | ok r =>
    obtain ⟨s, hs⟩ := hfile.damaged hindex hchange hopen
    exact .inr ⟨r, s, rfl, hs⟩

/-- Byte 16 of the footer set to 1, the version of the v1 layout. -/
theorem table_damage_detected_footer :
    ∃ spans info, buildTable 1 1 roundTripEntries = (spans, .ok info) ∧
      ByteChange spans.flatten (spans.flatten.length - 36) 1 ∧
      ((∃ s, SSTableReader.open (spans.flatten.set (spans.flatten.length - 36) 1) 7 = .error s) ∨
        ∃ r s, SSTableReader.open (spans.flatten.set (spans.flatten.length - 36) 1) 7 = .ok r ∧
          r.validateAndGetProperties = .error s) := by
  set spans := (buildTable 1 1 roundTripEntries).1 with hspans
  have hbuild : buildTable 1 1 roundTripEntries = (spans, .ok ⟨254, 3, [107], [108], 1, 3⟩) := by
    rw [hspans]
    decide +kernel
  have hchange : ByteChange spans.flatten (spans.flatten.length - 36) 1 :=
    ⟨by rw [hspans]; decide +kernel, by rw [hspans]; decide +kernel⟩
  exact ⟨spans, _, hbuild, hchange,
    table_damage_detected (by decide) hbuild (by decide +kernel) hchange⟩

end TinyLsm
