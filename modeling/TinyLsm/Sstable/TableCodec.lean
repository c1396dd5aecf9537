import TinyLsm.Sstable.BlockSearch
import TinyLsm.Sstable.Reader

/-!
# Table files read back

The index, the properties and the footer of a v2 table read back, and what `SSTableReader::Open`
therefore returns on a file that has the sections `SSTableBuilder::Finish` writes.
-/

namespace TinyLsm

/-! ## Index -/

/-- The fields of an index entry fit their stored widths and its keys are in order. -/
structure BlockMeta.Fits (b : BlockMeta) : Prop where
  first_lt : b.firstKey.length < 2 ^ 32
  last_lt : b.lastKey.length < 2 ^ 32
  offset_lt : b.offset < 2 ^ 64
  size_lt : b.size < 2 ^ 64
  keys_le : b.firstKey ≤ b.lastKey

@[simp] theorem length_encodeBlockMeta (b : BlockMeta) :
    (encodeBlockMeta b).length = 24 + b.firstKey.length + b.lastKey.length := by
  simp only [encodeBlockMeta, List.length_append, length_putFixed32, length_putFixed64]
  omega

/-- What is read at an encoded index entry inside a longer span. -/
structure BlockMeta.StoredAt (m : BlockMeta) (bytes : Bytes) (p : ℕ) : Prop where
  first_eq : getFixed32 bytes p = some m.firstKey.length
  last_eq : getFixed32 bytes (p + 4) = some m.lastKey.length
  offset_eq : getFixed64 bytes (p + 8) = some m.offset
  size_eq : getFixed64 bytes (p + 16) = some m.size
  firstKey_eq : (bytes.drop (p + 24)).take m.firstKey.length = m.firstKey
  lastKey_eq : (bytes.drop (p + 24 + m.firstKey.length)).take m.lastKey.length = m.lastKey

theorem BlockMeta.Fits.storedAt {m : BlockMeta} (hm : m.Fits) {bytes pre rest : Bytes}
    (hbytes : bytes = pre ++ (encodeBlockMeta m ++ rest)) : m.StoredAt bytes pre.length := by
  have hlay : bytes = pre ++ (putFixed32 m.firstKey.length ++ (putFixed32 m.lastKey.length ++
      (putFixed64 m.offset ++ (putFixed64 m.size ++ (m.firstKey ++ (m.lastKey ++ rest)))))) := by
    rw [hbytes]
    simp [encodeBlockMeta]
  have hkeys : bytes.drop (pre.length + 24) = m.firstKey ++ (m.lastKey ++ rest) := by
    rw [hlay, List.drop_length_add_append, ← List.append_assoc (putFixed32 m.firstKey.length),
      ← List.append_assoc _ (putFixed64 m.offset), ← List.append_assoc _ (putFixed64 m.size)]
    exact List.drop_left' (by simp)
  refine ⟨?_, ?_, ?_, ?_, by rw [hkeys, List.take_left], ?_⟩
  · rw [hlay]
    exact getFixed32_append _ hm.first_lt pre _ rfl
  · rw [hlay, getFixed32_append_right]
    exact getFixed32_append _ hm.last_lt (putFixed32 _) _ (by simp)
  · rw [hlay, getFixed64_append_right, ← List.append_assoc (putFixed32 m.firstKey.length)]
    exact getFixed64_append _ hm.offset_lt _ _ (by simp)
  · rw [hlay, getFixed64_append_right, ← List.append_assoc (putFixed32 m.firstKey.length),
      ← List.append_assoc _ (putFixed64 m.offset)]
    exact getFixed64_append _ hm.size_lt _ _ (by simp)
  · rw [← List.drop_drop, hkeys, List.drop_left, List.take_left]

/-- The index loop reads encoded entries back, given that the key ranges are disjoint. -/
theorem decodeBlockMetas_eq_ok {bytes : Bytes} (hlen : bytes.length < 2 ^ 64)
    (tail : Bytes) (ms : List BlockMeta) : ∀ (pre : Bytes) (done : List BlockMeta),
      bytes = pre ++ (ms.flatMap encodeBlockMeta ++ tail) → 4 ≤ tail.length →
      (∀ m ∈ ms, m.Fits) →
      (done ++ ms).Pairwise (fun a b => a.lastKey < b.firstKey) →
      decodeBlockMetas bytes ms.length pre.length done =
        .ok (done ++ ms, pre.length + (ms.flatMap encodeBlockMeta).length) := by
  induction ms with
  | nil => intros; simp [decodeBlockMetas]
  | cons m ms ih =>
    intro pre done hbytes htail hfits hsep
    have hm := hfits m List.mem_cons_self
    have hlay : bytes = pre ++ (encodeBlockMeta m ++ (ms.flatMap encodeBlockMeta ++ tail)) := by
      rw [hbytes, List.flatMap_cons, List.append_assoc]
    obtain ⟨f1, f2, f3, f4, f5, f6⟩ := hm.storedAt hlay
    have htotal : pre.length + 24 + m.firstKey.length + m.lastKey.length + 4 ≤ bytes.length := by
      rw [hlay]
      simp only [List.length_append, length_encodeBlockMeta]
      omega
    -- the unsigned subtraction of the length check does not wrap here
    have hguard : ¬ (bytes.length + 2 ^ 64 - 4 - (pre.length + 24)) % 2 ^ 64 <
        m.firstKey.length + m.lastKey.length := by
      have hsub : bytes.length + 2 ^ 64 - 4 - (pre.length + 24) =
          bytes.length - 4 - (pre.length + 24) + 2 ^ 64 := by omega
      rw [hsub, Nat.add_mod_right, Nat.mod_eq_of_lt (by omega)]
      omega
    have hord : ¬ (m.lastKey < m.firstKey ∨
        ∃ l, done.getLast? = some l ∧ ¬ l.lastKey < m.firstKey) := by
      rintro (hlt | ⟨l, hl, hnot⟩)
      · exact absurd hm.keys_le (not_le.mpr hlt)
      · exact hnot ((List.pairwise_append.mp hsep).2.2 l (List.mem_of_getLast? hl) m
          List.mem_cons_self)
    have hrec := ih (pre ++ encodeBlockMeta m) (done ++ [m])
      (by rw [hbytes]; simp) htail (fun m' hm' => hfits m' (List.mem_cons_of_mem _ hm'))
      (by simpa using hsep)
    simp only [List.length_cons, decodeBlockMetas, f1, f2, f3, f4, hguard, if_false, f5, f6, hord]
    rw [List.length_append, length_encodeBlockMeta] at hrec
    simpa [Nat.add_assoc] using hrec

/-- The index section behind its block list. -/
def indexBytes (blocks : List BlockMeta) : Bytes :=
  putFixed32 blocks.length ++ blocks.flatMap encodeBlockMeta ++
    putFixed32 (crc32c (putFixed32 blocks.length ++ blocks.flatMap encodeBlockMeta))

theorem encodeIndex_eq_ok {blocks : List BlockMeta} {bytes : Bytes}
    (h : encodeIndex blocks = .ok bytes) : bytes = indexBytes blocks ∧
      ∀ b ∈ blocks, b.firstKey.length < 2 ^ 32 ∧ b.lastKey.length < 2 ^ 32 := by
  unfold encodeIndex at h
  split at h
  · cases h
  rename_i hfit
  refine ⟨by simpa [indexBytes] using h.symm, fun b hb => ?_⟩
  by_contra hno
  refine hfit ⟨b, hb, ?_⟩
  simpa [fitsU32] using hno

theorem length_le_flatMap_encodeBlockMeta (ms : List BlockMeta) :
    24 * ms.length ≤ (ms.flatMap encodeBlockMeta).length := by
  induction ms with
  | nil => simp
  | cons m ms ih =>
    simp only [List.flatMap_cons, List.length_append, length_encodeBlockMeta, List.length_cons]
    omega

/-- `DecodeIndex` returns the blocks whenever their number fits the count field, and accepts the
section in no other case. -/
theorem decodeIndex_indexBytes {blocks : List BlockMeta} (hlen : (indexBytes blocks).length < 2 ^ 64)
    (hfits : ∀ b ∈ blocks, b.Fits) (hsep : blocks.Pairwise (fun a b => a.lastKey < b.firstKey)) :
    (blocks.length < 2 ^ 32 → decodeIndex (indexBytes blocks) = .ok blocks) ∧
      ∀ bs, decodeIndex (indexBytes blocks) = .ok bs → bs = blocks := by
  obtain ⟨hsum, htake⟩ := getFixed32_checksum
    (putFixed32 blocks.length ++ blocks.flatMap encodeBlockMeta)
  change getFixed32 (indexBytes blocks) ((indexBytes blocks).length - 4) = _ at hsum
  change (indexBytes blocks).take ((indexBytes blocks).length - 4) = _ at htake
  set crc := putFixed32 (crc32c (putFixed32 blocks.length ++ blocks.flatMap encodeBlockMeta))
    with hcrc
  have hcrclen : crc.length = 4 := by simp [hcrc]
  set count := blocks.length % 2 ^ 32 with hcount
  have hread : getFixed32 (indexBytes blocks) 0 = some count := by
    have := LittleEndian.readAt_append_encode 4 blocks.length ([] : Bytes)
      (blocks.flatMap encodeBlockMeta ++ crc)
    have hlay : indexBytes blocks = ([] : Bytes) ++ (LittleEndian.encode 4 blocks.length ++
        (blocks.flatMap encodeBlockMeta ++ crc)) := by
      simp [indexBytes, putFixed32, hcrc]
    rw [hlay, hcount]
    exact this
  have hle : count ≤ blocks.length := Nat.mod_le _ _
  have hmetas := decodeBlockMetas_eq_ok hlen ((blocks.drop count).flatMap encodeBlockMeta ++ crc)
    (blocks.take count) (putFixed32 blocks.length) [] (by
      conv_lhs => rw [indexBytes]
      rw [← List.append_assoc (List.flatMap _ _), ← List.flatMap_append, List.take_append_drop]
      simp [hcrc])
    (by simp only [List.length_append, hcrclen]; omega)
    (fun b hb => hfits b (List.mem_of_mem_take hb))
    (by simpa using List.Pairwise.sublist (List.take_sublist count blocks) hsep)
  rw [List.length_take, Nat.min_eq_left hle, length_putFixed32, List.nil_append] at hmetas
  have hflat : (blocks.flatMap encodeBlockMeta).length =
      ((blocks.take count).flatMap encodeBlockMeta).length +
        ((blocks.drop count).flatMap encodeBlockMeta).length := by
    rw [← List.length_append, ← List.flatMap_append, List.take_append_drop]
  have htotal : (indexBytes blocks).length = 8 + (blocks.flatMap encodeBlockMeta).length := by
    simp only [indexBytes, List.length_append, length_putFixed32]
    omega
  have hdecode : decodeIndex (indexBytes blocks) =
      if 4 + ((blocks.take count).flatMap encodeBlockMeta).length ≠ (indexBytes blocks).length - 4
      then .error (.corruption "index has trailing bytes") else .ok (blocks.take count) := by
    unfold decodeIndex
    simp only [hsum, hread, htake, hmetas, Option.getD_some]
    rw [if_neg (by omega), if_neg (by simp)]
  constructor
  · intro hlt
    have heq : count = blocks.length := by rw [hcount, Nat.mod_eq_of_lt hlt]
    rw [hdecode, heq, List.take_length, if_neg (by omega)]
  · intro bs hbs
    rw [hdecode] at hbs
    split at hbs
    · cases hbs
    · rename_i hend
      obtain rfl : blocks.take count = bs := by simpa using hbs
      have hrest := length_le_flatMap_encodeBlockMeta (blocks.drop count)
      have hnil : (blocks.drop count).length = 0 := by omega
      rw [List.length_drop] at hnil
      exact List.take_of_length_le (by omega)

/-! ## Properties -/

/-- The properties section. -/
def propertiesBytes (p : TableProperties) : Bytes :=
  propertiesBody p ++ putFixed32 (crc32c (propertiesBody p))

/-- The conditions `EncodeProperties` checks. -/
structure TableProperties.Fits (p : TableProperties) : Prop where
  count_pos : 0 < p.entryCount
  count_lt : p.entryCount < 2 ^ 64
  min_pos : 0 < p.minSequence
  min_le_max : p.minSequence ≤ p.maxSequence
  max_lt : p.maxSequence < 2 ^ 64
  keys_le : p.smallestKey ≤ p.largestKey
  smallest_lt : p.smallestKey.length < 2 ^ 32
  largest_lt : p.largestKey.length < 2 ^ 32

@[simp] theorem length_propertiesBytes (p : TableProperties) :
    (propertiesBytes p).length = 36 + p.smallestKey.length + p.largestKey.length := by
  simp only [propertiesBytes, propertiesBody, List.length_append, length_putFixed32,
    length_putFixed64]
  omega

theorem decodeProperties_propertiesBytes {p : TableProperties} (h : p.Fits) :
    decodeProperties (propertiesBytes p) = .ok p := by
  obtain ⟨hsum, htake⟩ := getFixed32_checksum (propertiesBody p)
  change getFixed32 (propertiesBytes p) ((propertiesBytes p).length - 4) = _ at hsum
  change (propertiesBytes p).take ((propertiesBytes p).length - 4) = _ at htake
  set crc := putFixed32 (crc32c (propertiesBody p)) with hcrc
  have hlay : propertiesBytes p = putFixed64 p.entryCount ++ (putFixed64 p.minSequence ++
      (putFixed64 p.maxSequence ++ (putFixed32 p.smallestKey.length ++
        (putFixed32 p.largestKey.length ++ (p.smallestKey ++ (p.largestKey ++ crc)))))) := by
    simp [propertiesBytes, propertiesBody, hcrc]
  have f1 : getFixed64 (propertiesBytes p) 0 = some p.entryCount := by
    rw [hlay]
    exact getFixed64_zero _ h.count_lt _
  have f2 : getFixed64 (propertiesBytes p) 8 = some p.minSequence := by
    rw [hlay]
    exact getFixed64_append _ (h.min_le_max.trans_lt h.max_lt) _ _ (by simp)
  have f3 : getFixed64 (propertiesBytes p) 16 = some p.maxSequence := by
    rw [hlay, ← List.append_assoc (putFixed64 p.entryCount)]
    exact getFixed64_append _ h.max_lt _ _ (by simp)
  have f4 : getFixed32 (propertiesBytes p) 24 = some p.smallestKey.length := by
    rw [hlay, ← List.append_assoc (putFixed64 p.entryCount), ← List.append_assoc _ (putFixed64 _)]
    exact getFixed32_append _ h.smallest_lt _ _ (by simp)
  have f5 : getFixed32 (propertiesBytes p) 28 = some p.largestKey.length := by
    rw [hlay, ← List.append_assoc (putFixed64 p.entryCount), ← List.append_assoc _ (putFixed64 _),
      ← List.append_assoc _ (putFixed32 _)]
    exact getFixed32_append _ h.largest_lt _ _ (by simp)
  have hkeys : (propertiesBytes p).drop 32 = p.smallestKey ++ (p.largestKey ++ crc) := by
    rw [hlay, ← List.append_assoc (putFixed64 p.entryCount), ← List.append_assoc _ (putFixed64 _),
      ← List.append_assoc _ (putFixed32 _), ← List.append_assoc _ (putFixed32 _)]
    exact List.drop_left' (by simp)
  have hkeys' : (propertiesBytes p).drop (32 + p.smallestKey.length) = p.largestKey ++ crc := by
    rw [← List.drop_drop, hkeys]
    exact List.drop_left' rfl
  have hlen := length_propertiesBytes p
  unfold decodeProperties
  simp only [f1, f2, f3, f4, f5, hsum, htake, hkeys, hkeys', Option.getD_some, List.take_left]
  have h1 := h.count_pos
  have h2 := h.min_pos
  have h3 := h.min_le_max
  rw [if_neg (by omega), if_neg (by simp), if_neg (by omega), if_neg (not_lt.mpr h.keys_le)]

/-! ## Footer -/

/-- The fields of a v2 footer fit their stored widths. -/
structure Footer.Fits (f : Footer) : Prop where
  version_eq : f.version = kSstableVersion
  indexOffset_lt : f.indexOffset < 2 ^ 64
  indexSize_lt : f.indexSize < 2 ^ 64
  propertiesOffset_lt : f.propertiesOffset < 2 ^ 64
  propertiesSize_lt : f.propertiesSize < 2 ^ 64

@[simp] theorem length_encodeFooter (f : Footer) : (encodeFooter f).length = kSstableFooterSize := by
  simp [encodeFooter, footerBody, kSstableFooterSize]

theorem decodeFooter_encodeFooter {f : Footer} (h : f.Fits) :
    decodeFooter (encodeFooter f) = .ok f := by
  have hlay : encodeFooter f = putFixed32 f.version ++ (putFixed64 f.indexOffset ++
      (putFixed64 f.indexSize ++ (putFixed64 f.propertiesOffset ++ (putFixed64 f.propertiesSize ++
        (putFixed64 kSstableMagic ++ (putFixed32 (crc32c (footerBody f)) ++ putFixed32 0)))))) := by
    simp [encodeFooter, footerBody]
  have hversion : f.version < 2 ^ 32 := by
    rw [h.version_eq]
    decide
  have f1 : getFixed32 (encodeFooter f) 0 = some f.version := by
    rw [hlay]
    exact getFixed32_zero _ hversion _
  have f2 : getFixed64 (encodeFooter f) 4 = some f.indexOffset := by
    rw [hlay]
    exact getFixed64_append _ h.indexOffset_lt _ _ (by simp)
  have f3 : getFixed64 (encodeFooter f) 12 = some f.indexSize := by
    rw [hlay, ← List.append_assoc (putFixed32 _)]
    exact getFixed64_append _ h.indexSize_lt _ _ (by simp)
  have f4 : getFixed64 (encodeFooter f) 20 = some f.propertiesOffset := by
    rw [hlay, ← List.append_assoc (putFixed32 _), ← List.append_assoc _ (putFixed64 _)]
    exact getFixed64_append _ h.propertiesOffset_lt _ _ (by simp)
  have f5 : getFixed64 (encodeFooter f) 28 = some f.propertiesSize := by
    rw [hlay, ← List.append_assoc (putFixed32 _), ← List.append_assoc _ (putFixed64 _),
      ← List.append_assoc _ (putFixed64 _)]
    exact getFixed64_append _ h.propertiesSize_lt _ _ (by simp)
  have f6 : getFixed64 (encodeFooter f) 36 = some kSstableMagic := by
    rw [hlay, ← List.append_assoc (putFixed32 _), ← List.append_assoc _ (putFixed64 _),
      ← List.append_assoc _ (putFixed64 _), ← List.append_assoc _ (putFixed64 _)]
    exact getFixed64_append _ (by decide) _ _ (by simp)
  have f7 : getFixed32 (encodeFooter f) 44 = some (crc32c (footerBody f)) := by
    rw [encodeFooter]
    exact getFixed32_append _ (crc32c_lt _) _ _ (by simp [footerBody])
  have f8 : getFixed32 (encodeFooter f) 48 = some 0 := by
    have := getFixed32_append 0 (by decide) (footerBody f ++ putFixed32 (crc32c (footerBody f))) []
      (by simp [footerBody] : 48 = _)
    simpa [encodeFooter] using this
  have htake : (encodeFooter f).take 44 = footerBody f := by
    rw [encodeFooter]
    exact List.take_left' (by simp [footerBody])
  have hlen := length_encodeFooter f
  have hv1 : kSstableFooterSize ≠ kSstableV1FooterSize := by decide
  have hv := h.version_eq
  unfold decodeFooter
  simp [hlen, hv1, f1, f2, f3, f4, f5, f6, f7, f8, htake, hv]
  rw [← hv]

/-- What a footer in the v1 layout must hold to be accepted. -/
theorem decodeFooter_v1_eq_ok {bytes : Bytes} {g : Footer}
    (hlen : bytes.length = kSstableV1FooterSize) (h : decodeFooter bytes = .ok g) :
    (getFixed32 bytes 0).getD 0 = kSstableVersionV1 ∧ g.version = kSstableVersionV1 ∧
      g.indexOffset = (getFixed64 bytes 4).getD 0 ∧ g.indexSize = (getFixed64 bytes 12).getD 0 := by
  unfold decodeFooter at h
  simp only [hlen, decide_true, if_true] at h
  rw [if_neg (by simp)] at h
  split at h
  · cases h
  · rename_i hok
    have hversion : (getFixed32 bytes 0).getD 0 = kSstableVersionV1 := by
      by_contra hne
      exact hok (.inl ⟨trivial, hne⟩)
    obtain rfl := (Except.ok.inj h).symm
    exact ⟨hversion, hversion, rfl, rfl⟩

/-- The fields of a v2 footer at the places where the v1 layout has its own: its version field is
the high half of the index size. -/
theorem encodeFooter_v1_fields {f : Footer} (h : f.Fits) :
    getFixed32 (encodeFooter f) 16 = some (f.indexSize / 2 ^ 32) ∧
      getFixed64 (encodeFooter f) 20 = some f.propertiesOffset ∧
      getFixed64 (encodeFooter f) 28 = some f.propertiesSize := by
  have hhigh : putFixed64 f.indexSize = putFixed32 f.indexSize ++ putFixed32 (f.indexSize / 2 ^ 32) :=
    LittleEndian.encode_add 4 4 f.indexSize
  have hhalf : f.indexSize / 2 ^ 32 < 2 ^ 32 := by
    have := h.indexSize_lt
    omega
  set tail := putFixed64 kSstableMagic ++ (putFixed32 (crc32c (footerBody f)) ++ putFixed32 0)
    with htail
  set front := putFixed32 f.version ++ (putFixed64 f.indexOffset ++ putFixed32 f.indexSize)
    with hfront
  have hlay : encodeFooter f = front ++ (putFixed32 (f.indexSize / 2 ^ 32) ++
      (putFixed64 f.propertiesOffset ++ (putFixed64 f.propertiesSize ++ tail))) := by
    simp [encodeFooter, footerBody, htail, hfront, hhigh]
  refine ⟨?_, ?_, ?_⟩
  · rw [hlay]
    exact getFixed32_append _ hhalf _ _ (by simp [hfront])
  · rw [hlay, ← List.append_assoc front]
    exact getFixed64_append _ h.propertiesOffset_lt _ _ (by simp [hfront])
  · rw [hlay, ← List.append_assoc front, ← List.append_assoc (front ++ _)]
    exact getFixed64_append _ h.propertiesSize_lt _ _ (by simp [hfront])

/-- A v2 footer read with the v1 layout. -/
theorem decodeFooter_v1_tail {f g : Footer} (h : f.Fits)
    (hg : decodeFooter ((encodeFooter f).drop 16) = .ok g) :
    2 ^ 32 ≤ f.indexSize ∧ g.version = kSstableVersionV1 ∧ g.indexOffset = f.propertiesOffset ∧
      g.indexSize = f.propertiesSize := by
  obtain ⟨f1, f2, f3⟩ := encodeFooter_v1_fields h
  obtain ⟨hv, hversion, hoffset, hsize⟩ := decodeFooter_v1_eq_ok
    (by rw [List.length_drop, length_encodeFooter]; rfl) hg
  rw [getFixed32_drop, f1] at hv
  rw [getFixed64_drop, f2] at hoffset
  rw [getFixed64_drop, f3] at hsize
  refine ⟨?_, hversion, hoffset, hsize⟩
  have : f.indexSize / 2 ^ 32 = 1 := hv
  omega

end TinyLsm
