import TinyLsm.Sstable.RoundTrip

/-!
# Version 1 tables

`EncodeDataBlockV1` and `EncodeFooterV1` of `sstable/sstable_builder.cpp`, and the file that the
tests make of them. The builder writes version 2 only, but the reader opens both. A v1 block stores
whole keys, then the offset of every entry, their number and a checksum; a v1 table has no
properties section.
-/

namespace TinyLsm

/-- The bytes of one v1 entry. -/
def encodeV1Entry (e : InternalEntry) : Bytes :=
  putFixed64 e.sequence ++ ([e.type.toByte] ++ (putFixed32 e.userKey.length ++
    (putFixed32 e.value.length ++ (e.userKey ++ e.value))))

/-- The loop of `EncodeDataBlockV1`. `out` and `offsets` are what the loop has written so far. -/
def encodeV1Entries : Bytes → List ℕ → List InternalEntry → Result (Bytes × List ℕ)
  | out, offsets, [] => .ok (out, offsets)
  | out, offsets, e :: rest =>
    if ¬ (fitsU32 out.length ∧ fitsU32 e.userKey.length ∧ fitsU32 e.value.length) then
      .error (.invalidArgument "SSTable entry is too large")
    else encodeV1Entries (out ++ encodeV1Entry e) (offsets ++ [out.length]) rest

/-- The part of a v1 block that its checksum covers. -/
def v1BlockBody (area : Bytes) (offsets : List ℕ) (entryCount : ℕ) : Bytes :=
  area ++ (offsets.flatMap putFixed32 ++ putFixed32 entryCount)

/-- `EncodeDataBlockV1`. -/
def encodeDataBlockV1 (entries : List InternalEntry) : Result Bytes :=
  if entries = [] then
    .error (.invalidArgument "cannot encode empty data block")
  else
    match encodeV1Entries [] [] entries with
    | .error s => .error s
    | .ok (out, offsets) =>
      let body := v1BlockBody out offsets entries.length
      .ok (body ++ putFixed32 (crc32c body))

/-- The part of a v1 footer that its checksum covers. -/
def footerBodyV1 (indexOffset indexSize : ℕ) : Bytes :=
  putFixed32 kSstableVersionV1 ++ (putFixed64 indexOffset ++ (putFixed64 indexSize ++
    putFixed64 kSstableMagic))

/-- `EncodeFooterV1`. -/
def encodeFooterV1 (indexOffset indexSize : ℕ) : Bytes :=
  footerBodyV1 indexOffset indexSize ++
    (putFixed32 (crc32c (footerBodyV1 indexOffset indexSize)) ++ putFixed32 0)

/-- The encoded blocks of a v1 table. -/
def encodeV1Blocks : List (List InternalEntry) → Result (List Bytes)
  | [] => .ok []
  | bs :: bss =>
    match encodeDataBlockV1 bs with
    | .error s => .error s
    | .ok enc =>
      match encodeV1Blocks bss with
      | .error s => .error s
      | .ok encs => .ok (enc :: encs)

/-- A v1 file, as `BuildV1Table` of the tests writes it: the blocks one behind another, their index
and the footer. -/
def buildV1Table (bss : List (List InternalEntry)) : Result Bytes :=
  match encodeV1Blocks bss with
  | .error s => .error s
  | .ok encs =>
    match encodeIndex (blockMetas 0 bss encs) with
    | .error s => .error s
    | .ok index =>
      .ok (encs.flatten ++ (index ++ encodeFooterV1 encs.flatten.length index.length))

/-! ## Blocks -/

/-- The bytes of the entries of a v1 block. -/
def v1Area (es : List InternalEntry) : Bytes := es.flatMap encodeV1Entry

/-- The offsets of the entries, the first of which is stored at `base`. -/
def v1Offsets : ℕ → List InternalEntry → List ℕ
  | _, [] => []
  | base, e :: es => base :: v1Offsets (base + (encodeV1Entry e).length) es

/-- The bytes of the v1 block of `es`. -/
def v1BlockEncoding (es : List InternalEntry) : Bytes :=
  v1BlockBody (v1Area es) (v1Offsets 0 es) es.length ++
    putFixed32 (crc32c (v1BlockBody (v1Area es) (v1Offsets 0 es) es.length))

@[simp] theorem length_encodeV1Entry (e : InternalEntry) :
    (encodeV1Entry e).length = 17 + e.userKey.length + e.value.length := by
  simp only [encodeV1Entry, List.length_append, length_putFixed32, length_putFixed64,
    List.length_singleton]
  omega

@[simp] theorem v1Area_append (as bs : List InternalEntry) :
    v1Area (as ++ bs) = v1Area as ++ v1Area bs := List.flatMap_append

theorem v1Area_cons (e : InternalEntry) (es : List InternalEntry) :
    v1Area (e :: es) = encodeV1Entry e ++ v1Area es := List.flatMap_cons

@[simp] theorem length_v1Offsets (base : ℕ) (es : List InternalEntry) :
    (v1Offsets base es).length = es.length := by
  induction es generalizing base with
  | nil => rfl
  | cons e es ih => simp [v1Offsets, ih]

theorem v1Offsets_append (base : ℕ) (as bs : List InternalEntry) :
    v1Offsets base (as ++ bs) = v1Offsets base as ++ v1Offsets (base + (v1Area as).length) bs := by
  induction as generalizing base with
  | nil => simp [v1Offsets, v1Area]
  | cons e as ih =>
    rw [List.cons_append, v1Offsets, ih, v1Offsets, v1Area_cons, List.length_append, Nat.add_assoc,
      List.cons_append]

theorem length_v1BlockEncoding (es : List InternalEntry) :
    (v1BlockEncoding es).length = (v1Area es).length + 4 * es.length + 8 := by
  simp only [v1BlockEncoding, v1BlockBody, List.length_append, length_putFixed32,
    length_flatMap_putFixed32, length_v1Offsets]
  omega

theorem encodeV1Entries_ok {es : List InternalEntry} (hfit : ∀ e ∈ es, EntryStorable e) :
    ∀ (out : Bytes) (offsets : List ℕ), out.length + (v1Area es).length < 2 ^ 32 →
      encodeV1Entries out offsets es = .ok (out ++ v1Area es, offsets ++ v1Offsets out.length es) := by
  induction es with
  | nil => intro out offsets _; simp [encodeV1Entries, v1Area, v1Offsets]
  | cons e es ih =>
    intro out offsets hsize
    have he := hfit e List.mem_cons_self
    have hkey := he.key_lt
    have hvalue := he.value_lt
    rw [v1Area_cons, List.length_append] at hsize
    rw [encodeV1Entries, if_neg, ih (fun e' he' => hfit e' (List.mem_cons_of_mem _ he'))]
    · rw [v1Area_cons, v1Offsets, List.length_append]
      simp
    · rw [List.length_append]
      omega
    · simp only [fitsU32, decide_eq_true_eq, not_not]
      exact ⟨by omega, hkey, hvalue⟩

/-- `EncodeDataBlockV1` accepts storable entries below 2^32 bytes. -/
theorem encodeDataBlockV1_ok {es : List InternalEntry} (hne : es ≠ [])
    (hfit : ∀ e ∈ es, EntryStorable e) (hsize : (v1BlockEncoding es).length < 2 ^ 32) :
    encodeDataBlockV1 es = .ok (v1BlockEncoding es) := by
  rw [length_v1BlockEncoding] at hsize
  have hloop := encodeV1Entries_ok hfit [] [] (by simp; omega)
  unfold encodeDataBlockV1
  rw [if_neg hne, hloop]
  rfl

/-- The decoding loop at one entry: `bytes` holds `e` at `offset`, and `offset` and the end of the
entry are what the offset list says. -/
theorem decodeV1Entries_succ {e : InternalEntry} (he : EntryStorable e) (pre post : Bytes)
    {bytes : Bytes} {offsetsStart remaining i : ℕ} {out : List InternalEntry}
    (hbytes : bytes = pre ++ (encodeV1Entry e ++ post))
    (hoffset : (getFixed32 bytes (offsetsStart + 4 * i)).getD 0 = pre.length)
    (hnext : (if remaining = 0 then offsetsStart % 2 ^ 32
      else (getFixed32 bytes (offsetsStart + 4 * (i + 1))).getD 0) =
        pre.length + (encodeV1Entry e).length)
    (hend : pre.length + (encodeV1Entry e).length ≤ offsetsStart)
    (hless : ∀ last, out.getLast? = some last → InternalLess last e) :
    decodeV1Entries bytes offsetsStart (remaining + 1) i out =
      decodeV1Entries bytes offsetsStart remaining (i + 1) (out ++ [e]) := by
  have hlay : encodeV1Entry e ++ post = putFixed64 e.sequence ++ ([e.type.toByte] ++
      (putFixed32 e.userKey.length ++ (putFixed32 e.value.length ++ (e.userKey ++
        (e.value ++ post))))) := by
    simp [encodeV1Entry]
  rw [hlay] at hbytes
  have f1 : getFixed64 bytes pre.length = some e.sequence := by
    rw [hbytes]
    exact getFixed64_append _ he.sequence_lt pre _ rfl
  have f2 : bytes.getD (pre.length + 8) 0 = e.type.toByte := by
    rw [hbytes, ← List.append_assoc pre, List.getD_eq_getElem?_getD,
      List.getElem?_append_right (by simp)]
    simp
  have f3 : getFixed32 bytes (pre.length + 9) = some e.userKey.length := by
    rw [hbytes, getFixed32_append_right, ← List.append_assoc (putFixed64 _)]
    exact getFixed32_append _ he.key_lt _ _ (by simp)
  have f4 : getFixed32 bytes (pre.length + 13) = some e.value.length := by
    rw [hbytes, getFixed32_append_right, ← List.append_assoc (putFixed64 _),
      ← List.append_assoc _ (putFixed32 e.userKey.length)]
    exact getFixed32_append _ he.value_lt _ _ (by simp)
  have hkey : bytes.drop (pre.length + 17) = e.userKey ++ (e.value ++ post) := by
    rw [hbytes, List.drop_length_add_append, ← List.append_assoc (putFixed64 _),
      ← List.append_assoc _ (putFixed32 e.userKey.length),
      ← List.append_assoc _ (putFixed32 e.value.length)]
    exact List.drop_left' (by simp)
  have hvalue : bytes.drop (pre.length + 17 + e.userKey.length) = e.value ++ post := by
    rw [← List.drop_drop, hkey]
    exact List.drop_left' rfl
  rw [length_encodeV1Entry] at hnext hend
  rw [decodeV1Entries]
  simp only [hoffset, hnext, f1, f2, f3, f4, hkey, hvalue, Option.getD_some, List.take_left,
    ValueType.ofByte?_toByte]
  rw [if_neg (by omega), if_neg (by omega), if_neg]
  rintro (⟨last, hlast, hnot⟩ | ⟨htype, hne⟩)
  · exact hnot (hless last hlast)
  · exact hne (he.tombstone htype)

/-- The decoding loop over the rest of a block. -/
theorem decodeV1Entries_eq_ok {es : List InternalEntry} (tail : Bytes) (hord : Ordered es)
    (hfit : ∀ e ∈ es, EntryStorable e) (hsize : (v1Area es).length < 2 ^ 32) :
    ∀ (rest done : List InternalEntry), es = done ++ rest →
      decodeV1Entries (v1Area es ++ ((v1Offsets 0 es).flatMap putFixed32 ++ tail))
        (v1Area es).length rest.length done.length done = .ok es := by
  intro rest
  induction rest with
  | nil => intro done h; simp [decodeV1Entries, h]
  | cons e rest ih =>
    intro done h
    set bytes := v1Area es ++ ((v1Offsets 0 es).flatMap putFixed32 ++ tail) with hbytes
    -- the offset list holds the length of what is stored before an entry
    have hread : ∀ (as : List InternalEntry) (b : InternalEntry) (bs : List InternalEntry),
        es = as ++ b :: bs →
        getFixed32 bytes ((v1Area es).length + 4 * as.length) = some (v1Area as).length := by
      intro as b bs hes
      have hlt : (v1Area as).length < 2 ^ 32 := by
        rw [hes, v1Area_append, List.length_append] at hsize
        omega
      rw [hbytes, getFixed32_append_right, hes, v1Offsets_append, v1Offsets, List.flatMap_append,
        List.flatMap_cons, List.append_assoc, List.append_assoc, Nat.zero_add]
      exact getFixed32_append _ hlt _ _ (by rw [length_flatMap_putFixed32, length_v1Offsets])
    have hsplit : v1Area es = v1Area done ++ (encodeV1Entry e ++ v1Area rest) := by
      rw [h, v1Area_append, v1Area_cons]
    have hrest := ih (done ++ [e]) (by simp [h])
    rw [List.length_append, List.length_singleton] at hrest
    rw [List.length_cons, decodeV1Entries_succ (hfit e (by simp [h])) (v1Area done)
      (v1Area rest ++ ((v1Offsets 0 es).flatMap putFixed32 ++ tail)), hrest]
    · rw [hbytes]
      nth_rewrite 1 [hsplit]
      simp
    · rw [hread done e rest h, Option.getD_some]
    · cases rest with
      | nil =>
        rw [List.length_nil, if_pos rfl, Nat.mod_eq_of_lt hsize, hsplit]
        simp [v1Area]
      | cons b bs =>
        have := hread (done ++ [e]) b bs (by simp [h])
        rw [List.length_append, List.length_singleton] at this
        rw [List.length_cons, if_neg (by omega), this, Option.getD_some, v1Area_append,
          List.length_append]
        simp [v1Area]
    · rw [hsplit, List.length_append, List.length_append]
      omega
    · exact (h ▸ hord : Ordered (done ++ e :: rest)).getLast_less

/-- `DecodeDataBlockV1` reads an encoded block back. -/
theorem decodeDataBlockV1_encoding {es : List InternalEntry} (hord : Ordered es)
    (hfit : ∀ e ∈ es, EntryStorable e) (hsize : (v1BlockEncoding es).length < 2 ^ 32) :
    decodeDataBlockV1 (v1BlockEncoding es) = .ok es := by
  obtain ⟨hsum, htake⟩ := getFixed32_checksum (v1BlockBody (v1Area es) (v1Offsets 0 es) es.length)
  change getFixed32 (v1BlockEncoding es) ((v1BlockEncoding es).length - 4) = _ at hsum
  change (v1BlockEncoding es).take ((v1BlockEncoding es).length - 4) = _ at htake
  have hlen := length_v1BlockEncoding es
  set crc := putFixed32 (crc32c (v1BlockBody (v1Area es) (v1Offsets 0 es) es.length)) with hcrc
  have hlay : v1BlockEncoding es = v1Area es ++ ((v1Offsets 0 es).flatMap putFixed32 ++
      (putFixed32 es.length ++ crc)) := by
    simp [v1BlockEncoding, v1BlockBody, hcrc]
  have hcount : getFixed32 (v1BlockEncoding es) ((v1BlockEncoding es).length - 8) =
      some es.length := by
    rw [hlen, hlay, ← List.append_assoc (v1Area es)]
    refine getFixed32_append _ (by omega) _ _ ?_
    simp only [List.length_append, length_flatMap_putFixed32, length_v1Offsets]
    omega
  have hloop := decodeV1Entries_eq_ok (putFixed32 es.length ++ crc) hord hfit (by omega) es [] rfl
  rw [← hlay, List.length_nil] at hloop
  have hstart : (v1BlockEncoding es).length - (8 + 4 * es.length) = (v1Area es).length := by omega
  unfold decodeDataBlockV1
  simp only [hsum, htake, hcount, Option.getD_some, hstart, hloop]
  rw [if_neg (by omega), if_neg (by simp), if_neg (by omega)]

/-! ## Files -/

@[simp] theorem length_encodeFooterV1 (indexOffset indexSize : ℕ) :
    (encodeFooterV1 indexOffset indexSize).length = kSstableV1FooterSize := by
  simp [encodeFooterV1, footerBodyV1, kSstableV1FooterSize]

theorem decodeFooter_encodeFooterV1 {indexOffset indexSize : ℕ} (hoffset : indexOffset < 2 ^ 64)
    (hsize : indexSize < 2 ^ 64) : decodeFooter (encodeFooterV1 indexOffset indexSize) =
      .ok ⟨kSstableVersionV1, indexOffset, indexSize, 0, 0⟩ := by
  set body := footerBodyV1 indexOffset indexSize with hbody
  have hlay : encodeFooterV1 indexOffset indexSize = putFixed32 kSstableVersionV1 ++
      (putFixed64 indexOffset ++ (putFixed64 indexSize ++ (putFixed64 kSstableMagic ++
        (putFixed32 (crc32c body) ++ putFixed32 0)))) := by
    simp [encodeFooterV1, footerBodyV1, hbody]
  have f1 : getFixed32 (encodeFooterV1 indexOffset indexSize) 0 = some kSstableVersionV1 := by
    rw [hlay]
    exact getFixed32_zero _ (by decide) _
  have f2 : getFixed64 (encodeFooterV1 indexOffset indexSize) 4 = some indexOffset := by
    rw [hlay]
    exact getFixed64_append _ hoffset _ _ (by simp)
  have f3 : getFixed64 (encodeFooterV1 indexOffset indexSize) 12 = some indexSize := by
    rw [hlay, ← List.append_assoc (putFixed32 _)]
    exact getFixed64_append _ hsize _ _ (by simp)
  have f4 : getFixed64 (encodeFooterV1 indexOffset indexSize) 20 = some kSstableMagic := by
    rw [hlay, ← List.append_assoc (putFixed32 _), ← List.append_assoc _ (putFixed64 _)]
    exact getFixed64_append _ (by decide) _ _ (by simp)
  have f5 : getFixed32 (encodeFooterV1 indexOffset indexSize) 28 = some (crc32c body) := by
    rw [encodeFooterV1]
    exact getFixed32_append _ (crc32c_lt _) _ _ (by simp [footerBodyV1])
  have f6 : getFixed32 (encodeFooterV1 indexOffset indexSize) 32 = some 0 := by
    have := getFixed32_append 0 (by decide) (body ++ putFixed32 (crc32c body)) []
      (by simp [footerBodyV1, hbody] : 32 = _)
    simpa [encodeFooterV1] using this
  have htake : (encodeFooterV1 indexOffset indexSize).take 28 = body := by
    rw [encodeFooterV1]
    exact List.take_left' (by simp [footerBodyV1])
  have hlen := length_encodeFooterV1 indexOffset indexSize
  unfold decodeFooter
  simp [hlen, f1, f2, f3, f4, f5, f6, htake]

/-- Blocks of storable entries, cut between different keys, with every block and the index below
2^32 bytes. -/
structure V1TableFits (bss : List (List InternalEntry)) : Prop where
  ne_nil : bss ≠ []
  blocks : OrderedBlocks bss
  storable : ∀ e ∈ bss.flatten, EntryStorable e
  block_lt : ∀ bs ∈ bss, (v1BlockEncoding bs).length < 2 ^ 32
  index_lt : (indexBytes (blockMetas 0 bss (bss.map v1BlockEncoding))).length < 2 ^ 32

/-- What `SSTableReader::Open` returns on a v1 file. -/
def v1Reader (bss : List (List InternalEntry)) (file : Bytes) (tableNumber : ℕ) : SSTableReader :=
  ⟨file, file.length, kSstableVersionV1, blockMetas 0 bss (bss.map v1BlockEncoding), none,
    tableNumber⟩

namespace V1TableFits

/-- The data section. -/
def data (bss : List (List InternalEntry)) : Bytes := (bss.map v1BlockEncoding).flatten

/-- The index section. -/
def index (bss : List (List InternalEntry)) : Bytes :=
  indexBytes (blockMetas 0 bss (bss.map v1BlockEncoding))

/-- The file. -/
def file (bss : List (List InternalEntry)) : Bytes :=
  data bss ++ (index bss ++ encodeFooterV1 (data bss).length (index bss).length)

/-- The index entries point at the blocks. -/
theorem metas_forall₂ (bss : List (List InternalEntry)) : List.Forall₂ (fun m bs =>
      readExactly (file bss) m.offset m.size = .ok (v1BlockEncoding bs) ∧
        m.firstKey = groupKey bs ∧ m.lastKey = lastKeyOf [] bs ∧
        m.offset + m.size ≤ (data bss).length)
      (blockMetas 0 bss (bss.map v1BlockEncoding)) bss := by
  have hencoded : List.Forall₂ (fun bs enc => enc = v1BlockEncoding bs) bss
      (bss.map v1BlockEncoding) := by
    rw [List.forall₂_map_right_iff]
    exact List.forall₂_same.mpr fun _ _ => rfl
  have hmetas := TableFile.blockMetas_forall₂ hencoded (file bss) _ [] rfl
  simp only [List.length_nil, Nat.zero_add] at hmetas
  refine hmetas.imp fun m bs hm => ?_
  obtain ⟨_, rfl, hread, hfirst, hlast, hle⟩ := hm
  exact ⟨hread, hfirst, hlast, hle⟩

variable {bss : List (List InternalEntry)} (h : V1TableFits bss)
include h

theorem data_lt : (data bss).length < 2 ^ 60 := by
  refine length_flatten_lt (by simp) (fun enc henc => ?_) h.index_lt
  obtain ⟨bs, hbs, rfl⟩ := List.mem_map.mp henc
  exact h.block_lt bs hbs

theorem storable_of_mem {bs : List InternalEntry} (hbs : bs ∈ bss) : ∀ e ∈ bs, EntryStorable e :=
  fun e he => h.storable e (List.mem_flatten_of_mem hbs he)

theorem decode_of_mem {bs : List InternalEntry} (hbs : bs ∈ bss) :
    decodeDataBlock (v1BlockEncoding bs) kSstableVersionV1 = .ok bs := by
  rw [decodeDataBlock, if_pos rfl]
  exact decodeDataBlockV1_encoding (h.blocks.ordered bs hbs) (h.storable_of_mem hbs)
    (h.block_lt bs hbs)

theorem encodeV1Blocks_ok : encodeV1Blocks bss = .ok (bss.map v1BlockEncoding) := by
  have hblock : ∀ bs ∈ bss, encodeDataBlockV1 bs = .ok (v1BlockEncoding bs) := fun bs hbs =>
    encodeDataBlockV1_ok (h.blocks.nonempty bs hbs) (h.storable_of_mem hbs) (h.block_lt bs hbs)
  clear h
  induction bss with
  | nil => rfl
  | cons bs bss ih =>
    rw [encodeV1Blocks, hblock bs List.mem_cons_self]
    simp only [ih fun bs' hbs' => hblock bs' (List.mem_cons_of_mem _ hbs'), List.map_cons]

theorem metas_fit : ∀ m ∈ blockMetas 0 bss (bss.map v1BlockEncoding), m.Fits := by
  intro m hm
  obtain ⟨bs, hbs, -, hfirst, hlast, hle⟩ := TableFile.forall₂_exists (metas_forall₂ bss) hm
  have hdata := h.data_lt
  have hne := h.blocks.nonempty bs hbs
  obtain ⟨l, hl, hlkey⟩ := lastKeyOf_mem [] hne
  have hord := h.blocks.ordered bs hbs
  have hfirst_lt : (groupKey bs).length < 2 ^ 32 := by
    cases bs with
    | nil => exact absurd rfl hne
    | cons e rest => exact (h.storable_of_mem hbs e List.mem_cons_self).key_lt
  refine ⟨hfirst ▸ hfirst_lt, ?_, by omega, by omega, ?_⟩
  · rw [hlast, ← hlkey]
    exact (h.storable_of_mem hbs l hl).key_lt
  · rw [hfirst, hlast, ← hlkey]
    exact groupKey_le_of_mem hord hl

/-- The encoders accept the blocks. -/
theorem buildV1Table_ok : buildV1Table bss = .ok (file bss) := by
  have hindex : encodeIndex (blockMetas 0 bss (bss.map v1BlockEncoding)) = .ok (index bss) := by
    rw [encodeIndex, if_neg]
    · rw [index, indexBytes]
    · rintro ⟨b, hb, hbad⟩
      have hfits := h.metas_fit b hb
      simp only [fitsU32, decide_eq_true_eq] at hbad
      exact hbad ⟨hfits.first_lt, hfits.last_lt⟩
  simp only [buildV1Table, h.encodeV1Blocks_ok, hindex]
  rfl

/-- The v1 layout is tried first, and accepted. -/
theorem readFooter_eq : SSTableReader.readFooter (file bss) =
    .ok ⟨kSstableVersionV1, (data bss).length, (index bss).length, 0, 0⟩ := by
  have hlen : (file bss).length = (data bss).length + (index bss).length + 36 := by
    simp only [file, List.length_append, length_encodeFooterV1, kSstableV1FooterSize]
    omega
  have hread : readExactly (file bss) ((file bss).length - kSstableV1FooterSize)
      kSstableV1FooterSize = .ok (encodeFooterV1 (data bss).length (index bss).length) := by
    have := TableFile.readExactly_middle (data bss ++ index bss)
      (encodeFooterV1 (data bss).length (index bss).length) []
      (by rw [hlen, kSstableV1FooterSize, List.length_append]; omega :
        (file bss).length - kSstableV1FooterSize = _) (length_encodeFooterV1 _ _).symm
    rwa [List.append_nil, List.append_assoc] at this
  have hdata := h.data_lt
  have hindex := h.index_lt
  have hfooter := decodeFooter_encodeFooterV1 (by omega : (data bss).length < 2 ^ 64)
    (by rw [index]; omega : (index bss).length < 2 ^ 64)
  have hbig : ¬ (file bss).length < kSstableV1FooterSize := by
    rw [hlen, kSstableV1FooterSize]
    omega
  simp only [SSTableReader.readFooter, hbig, if_false, hread, hfooter]

/-- `SSTableReader::Open` accepts the file. -/
theorem open_eq (tableNumber : ℕ) :
    SSTableReader.open (file bss) tableNumber = .ok (v1Reader bss (file bss) tableNumber) := by
  have hlen : (file bss).length = (data bss).length + (index bss).length + 36 := by
    simp only [file, List.length_append, length_encodeFooterV1, kSstableV1FooterSize]
    omega
  have hsections : SSTableReader.checkSections (file bss)
      ⟨kSstableVersionV1, (data bss).length, (index bss).length, 0, 0⟩ = .ok () := by
    simp only [SSTableReader.checkSections, if_true, hlen, kSstableV1FooterSize]
    rw [if_neg (by omega), if_neg (by omega)]
  have hread : readExactly (file bss) (data bss).length (index bss).length = .ok (index bss) :=
    TableFile.readExactly_middle _ _ _ rfl rfl
  have hindex_lt := h.index_lt
  have hcount : (blockMetas 0 bss (bss.map v1BlockEncoding)).length < 2 ^ 32 := by
    have := length_le_flatMap_encodeBlockMeta (blockMetas 0 bss (bss.map v1BlockEncoding))
    simp only [indexBytes, List.length_append, length_putFixed32] at hindex_lt
    omega
  have hseparated := TableFile.metas_separated
    ((metas_forall₂ bss).imp fun m bs hm => ⟨hm.2.1, hm.2.2.1⟩) h.blocks
  have hindex := (decodeIndex_indexBytes (by omega) h.metas_fit hseparated).1 hcount
  have hranges : ¬ ∃ m ∈ blockMetas 0 bss (bss.map v1BlockEncoding),
      (data bss).length < m.offset ∨ (data bss).length - m.offset < m.size := by
    rintro ⟨m, hm, hbad⟩
    obtain ⟨bs, -, -, -, -, hle⟩ := TableFile.forall₂_exists (metas_forall₂ bss) hm
    omega
  have hproperties : SSTableReader.readProperties (file bss)
      ⟨kSstableVersionV1, (data bss).length, (index bss).length, 0, 0⟩ = .ok none := by
    exact if_neg (by decide : kSstableVersionV1 ≠ kSstableVersion)
  unfold SSTableReader.open
  simp only [h.readFooter_eq, hsections, hread, hproperties]
  rw [index, hindex]
  simp only [hranges, if_false, v1Reader]

theorem valid (tableNumber : ℕ) : (v1Reader bss (file bss) tableNumber).Valid bss := by
  refine ⟨?_, h.blocks⟩
  refine forall₂_imp_mem (metas_forall₂ bss) fun m bs hbs hm => ?_
  obtain ⟨hread, hfirst, hlast, -⟩ := hm
  refine ⟨TableFile.readBlock_of_decode hread (h.decode_of_mem hbs) (h.blocks.nonempty bs hbs)
    hfirst hlast fun e he => ?_, hfirst, hlast⟩
  have hfits := h.storable_of_mem hbs e he
  exact ⟨hfits.sequence_pos, hfits.sequence_lt⟩

theorem validate (tableNumber : ℕ) :
    (v1Reader bss (file bss) tableNumber).validateAndGetProperties =
      .ok ⟨(file bss).length, bss.flatten.length, groupKey bss.flatten, lastKeyOf [] bss.flatten,
        minSequenceOf bss.flatten, maxSequenceOf bss.flatten⟩ := by
  have hvalid := h.valid tableNumber
  refine hvalid.validate (fun hnil => ?_) fun q hq => by cases hq
  have hblocks := hvalid.blocks
  rw [hnil, List.forall₂_nil_left_iff] at hblocks
  exact h.ne_nil hblocks

end V1TableFits

end TinyLsm
