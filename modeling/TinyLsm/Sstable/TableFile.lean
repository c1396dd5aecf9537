import TinyLsm.Sstable.TableCodec
import Mathlib.Data.List.Forall2

/-!
# Tables and their readers

`TableFile` says that a file holds given blocks in the sections `SSTableBuilder::Finish` writes, and
`SSTableReader.Valid` that a reader returns given blocks. A reader opened on a table file is valid
for the blocks of the file. On a valid reader the lookup that decodes whole blocks returns the
newest visible version; the lookup that searches the restart keys does so exactly when the versions
of the key do not straddle a restart point.
-/

namespace TinyLsm

/-! ## Lookup results -/

/-- `result` is the answer of a point lookup in `entries`: the version of `key` with the greatest
sequence at most `sequence`, or `NotFound` when there is none. -/
def IsLookup (entries : List InternalEntry) (key : Bytes) (sequence : ℕ)
    (result : Result InternalEntry) : Prop :=
  (∃ e, result = .ok e ∧ IsNewest entries key sequence e) ∨
    (∃ m, result = .error (.notFound m)) ∧ ∀ e ∈ entries, e.userKey = key → sequence < e.sequence

theorem isLookup_iff {entries : List InternalEntry} (hord : Ordered entries) {key : Bytes}
    {sequence : ℕ} {result : Result InternalEntry} :
    IsLookup entries key sequence result ↔
      (∃ e, result = .ok e ∧ findVersion entries key sequence = some e) ∨
        (∃ m, result = .error (.notFound m)) ∧ findVersion entries key sequence = none := by
  simp only [IsLookup, hord.findVersion_eq_some_iff, findVersion_eq_none_iff]

theorem isLookup_versionResult {entries : List InternalEntry} (hord : Ordered entries)
    {key : Bytes} {sequence : ℕ} {found : Option InternalEntry} :
    IsLookup entries key sequence (versionResult found) ↔
      found = findVersion entries key sequence := by
  rw [isLookup_iff hord]
  cases found with
  | none => simp [versionResult, eq_comm]
  | some e => simp [versionResult, eq_comm]

/-- Only the versions of the key matter. -/
theorem IsLookup.congr_key {entries entries' : List InternalEntry} {key : Bytes} {sequence : ℕ}
    {result : Result InternalEntry} (h : ∀ e, e.userKey = key → (e ∈ entries ↔ e ∈ entries'))
    (hlookup : IsLookup entries key sequence result) : IsLookup entries' key sequence result := by
  rcases hlookup with ⟨e, rfl, he⟩ | ⟨hresult, hnone⟩
  · refine .inl ⟨e, rfl, (h e he.key_eq).mp he.mem, he.key_eq, he.sequence_le, ?_⟩
    exact fun e' he' hkey => he.newest e' ((h e' hkey).mpr he') hkey
  · exact .inr ⟨hresult, fun e he hkey => hnone e ((h e hkey).mpr he) hkey⟩

/-! ## Valid readers -/

/-- The blocks of a table follow one another in key order and none is empty. -/
structure OrderedBlocks (bss : List (List InternalEntry)) : Prop where
  nonempty : ∀ bs ∈ bss, bs ≠ []
  ordered : ∀ bs ∈ bss, Ordered bs
  separated : bss.Pairwise fun as bs => ∀ a ∈ as, ∀ b ∈ bs, a.userKey < b.userKey

theorem OrderedBlocks.flatten {bss : List (List InternalEntry)} (h : OrderedBlocks bss) :
    Ordered bss.flatten :=
  List.pairwise_flatten.mpr ⟨h.ordered, h.separated.imp fun hlt a ha b hb => .inl (hlt a ha b hb)⟩

/-- The reader returns the blocks `bss`, and its index has their key ranges. -/
structure SSTableReader.Valid (r : SSTableReader) (bss : List (List InternalEntry)) : Prop where
  blocks : List.Forall₂ (fun m bs => r.readBlock m = .ok bs ∧ m.firstKey = groupKey bs ∧
    m.lastKey = lastKeyOf [] bs) r.blocks bss
  ordered : OrderedBlocks bss

theorem groupKey_le_of_mem {bs : List InternalEntry} (hord : Ordered bs) {e : InternalEntry}
    (he : e ∈ bs) : groupKey bs ≤ e.userKey := by
  cases bs with
  | nil => cases he
  | cons a rest =>
    rcases List.mem_cons.mp he with rfl | he
    · exact le_rfl
    · exact ((List.pairwise_cons.mp hord).1 e he).key_le

theorem le_lastKeyOf_of_mem (previous : Bytes) {bs : List InternalEntry} (hord : Ordered bs)
    {e : InternalEntry} (he : e ∈ bs) : e.userKey ≤ lastKeyOf previous bs := by
  induction bs generalizing previous e with
  | nil => cases he
  | cons a rest ih =>
    obtain ⟨hless, hrest⟩ := List.pairwise_cons.mp hord
    rcases List.mem_cons.mp he with rfl | he
    · cases rest with
      | nil => exact le_rfl
      | cons b rest =>
        exact (hless b List.mem_cons_self).key_le.trans
          (ih [] hrest List.mem_cons_self)
    · exact ih _ hrest he

theorem lastKeyOf_mem (previous : Bytes) {bs : List InternalEntry} (hne : bs ≠ []) :
    ∃ e ∈ bs, e.userKey = lastKeyOf previous bs := by
  induction bs generalizing previous with
  | nil => exact absurd rfl hne
  | cons a rest ih =>
    cases rest with
    | nil => exact ⟨a, List.mem_cons_self, rfl⟩
    | cons b rest =>
      obtain ⟨e, he, hkey⟩ := ih a.userKey (by simp)
      exact ⟨e, List.mem_cons_of_mem _ he, hkey⟩

theorem TableFile.forall₂_exists {α β : Type*} {R : α → β → Prop} {as : List α} {bs : List β}
    (h : List.Forall₂ R as bs) {a : α} (ha : a ∈ as) : ∃ b ∈ bs, R a b := by
  induction h with
  | nil => cases ha
  | @cons x y xs ys hxy _ ih =>
    rcases List.mem_cons.mp ha with rfl | ha
    · exact ⟨y, List.mem_cons_self, hxy⟩
    · obtain ⟨b, hb, hR⟩ := ih ha
      exact ⟨b, List.mem_cons_of_mem _ hb, hR⟩

/-- Skipping the index entries that satisfy `p` skips the blocks behind them. -/
theorem forall₂_dropWhile {α β : Type*} {R : α → β → Prop} {p : α → Bool} {as : List α}
    {bs : List β} (h : List.Forall₂ R as bs) :
    (as.dropWhile p = [] ∧ ∀ b ∈ bs, ∃ a, p a = true ∧ R a b) ∨
      ∃ a as' bs₁ b bs₂, as.dropWhile p = a :: as' ∧ p a = false ∧ bs = bs₁ ++ b :: bs₂ ∧ R a b ∧
        (∀ b' ∈ bs₁, ∃ a', p a' = true ∧ R a' b') ∧
        ∀ a' ∈ as, a' = a ∨ ∃ b' ∈ bs₁ ++ bs₂, R a' b' := by
  induction h with
  | nil => exact .inl ⟨rfl, by simp⟩
  | @cons a b as bs hab hrest ih =>
    by_cases hp : p a = true
    · rw [List.dropWhile_cons_of_pos hp]
      rcases ih with ⟨hnil, hall⟩ | ⟨a', as', bs₁, b', bs₂, hdrop, hpa, rfl, hR, hall, hothers⟩
      · exact .inl ⟨hnil, List.forall_mem_cons.mpr ⟨⟨a, hp, hab⟩, hall⟩⟩
      · refine .inr ⟨a', as', b :: bs₁, b', bs₂, hdrop, hpa, rfl, hR,
          List.forall_mem_cons.mpr ⟨⟨a, hp, hab⟩, hall⟩,
          List.forall_mem_cons.mpr ⟨.inr ⟨b, List.mem_cons_self, hab⟩, fun x hx => ?_⟩⟩
        exact (hothers x hx).imp id fun ⟨y, hy, hxy⟩ => ⟨y, List.mem_cons_of_mem _ hy, hxy⟩
    · rw [List.dropWhile_cons_of_neg hp]
      exact .inr ⟨a, as, [], b, bs, rfl, by simpa using hp, rfl, hab, by simp,
        List.forall_mem_cons.mpr ⟨.inl rfl, fun x hx => .inr (TableFile.forall₂_exists hrest hx)⟩⟩

/-- The version loop, from a key on that is not smaller. -/
theorem scanVersions_cases {key : Bytes} {es : List InternalEntry} (hord : Ordered es)
    (sequence : ℕ) (hge : ∀ e ∈ es, key ≤ e.userKey) :
    (∃ e, SSTableReader.scanVersions key sequence es = .ok e ∧
        findVersion es key sequence = some e) ∨
      (∃ m, SSTableReader.scanVersions key sequence es = .error (.notFound m)) ∧
        findVersion es key sequence = none := by
  induction es with
  | nil => exact .inr ⟨⟨_, rfl⟩, rfl⟩
  | cons e es ih =>
    obtain ⟨hless, hes⟩ := List.pairwise_cons.mp hord
    rw [findVersion_cons, SSTableReader.scanVersions]
    by_cases hkey : e.userKey = key
    · rw [if_pos hkey]
      by_cases hs : e.sequence ≤ sequence
      · rw [if_pos hs, if_pos (by simp [hkey, hs])]
        exact .inl ⟨e, rfl, rfl⟩
      · rw [if_neg hs, if_neg (by simp [hs])]
        exact ih hes fun e' he' => hge e' (List.mem_cons_of_mem _ he')
    · rw [if_neg hkey, if_neg (by simp [hkey])]
      have hgt : key < e.userKey := lt_of_le_of_ne (hge e List.mem_cons_self) (Ne.symm hkey)
      exact .inr ⟨⟨_, rfl⟩, findVersion_eq_none_of_ne fun e' he' =>
        (hgt.trans_le (hless e' he').key_le).ne'⟩

/-- The scan behind `lower_bound` in a decoded block. -/
theorem isLookup_searchDecoded {bs : List InternalEntry} (hord : Ordered bs) (key : Bytes)
    (sequence : ℕ) : IsLookup bs key sequence (SSTableReader.searchDecoded key sequence bs) := by
  rw [isLookup_iff hord, SSTableReader.searchDecoded]
  induction bs with
  | nil => exact .inr ⟨⟨_, rfl⟩, rfl⟩
  | cons a rest ih =>
    obtain ⟨hless, hrest⟩ := List.pairwise_cons.mp hord
    rw [findVersion_cons]
    by_cases hlt : a.userKey < key
    · rw [List.dropWhile_cons_of_pos (by simpa using hlt), if_neg (by simp [hlt.ne])]
      exact ih hrest
    · rw [List.dropWhile_cons_of_neg (by simpa using hlt)]
      by_cases heq : a.userKey = key
      · simp only [heq, ne_eq, not_true_eq_false, if_false]
        -- from here on the loop walks the versions of the key
        have hscan := scanVersions_cases hord sequence (List.forall_mem_cons.mpr
          ⟨heq.ge, fun e he => heq ▸ (hless e he).key_le⟩)
        rwa [findVersion_cons] at hscan
      · simp only [ne_eq, heq, not_false_eq_true, if_true]
        have hgt : key < a.userKey := lt_of_le_of_ne (not_lt.mp hlt) (Ne.symm heq)
        rw [if_neg (by simp [heq])]
        exact .inr ⟨⟨_, rfl⟩, findVersion_eq_none_of_ne fun e he =>
          (hgt.trans_le (hless e he).key_le).ne'⟩

/-- `SSTableReader::Get` on a valid reader answers from one block, the only one that can hold the
key, or finds that the key is in no block. -/
theorem SSTableReader.Valid.get_cases {r : SSTableReader} {bss : List (List InternalEntry)}
    (h : r.Valid bss) (key : Bytes) :
    ((∀ e ∈ bss.flatten, e.userKey ≠ key) ∧
      ∀ cached sequence, r.get cached key sequence = .error (.notFound "key is absent")) ∨
    ∃ m bss₁ bs bss₂, m ∈ r.blocks ∧ bss = bss₁ ++ bs :: bss₂ ∧ r.readBlock m = .ok bs ∧
      (∀ e ∈ bss₁.flatten, e.userKey < key) ∧ (∀ e ∈ bss₂.flatten, key < e.userKey) ∧
      (∀ m' ∈ r.blocks, m' = m ∨ ∃ bs' ∈ bss₁ ++ bss₂, r.readBlock m' = .ok bs') ∧
      ∀ cached sequence, r.get cached key sequence =
        if r.version = kSstableVersion ∧ cached = false then r.findInV2Block m key sequence
        else searchDecoded key sequence bs := by
  have hbelow : ∀ bs ∈ bss, (∃ m : BlockMeta, decide (m.lastKey < key) = true ∧
      r.readBlock m = .ok bs ∧ m.firstKey = groupKey bs ∧ m.lastKey = lastKeyOf [] bs) →
      ∀ e ∈ bs, e.userKey < key := by
    rintro bs hbs ⟨m, hm, -, -, hlast⟩ e he
    have hle := le_lastKeyOf_of_mem [] (h.ordered.ordered bs hbs) he
    rw [← hlast] at hle
    exact hle.trans_lt (by simpa using hm)
  rcases forall₂_dropWhile (p := fun m : BlockMeta => decide (m.lastKey < key)) h.blocks with
    ⟨hnil, hall⟩ | ⟨m, ms, bss₁, bs, bss₂, hdrop, hm, hsplit, ⟨hread, hfirst, hlast⟩, hall, hothers⟩
  · left
    refine ⟨fun e he => ?_, fun cached sequence => ?_⟩
    · obtain ⟨bs, hbs, he⟩ := List.mem_flatten.mp he
      exact (hbelow bs hbs (hall bs hbs) e he).ne
    · rw [get, hnil]
  · have hmem : ∀ b ∈ bss₁, b ∈ bss := fun b hb => by rw [hsplit]; exact List.mem_append_left _ hb
    have hbs : bs ∈ bss := by rw [hsplit]; simp
    have hne := h.ordered.nonempty bs hbs
    have hkeyle : key ≤ lastKeyOf [] bs := by
      rw [← hlast]
      simpa using hm
    have h₁ : ∀ e ∈ bss₁.flatten, e.userKey < key := by
      intro e he
      obtain ⟨b, hb, he⟩ := List.mem_flatten.mp he
      exact hbelow b (hmem b hb) (hall b hb) e he
    have h₂ : ∀ e ∈ bss₂.flatten, key < e.userKey := by
      intro e he
      obtain ⟨b, hb, he⟩ := List.mem_flatten.mp he
      obtain ⟨l, hl, hlkey⟩ := lastKeyOf_mem [] hne
      have hsep := h.ordered.separated
      rw [hsplit] at hsep
      have hlt := (List.pairwise_cons.mp (List.pairwise_append.mp hsep).2.1).1 b hb l hl e he
      rw [hlkey] at hlt
      exact hkeyle.trans_lt hlt
    have hmr : m ∈ r.blocks := by
      have : m ∈ r.blocks.dropWhile fun m : BlockMeta => decide (m.lastKey < key) := by
        rw [hdrop]
        exact List.mem_cons_self
      exact List.dropWhile_subset _ this
    by_cases hlow : key < m.firstKey
    · left
      refine ⟨fun e he => ?_, fun cached sequence => ?_⟩
      · rw [hsplit, List.flatten_append, List.flatten_cons, List.mem_append, List.mem_append] at he
        rcases he with he | he | he
        · exact (h₁ e he).ne
        · have := groupKey_le_of_mem (h.ordered.ordered bs hbs) he
          exact (hlow.trans_le (hfirst ▸ this)).ne'
        · exact (h₂ e he).ne'
      · simp only [get, hdrop, if_pos hlow]
    · right
      refine ⟨m, bss₁, bs, bss₂, hmr, hsplit, hread, h₁, h₂, fun m' hm' => ?_,
        fun cached sequence => ?_⟩
      · exact (hothers m' hm').imp id fun ⟨bs', hbs', hread', _⟩ => ⟨bs', hbs', hread'⟩
      simp only [get, hdrop, if_neg hlow, hread]

theorem findVersion_middle {before bs behind : List InternalEntry} {key : Bytes} {sequence : ℕ}
    (h₁ : ∀ e ∈ before, e.userKey ≠ key) (h₂ : ∀ e ∈ behind, e.userKey ≠ key) :
    findVersion (before ++ (bs ++ behind)) key sequence = findVersion bs key sequence := by
  rw [findVersion_append, findVersion_append, findVersion_eq_none_of_ne h₁,
    findVersion_eq_none_of_ne h₂, Option.none_or, Option.or_none]

theorem searchDecoded_of_ne {es : List InternalEntry} {key : Bytes}
    (h : ∀ e ∈ es, e.userKey ≠ key) (sequence : ℕ) :
    SSTableReader.searchDecoded key sequence es = .error (.notFound "key is absent") := by
  unfold SSTableReader.searchDecoded
  split
  · rfl
  · rename_i e rest hdrop
    have he : e ∈ es := List.dropWhile_subset _ (by rw [hdrop]; exact List.mem_cons_self)
    rw [if_pos (h e he)]

theorem scanVersions_append {es behind : List InternalEntry} {key : Bytes}
    (h : ∀ e ∈ behind, e.userKey ≠ key) (sequence : ℕ) :
    SSTableReader.scanVersions key sequence (es ++ behind) =
      SSTableReader.scanVersions key sequence es := by
  induction es with
  | nil =>
    cases behind with
    | nil => rfl
    | cons e rest => simp [SSTableReader.scanVersions, h e List.mem_cons_self]
  | cons e es ih => simp only [List.cons_append, SSTableReader.scanVersions, ih]

/-- Blocks of smaller and of greater keys do not change a search. -/
theorem searchDecoded_middle {before bs behind : List InternalEntry} {key : Bytes}
    (h₁ : ∀ e ∈ before, e.userKey < key) (h₂ : ∀ e ∈ behind, key < e.userKey) (sequence : ℕ) :
    SSTableReader.searchDecoded key sequence (before ++ (bs ++ behind)) =
      SSTableReader.searchDecoded key sequence bs := by
  unfold SSTableReader.searchDecoded
  rw [List.dropWhile_append_of_pos (by simpa using h₁), List.dropWhile_append]
  cases hdrop : bs.dropWhile fun e => decide (e.userKey < key) with
  | nil =>
    cases behind with
    | nil => rfl
    | cons e rest =>
      have hlt := h₂ e List.mem_cons_self
      simp [hlt.ne', not_lt.mpr hlt.le]
  | cons e rest =>
    have hscan : SSTableReader.scanVersions key sequence (e :: rest ++ behind) =
        SSTableReader.scanVersions key sequence (e :: rest) :=
      scanVersions_append (fun e he => (h₂ e he).ne') sequence
    simp only [List.isEmpty_cons, Bool.false_eq_true, if_false, List.cons_append] at hscan ⊢
    rw [hscan]

/-- With an enabled block cache the blocks are searched as one list. -/
theorem SSTableReader.Valid.get_cached_eq {r : SSTableReader} {bss : List (List InternalEntry)}
    (h : r.Valid bss) (key : Bytes) (sequence : ℕ) :
    r.get true key sequence = searchDecoded key sequence bss.flatten := by
  rcases h.get_cases key with ⟨hnone, hget⟩ | ⟨m, bss₁, bs, bss₂, -, hsplit, -, h₁, h₂, -, hget⟩
  · rw [hget, searchDecoded_of_ne hnone]
  · rw [hget, if_neg (by simp), hsplit, List.flatten_append, List.flatten_cons,
      searchDecoded_middle h₁ h₂]

/-- With an enabled block cache `SSTableReader::Get` returns the newest visible version. -/
theorem SSTableReader.Valid.get_cached {r : SSTableReader} {bss : List (List InternalEntry)}
    (h : r.Valid bss) (key : Bytes) (sequence : ℕ) :
    IsLookup bss.flatten key sequence (r.get true key sequence) := by
  rw [h.get_cached_eq]
  exact isLookup_searchDecoded h.ordered.flatten key sequence

theorem userKey_of_getLast? (previous : Bytes) {bs : List InternalEntry} {l : InternalEntry}
    (h : bs.getLast? = some l) : l.userKey = lastKeyOf previous bs := by
  induction bs generalizing previous with
  | nil => cases h
  | cons a rest ih =>
    cases rest with
    | nil =>
      obtain rfl : a = l := by simpa using h
      rfl
    | cons b rest =>
      rw [List.getLast?_cons_cons] at h
      exact ih a.userKey h

theorem forall₂_imp_mem {α β : Type*} {R S : α → β → Prop} {as : List α} {bs : List β}
    (h : List.Forall₂ R as bs) (himp : ∀ a, ∀ b ∈ bs, R a b → S a b) : List.Forall₂ S as bs := by
  induction h with
  | nil => exact .nil
  | @cons a b as bs hab _ ih =>
    exact .cons (himp a b List.mem_cons_self hab) (ih fun a' b' hb' => himp a' b' (by simp [hb']))

/-! ## Table files -/

/-- The index of blocks stored one behind another from `offset` on. -/
def blockMetas : ℕ → List (List InternalEntry) → List Bytes → List BlockMeta
  | offset, bs :: bss, enc :: encs =>
    ⟨groupKey bs, lastKeyOf [] bs, offset, enc.length⟩ :: blockMetas (offset + enc.length) bss encs
  | _, _, _ => []

/-- The least and the greatest sequence of a list of entries (0 when it is empty). -/
def minSequenceOf : List InternalEntry → ℕ
  | [] => 0
  | e :: es => es.foldl (fun m e => min m e.sequence) e.sequence

@[inherit_doc minSequenceOf]
def maxSequenceOf : List InternalEntry → ℕ
  | [] => 0
  | e :: es => es.foldl (fun m e => max m e.sequence) e.sequence

/-- The properties of a table with the given entries. -/
def entriesProperties (es : List InternalEntry) : TableProperties :=
  ⟨es.length, groupKey es, lastKeyOf [] es, minSequenceOf es, maxSequenceOf es⟩

/-- The footer of a table whose data, index and properties sections have the given sizes. -/
def tableFooter (dataSize indexSize propertiesSize : ℕ) : Footer :=
  ⟨kSstableVersion, dataSize, indexSize, dataSize + indexSize, propertiesSize⟩

/-- The file holds the blocks `bss`, encoded as `encs`, with restart interval `ri`. -/
structure TableFile (ri : ℕ) (bss : List (List InternalEntry)) (encs : List Bytes)
    (file : Bytes) : Prop where
  encoded : List.Forall₂ (EncodedBlock ri) bss encs
  sequences : SequencesFit bss.flatten
  separated : bss.Pairwise fun as bs => ∀ a ∈ as, ∀ b ∈ bs, a.userKey < b.userKey
  keys_lt : ∀ m ∈ blockMetas 0 bss encs, m.firstKey.length < 2 ^ 32 ∧ m.lastKey.length < 2 ^ 32
  properties_fit : (entriesProperties bss.flatten).Fits
  sections_lt : encs.flatten.length + (indexBytes (blockMetas 0 bss encs)).length +
    (propertiesBytes (entriesProperties bss.flatten)).length < 2 ^ 64
  file_eq : file = encs.flatten ++ (indexBytes (blockMetas 0 bss encs) ++
    (propertiesBytes (entriesProperties bss.flatten) ++
      encodeFooter (tableFooter encs.flatten.length (indexBytes (blockMetas 0 bss encs)).length
        (propertiesBytes (entriesProperties bss.flatten)).length)))

namespace SSTableReader

/-- What is read of a block is what its bytes decode to. -/
theorem readBlock_decoded {r : SSTableReader} {m : BlockMeta} {es : List InternalEntry}
    (h : r.readBlock m = .ok es) :
    ∃ bytes, readExactly r.file m.offset m.size = .ok bytes ∧
      decodeDataBlock bytes r.version = .ok es := by
  unfold readBlock at h
  split at h
  · cases h
  rename_i bytes hbytes
  split at h
  · cases h
  rename_i entries hdecode
  refine ⟨bytes, hbytes, ?_⟩
  split at h
  · split at h
    · cases h
    split at h
    · cases h
    rwa [← Except.ok.inj h]
  · cases h

/-- What `Open` has read when it succeeds. -/
theorem open_eq_ok {file : Bytes} {tableNumber : ℕ} {r : SSTableReader}
    (h : SSTableReader.open file tableNumber = .ok r) :
    ∃ footer index, readFooter file = .ok footer ∧ checkSections file footer = .ok () ∧
      readExactly file footer.indexOffset footer.indexSize = .ok index ∧
      decodeIndex index = .ok r.blocks ∧
      readProperties file footer = .ok r.persistedProperties ∧ r.file = file ∧
      r.version = footer.version := by
  unfold SSTableReader.open at h
  split at h
  · cases h
  rename_i footer hfooter
  split at h
  · cases h
  rename_i hsections
  split at h
  · cases h
  rename_i index hindex
  split at h
  · cases h
  rename_i blocks hblocks
  split at h
  · cases h
  rename_i persisted hpersisted
  split at h
  · cases h
  obtain rfl := Except.ok.inj h
  exact ⟨footer, index, hfooter, hsections, hindex, hblocks, hpersisted, rfl, rfl⟩

theorem open_tableNumber {file : Bytes} {tableNumber : ℕ} {r : SSTableReader}
    (h : SSTableReader.open file tableNumber = .ok r) : r.tableNumber = tableNumber := by
  unfold SSTableReader.open at h
  repeat' split at h
  all_goals first
    | (cases h; done)
    | (obtain rfl := Except.ok.inj h; rfl)

end SSTableReader

/-- What `SSTableReader::Open` returns on a table file. -/
def tableReader (bss : List (List InternalEntry)) (encs : List Bytes) (file : Bytes)
    (tableNumber : ℕ) : SSTableReader :=
  ⟨file, file.length, kSstableVersion, blockMetas 0 bss encs,
    some (entriesProperties bss.flatten), tableNumber⟩

namespace TableFile

variable {ri : ℕ} {bss : List (List InternalEntry)} {encs : List Bytes} {file : Bytes}

theorem block_of_mem (h : TableFile ri bss encs file) {bs : List InternalEntry} (hbs : bs ∈ bss) :
    ∃ enc, EncodedBlock ri bs enc := by
  have := h.encoded
  clear h
  induction this with
  | nil => cases hbs
  | @cons a b as bs' hab _ ih =>
    rcases List.mem_cons.mp hbs with rfl | hbs
    · exact ⟨b, hab⟩
    · exact ih hbs

theorem orderedBlocks (h : TableFile ri bss encs file) : OrderedBlocks bss where
  nonempty bs hbs := by
    obtain ⟨enc, henc⟩ := h.block_of_mem hbs
    exact henc.ne_nil
  ordered bs hbs := by
    obtain ⟨enc, henc⟩ := h.block_of_mem hbs
    exact henc.ordered
  separated := h.separated

/-- Reading a slice of a file. -/
theorem readExactly_middle (pre mid post : Bytes) {offset size : ℕ} (hoff : offset = pre.length)
    (hsize : size = mid.length) : readExactly (pre ++ (mid ++ post)) offset size = .ok mid := by
  subst hoff hsize
  unfold readExactly
  split
  · rename_i h0
    rw [List.length_eq_zero_iff.mp h0]
  · rw [if_pos (by simp), List.drop_left' rfl, List.take_left' rfl]

/-- The index entries point at the encoded blocks. -/
theorem blockMetas_forall₂ {E : List InternalEntry → Bytes → Prop}
    {bss : List (List InternalEntry)} {encs : List Bytes} (h : List.Forall₂ E bss encs)
    (file post : Bytes) : ∀ pre : Bytes, file = pre ++ (encs.flatten ++ post) →
      List.Forall₂ (fun m bs => ∃ enc, E bs enc ∧
        readExactly file m.offset m.size = .ok enc ∧ m.firstKey = groupKey bs ∧
        m.lastKey = lastKeyOf [] bs ∧ m.offset + m.size ≤ pre.length + encs.flatten.length)
        (blockMetas pre.length bss encs) bss := by
  induction h with
  | nil => intro pre _; exact .nil
  | @cons bs enc bss encs hblock _ ih =>
    intro pre hfile
    refine .cons ⟨enc, hblock, ?_, rfl, rfl, ?_⟩ ?_
    · rw [hfile, List.flatten_cons, List.append_assoc]
      exact readExactly_middle pre enc _ rfl rfl
    · simp
    · have hrec := ih (pre ++ enc) (by rw [hfile]; simp)
      rw [List.length_append] at hrec
      refine hrec.imp fun m bs ⟨enc', h1, h2, h3, h4, h5⟩ => ⟨enc', h1, h2, h3, h4, ?_⟩
      rw [List.flatten_cons, List.length_append]
      omega

theorem metas_forall₂ (h : TableFile ri bss encs file) :
    List.Forall₂ (fun m bs => ∃ enc, EncodedBlock ri bs enc ∧
        readExactly file m.offset m.size = .ok enc ∧ m.firstKey = groupKey bs ∧
        m.lastKey = lastKeyOf [] bs ∧ m.offset + m.size ≤ encs.flatten.length)
        (blockMetas 0 bss encs) bss := by
  have := blockMetas_forall₂ h.encoded file _ [] h.file_eq
  simpa using this

/-- The key ranges in the index follow one another. -/
theorem metas_separated {bss : List (List InternalEntry)} {ms : List BlockMeta}
    (h : List.Forall₂ (fun m bs => m.firstKey = groupKey bs ∧ m.lastKey = lastKeyOf [] bs) ms bss)
    (hord : OrderedBlocks bss) : ms.Pairwise (fun a b => a.lastKey < b.firstKey) := by
  induction h with
  | nil => exact .nil
  | @cons m bs ms bss hm hrest ih =>
    obtain ⟨hsep, hsep'⟩ := List.pairwise_cons.mp hord.separated
    refine List.Pairwise.cons (fun m' hm' => ?_) (ih ⟨fun b hb => hord.nonempty b (by simp [hb]),
      fun b hb => hord.ordered b (by simp [hb]), hsep'⟩)
    obtain ⟨bs', hbs', hfirst, -⟩ := forall₂_exists hrest hm'
    obtain ⟨e, he, hkey⟩ := lastKeyOf_mem [] (hord.nonempty bs (by simp))
    rw [hm.2, hfirst, ← hkey]
    have hne := hord.nonempty bs' (by simp [hbs'])
    cases bs' with
    | nil => exact absurd rfl hne
    | cons e' rest => exact hsep _ hbs' e he e' List.mem_cons_self

theorem metas_fit (h : TableFile ri bss encs file) : ∀ m ∈ blockMetas 0 bss encs, m.Fits := by
  intro m hm
  obtain ⟨bs, hbs, enc, -, -, hfirst, hlast, hle⟩ := forall₂_exists h.metas_forall₂ hm
  obtain ⟨hf, hl⟩ := h.keys_lt m hm
  have hlt := h.sections_lt
  obtain ⟨e, he, hkey⟩ := lastKeyOf_mem [] (h.orderedBlocks.nonempty bs hbs)
  refine ⟨hf, hl, by omega, by omega, ?_⟩
  rw [hfirst, hlast, ← hkey]
  exact groupKey_le_of_mem (h.orderedBlocks.ordered bs hbs) he

theorem footer_fits (h : TableFile ri bss encs file) :
    (tableFooter encs.flatten.length (indexBytes (blockMetas 0 bss encs)).length
      (propertiesBytes (entriesProperties bss.flatten)).length).Fits := by
  have := h.sections_lt
  exact ⟨rfl, by simp only [tableFooter]; omega, by simp only [tableFooter]; omega,
    by simp only [tableFooter]; omega, by simp only [tableFooter]; omega⟩

/-- The footer `Open` takes depends only on the last bytes of the file. -/
theorem readFooter_append (pre footer : Bytes) (hlen : footer.length = kSstableFooterSize) :
    SSTableReader.readFooter (pre ++ footer) =
      match decodeFooter (footer.drop 16) with
      | .ok g => .ok g
      | .error _ => decodeFooter footer := by
  have hdrop : (footer.drop 16).length = 36 := by
    rw [List.length_drop, hlen]
    rfl
  have htake : (footer.take 16).length = 16 := by
    rw [List.length_take, hlen]
    rfl
  have htotal : (pre ++ footer).length = pre.length + 52 := by
    rw [List.length_append, hlen]
    rfl
  have hread1 : readExactly (pre ++ footer) ((pre ++ footer).length - kSstableV1FooterSize)
      kSstableV1FooterSize = .ok (footer.drop 16) := by
    have := readExactly_middle (pre ++ footer.take 16) (footer.drop 16) []
      (by rw [htotal, List.length_append, htake, kSstableV1FooterSize]; omega :
        (pre ++ footer).length - kSstableV1FooterSize = _)
      (by rw [hdrop]; rfl : kSstableV1FooterSize = _)
    rwa [List.append_nil, List.append_assoc, List.take_append_drop] at this
  have hread2 : readExactly (pre ++ footer) ((pre ++ footer).length - kSstableFooterSize)
      kSstableFooterSize = .ok footer := by
    have := readExactly_middle pre footer [] (by rw [htotal, kSstableFooterSize]; omega :
      (pre ++ footer).length - kSstableFooterSize = _) hlen.symm
    rwa [List.append_nil] at this
  have hbig : ¬ (pre ++ footer).length < kSstableV1FooterSize := by
    rw [htotal, kSstableV1FooterSize]
    omega
  have hbig' : ¬ (pre ++ footer).length < kSstableFooterSize := by
    rw [htotal, kSstableFooterSize]
    omega
  cases hv1 : decodeFooter (footer.drop 16) with
  | error s => simp only [SSTableReader.readFooter, hbig, if_false, hread1, hv1, hbig', hread2]
  | ok g => simp only [SSTableReader.readFooter, hbig, if_false, hread1, hv1]

/-- A v1 footer over the sections of a v2 table fails the section check: they would have to end 16
bytes later than they do. -/
theorem checkSections_v1 {file : Bytes} {g : Footer} (hversion : g.version = kSstableVersionV1)
    (hlen : file.length = g.indexOffset + g.indexSize + kSstableFooterSize) :
    ∃ s, SSTableReader.checkSections file g = .error s := by
  simp only [SSTableReader.checkSections, hversion, if_true, hlen, kSstableV1FooterSize,
    kSstableFooterSize]
  rw [if_neg (by omega), if_pos (by omega)]
  exact ⟨_, rfl⟩

theorem length_eq (h : TableFile ri bss encs file) :
    file.length = encs.flatten.length + (indexBytes (blockMetas 0 bss encs)).length +
      (propertiesBytes (entriesProperties bss.flatten)).length + 52 := by
  conv_lhs => rw [h.file_eq]
  simp only [List.length_append, length_encodeFooter, kSstableFooterSize]
  omega

/-- The v1 reading of the tail of a v2 file never survives the section check. -/
theorem readFooter_tail {pre : Bytes} {d i p : ℕ} (hfits : (tableFooter d i p).Fits)
    (hlen : pre.length = d + i + p) :
    SSTableReader.readFooter (pre ++ encodeFooter (tableFooter d i p)) = .ok (tableFooter d i p) ∨
      2 ^ 32 ≤ i ∧ ∃ g, SSTableReader.readFooter (pre ++ encodeFooter (tableFooter d i p)) = .ok g ∧
        ∃ s, SSTableReader.checkSections (pre ++ encodeFooter (tableFooter d i p)) g = .error s := by
  rw [readFooter_append pre _ (length_encodeFooter _)]
  split
  · rename_i g hv1
    right
    obtain ⟨hge, hversion, hoffset, hsize⟩ := decodeFooter_v1_tail hfits hv1
    refine ⟨hge, g, rfl, checkSections_v1 hversion ?_⟩
    rw [hoffset, hsize, List.length_append, hlen, length_encodeFooter]
    rfl
  · left
    exact decodeFooter_encodeFooter hfits

theorem readFooter_cases (h : TableFile ri bss encs file) :
    SSTableReader.readFooter file =
        .ok (tableFooter encs.flatten.length (indexBytes (blockMetas 0 bss encs)).length
          (propertiesBytes (entriesProperties bss.flatten)).length) ∨
      2 ^ 32 ≤ (indexBytes (blockMetas 0 bss encs)).length ∧
        ∃ g, SSTableReader.readFooter file = .ok g ∧ ∃ s, SSTableReader.checkSections file g = .error s := by
  have hlen : (encs.flatten ++ (indexBytes (blockMetas 0 bss encs) ++
      propertiesBytes (entriesProperties bss.flatten))).length = encs.flatten.length +
        (indexBytes (blockMetas 0 bss encs)).length +
        (propertiesBytes (entriesProperties bss.flatten)).length := by
    rw [List.length_append, List.length_append, Nat.add_assoc]
  have htail := readFooter_tail h.footer_fits hlen
  rwa [List.append_assoc, List.append_assoc, ← h.file_eq] at htail

/-- `SSTableReader::Open` accepts a table file whose index has less than 4 GiB, and returns nothing
but its reader. -/
theorem open_eq (h : TableFile ri bss encs file) (tableNumber : ℕ) :
    ((indexBytes (blockMetas 0 bss encs)).length < 2 ^ 32 →
      SSTableReader.open file tableNumber = .ok (tableReader bss encs file tableNumber)) ∧
    ∀ r, SSTableReader.open file tableNumber = .ok r → r = tableReader bss encs file tableNumber := by
  obtain ⟨hindexOk, hindexOnly⟩ := decodeIndex_indexBytes (by have := h.sections_lt; omega) h.metas_fit
    (metas_separated (h.metas_forall₂.imp fun m bs ⟨_, _, _, h3, h4, _⟩ => ⟨h3, h4⟩)
      h.orderedBlocks)
  rcases h.readFooter_cases with hfooter | ⟨hge, g, hg, s, hs⟩
  · have hlen := h.length_eq
    have hsections : SSTableReader.checkSections file (tableFooter encs.flatten.length
        (indexBytes (blockMetas 0 bss encs)).length
        (propertiesBytes (entriesProperties bss.flatten)).length) = .ok () := by
      have hv : kSstableVersion ≠ kSstableVersionV1 := by decide
      simp only [SSTableReader.checkSections, tableFooter, hv, if_false, hlen, kSstableFooterSize]
      rw [if_neg (by omega), if_neg (by omega)]
    have hindex : readExactly file encs.flatten.length
        (indexBytes (blockMetas 0 bss encs)).length = .ok (indexBytes (blockMetas 0 bss encs)) := by
      conv_lhs => rw [h.file_eq]
      exact readExactly_middle _ _ _ rfl rfl
    have hprops : SSTableReader.readProperties file (tableFooter encs.flatten.length
        (indexBytes (blockMetas 0 bss encs)).length
        (propertiesBytes (entriesProperties bss.flatten)).length) =
        .ok (some (entriesProperties bss.flatten)) := by
      have hread : readExactly file (encs.flatten.length +
          (indexBytes (blockMetas 0 bss encs)).length)
          (propertiesBytes (entriesProperties bss.flatten)).length =
          .ok (propertiesBytes (entriesProperties bss.flatten)) := by
        conv_lhs => rw [h.file_eq, ← List.append_assoc]
        exact readExactly_middle _ _ _ (by simp) rfl
      simp only [SSTableReader.readProperties, tableFooter, if_true, hread,
        decodeProperties_propertiesBytes h.properties_fit]
    have hranges : ¬ ∃ m ∈ blockMetas 0 bss encs, encs.flatten.length < m.offset ∨
        encs.flatten.length - m.offset < m.size := by
      rintro ⟨m, hm, hbad⟩
      obtain ⟨bs, -, enc, -, -, -, -, hle⟩ := forall₂_exists h.metas_forall₂ hm
      omega
    have hopen : ∀ blocks, decodeIndex (indexBytes (blockMetas 0 bss encs)) = .ok blocks →
        SSTableReader.open file tableNumber =
          if ∃ b ∈ blocks, encs.flatten.length < b.offset ∨
              encs.flatten.length - b.offset < b.size then
            .error (.corruption "SSTable block range is invalid")
          else .ok ⟨file, file.length, kSstableVersion, blocks,
            some (entriesProperties bss.flatten), tableNumber⟩ := by
      intro blocks hblocks
      unfold SSTableReader.open
      simp only [hfooter, hsections, hprops]
      simp only [tableFooter, hindex, hblocks]
      rfl
    have hfailed : ∀ s, decodeIndex (indexBytes (blockMetas 0 bss encs)) = .error s →
        SSTableReader.open file tableNumber = .error s := by
      intro s hs
      unfold SSTableReader.open
      simp only [hfooter, hsections, hprops]
      simp only [tableFooter, hindex, hs]
    constructor
    · intro hlt
      have hcount : (blockMetas 0 bss encs).length < 2 ^ 32 := by
        have := length_le_flatMap_encodeBlockMeta (blockMetas 0 bss encs)
        simp only [indexBytes, List.length_append, length_putFixed32] at hlt
        omega
      rw [hopen _ (hindexOk hcount)]
      simp only [hranges, if_false, tableReader]
    · intro r hr
      cases hdec : decodeIndex (indexBytes (blockMetas 0 bss encs)) with
      | error s =>
        rw [hfailed s hdec] at hr
        cases hr
      | ok blocks =>
        rw [hopen blocks hdec] at hr
        obtain rfl := hindexOnly blocks hdec
        simp only [hranges, if_false, Except.ok.injEq] at hr
        exact hr.symm
  · have hopen : SSTableReader.open file tableNumber = .error s := by
      simp only [SSTableReader.open, hg, hs]
    refine ⟨fun hlt => by omega, fun r hr => ?_⟩
    rw [hopen] at hr
    cases hr

theorem sequences_of_mem (h : TableFile ri bss encs file) {bs : List InternalEntry}
    (hbs : bs ∈ bss) : SequencesFit bs :=
  fun e he => h.sequences e (List.mem_flatten_of_mem hbs he)

/-- A stored block whose decoding agrees with its index entry is returned. -/
theorem readBlock_of_decode {r : SSTableReader} {m : BlockMeta} {bs : List InternalEntry}
    {enc : Bytes} (hread : readExactly r.file m.offset m.size = .ok enc)
    (hdecode : decodeDataBlock enc r.version = .ok bs) (hne : bs ≠ [])
    (hfirst : m.firstKey = groupKey bs) (hlast : m.lastKey = lastKeyOf [] bs)
    (hsequences : SequencesFit bs) : r.readBlock m = .ok bs := by
  have hzero : ¬ ∃ e ∈ bs, e.sequence = 0 := by
    rintro ⟨e, he, h0⟩
    have := (hsequences e he).1
    omega
  simp only [SSTableReader.readBlock, hread, hdecode]
  cases hbs : bs with
  | nil => exact absurd hbs hne
  | cons e rest =>
    subst hbs
    obtain ⟨l, hl⟩ : ∃ l, (e :: rest).getLast? = some l :=
      ⟨_, List.getLast?_eq_some_getLast (by simp)⟩
    have hlkey : l.userKey = lastKeyOf [] (e :: rest) := userKey_of_getLast? [] hl
    simp only [List.head?_cons, hl, hfirst, hlast, hlkey]
    rw [if_neg (by simp [groupKey, previousKey]), if_neg hzero]

/-- The reader of a table file returns its blocks. -/
theorem valid (h : TableFile ri bss encs file) (tableNumber : ℕ) :
    (tableReader bss encs file tableNumber).Valid bss := by
  refine ⟨?_, h.orderedBlocks⟩
  have hmem : ∀ bs ∈ bss, SequencesFit bs := fun bs hbs => h.sequences_of_mem hbs
  refine forall₂_imp_mem h.metas_forall₂ fun m bs hbs ⟨enc, henc, hread, hfirst, hlast, _⟩ => ?_
  exact ⟨readBlock_of_decode hread (henc.decodeDataBlock (hmem bs hbs)) henc.ne_nil hfirst hlast (hmem bs hbs), hfirst, hlast⟩

/-- What is read of a block of the index is the block that was encoded there. -/
theorem block_of_readBlock (h : TableFile ri bss encs file) {tableNumber : ℕ} {m : BlockMeta}
    {bs : List InternalEntry} (hm : m ∈ blockMetas 0 bss encs)
    (hread : (tableReader bss encs file tableNumber).readBlock m = .ok bs) :
    bs ∈ bss ∧ ∃ enc, EncodedBlock ri bs enc ∧ readExactly file m.offset m.size = .ok enc := by
  obtain ⟨bs', hbs', enc, henc, hexact, -⟩ := forall₂_exists h.metas_forall₂ hm
  obtain ⟨bytes, hbytes, hdecode⟩ := SSTableReader.readBlock_decoded hread
  obtain rfl : enc = bytes := Except.ok.inj (hexact.symm.trans hbytes)
  have hencoded := henc.decodeDataBlock (h.sequences_of_mem hbs')
  obtain rfl : bs' = bs := Except.ok.inj (hencoded.symm.trans hdecode)
  exact ⟨hbs', enc, henc, hexact⟩

/-- Without a cache the lookup is right exactly when no block holds visible versions of the key on
both sides of a restart point. -/
theorem get_uncached_iff (h : TableFile ri bss encs file) (tableNumber : ℕ) (key : Bytes)
    (sequence : ℕ) :
    IsLookup bss.flatten key sequence ((tableReader bss encs file tableNumber).get false key sequence) ↔
      ∀ bs ∈ bss, ¬ StraddlesRestart ri bs key sequence := by
  have hvalid := h.valid tableNumber
  rw [isLookup_iff hvalid.ordered.flatten]
  rcases hvalid.get_cases key with
    ⟨hnone, hget⟩ | ⟨m, bss₁, bs, bss₂, hm, hsplit, hread, h₁, h₂, -, hget⟩
  · refine iff_of_true (.inr ⟨⟨_, hget false sequence⟩, findVersion_eq_none_of_ne hnone⟩) ?_
    rintro bs hbs ⟨j, -, -, ⟨b, hb, hkey⟩, -⟩
    exact hnone b (List.mem_flatten_of_mem hbs (List.mem_of_getElem? hb)) hkey
  · -- the block the index entry points at is the one that holds the key
    obtain ⟨hbs, enc, henc, hexact⟩ := h.block_of_readBlock hm hread
    have hfind : findVersion bss.flatten key sequence = findVersion bs key sequence := by
      rw [hsplit, List.flatten_append, List.flatten_cons]
      exact findVersion_middle (fun e he => (h₁ e he).ne) fun e he => (h₂ e he).ne'
    have huncached : (tableReader bss encs file tableNumber).get false key sequence =
        findDataBlockEntry enc kSstableVersion key sequence := by
      rw [hget false sequence, if_pos ⟨rfl, rfl⟩, SSTableReader.findInV2Block]
      simp only [tableReader, hexact]
    obtain ⟨before, group, behind, -, hgroup⟩ := henc.find_eq (h.sequences_of_mem hbs) key sequence
    have hothers : ∀ b ∈ bss, b ≠ bs → ¬ StraddlesRestart ri b key sequence := by
      rintro b hb hne ⟨j, -, -, ⟨e, he, hkey⟩, -⟩
      have hemem := List.mem_of_getElem? he
      rw [hsplit, List.mem_append, List.mem_cons] at hb
      rcases hb with hb | hb | hb
      · exact (h₁ e (List.mem_flatten_of_mem hb hemem)).ne hkey
      · exact hne hb
      · exact (h₂ e (List.mem_flatten_of_mem hb hemem)).ne' hkey
    have hall : (∀ b ∈ bss, ¬ StraddlesRestart ri b key sequence) ↔
        ¬ StraddlesRestart ri bs key sequence := by
      constructor
      · intro hno
        exact hno bs hbs
      · intro hno b hb
        by_cases heq : b = bs
        · rw [heq]
          exact hno
        · exact hothers b hb heq
    rw [hall, ← henc.find_eq_iff (h.sequences_of_mem hbs), huncached, hfind, hgroup,
      ← isLookup_iff henc.ordered, isLookup_versionResult henc.ordered]
    exact versionResult_injective.eq_iff.symm

end TableFile

end TinyLsm
