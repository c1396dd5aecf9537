import TinyLsm.Sstable.Validation

/-!
# Lookups without a cache

A v2 block that `DecodeDataBlock` accepts is stored in groups, so `FindDataBlockEntry` scans one of
them: the last one whose first key is at most the wanted key. An entry is missed if a later group
begins inside the versions of its key. Without a cache the lookup of a table returns the newest
visible version of the others.
-/

namespace TinyLsm

variable {bytes : Bytes} {layout : V2BlockLayout}

/-! ## The groups of an accepted block -/

/-- The end of the group before index `i`, where the entry loop ends at `p` with `q` restarts. -/
def groupStop (layout : V2BlockLayout) (p q i : ℕ) : ℕ :=
  if i = q then p else layout.restarts.getD i 0

/-- What the entry loop goes over: the rest of the group it is in, then the groups behind it. -/
theorem decodeV2Entries_grouped {remaining : ℕ} :
    ∀ {position restartIndex p q : ℕ} {previous : Bytes} {out out' : List InternalEntry},
      decodeV2Entries bytes layout remaining position restartIndex previous out = .ok (out', p, q) →
      ∃ (rest : List InternalEntry) (gs : List (List InternalEntry)),
        out' = out ++ (rest ++ gs.flatten) ∧ q = restartIndex + gs.length ∧
        (∀ g ∈ gs, g ≠ []) ∧
        GroupAt bytes layout.entriesEnd position previous rest (groupStop layout p q restartIndex) ∧
        ∀ j g, gs[j]? = some g →
          GroupAt bytes layout.entriesEnd (layout.restarts.getD (restartIndex + j) 0) [] g
            (groupStop layout p q (restartIndex + j + 1)) := by
  induction remaining with
  | zero =>
    intro position restartIndex p q previous out out' h
    obtain ⟨rfl, rfl, rfl⟩ : out = out' ∧ position = p ∧ restartIndex = q := by
      simpa [decodeV2Entries] using h
    refine ⟨[], [], by simp, rfl, by simp, ?_, by simp⟩
    rw [groupStop, if_pos rfl]
    exact .nil
  | succ remaining ih =>
    intro position restartIndex p q previous out out' h
    unfold decodeV2Entries at h
    dsimp only at h
    split at h
    · cases h
    rename_i e next hentry
    split at h
    · cases h
    obtain ⟨rest, gs, hout, hq, hne, hrest, hgroups⟩ := ih h
    by_cases hat : layout.restarts[restartIndex]? = some position
    · -- the entry opens the group of the restart it stands at
      rw [if_pos hat] at hentry hrest hgroups hq
      have hposition : layout.restarts.getD restartIndex 0 = position := by
        rw [List.getD_eq_getElem?_getD, hat, Option.getD_some]
      refine ⟨[], (e :: rest) :: gs, by simp [hout], by simp [hq]; omega,
        List.forall_mem_cons.mpr ⟨by simp, hne⟩, ?_, fun j g hg => ?_⟩
      · rw [groupStop, if_neg (by omega), hposition]
        exact .nil
      · cases j with
        | zero =>
          obtain rfl := Option.some.inj hg
          rw [Nat.add_zero, hposition]
          exact .cons hentry hrest
        | succ j =>
          have hgroup := hgroups j g hg
          rwa [Nat.add_right_comm restartIndex 1 j, Nat.add_assoc restartIndex j 1] at hgroup
    · rw [if_neg hat] at hentry hrest hgroups hq
      exact ⟨e :: rest, gs, by simp [hout], hq, hne, .cons hentry hrest, hgroups⟩

theorem parseV2BlockLayout_first (h : parseV2BlockLayout bytes = .ok layout) :
    layout.restarts.head? = some 0 := by
  unfold parseV2BlockLayout at h
  dsimp only at h
  split at h
  · cases h
  split at h
  · cases h
  split at h
  · cases h
  split at h
  · cases h
  split at h
  · cases h
  split at h
  · cases h
  rename_i hfirst
  obtain rfl := Except.ok.inj h
  exact not_not.mp hfirst

/-- A v2 block that is decoded is stored in groups of its entries. -/
theorem exists_grouped {es : List InternalEntry}
    (h : decodeDataBlock bytes kSstableVersion = .ok es) :
    ∃ layout gs, GroupedBlock bytes layout gs ∧ gs.flatten = es := by
  have hordered := decodeDataBlock_ordered h
  unfold decodeDataBlock decodeDataBlockV2 at h
  rw [if_neg (by decide), if_pos rfl] at h
  split at h
  · cases h
  rename_i layout hlayout
  split at h
  · cases h
  rename_i out position restartIndex hentries
  split at h
  · cases h
  rename_i hend
  obtain rfl := Except.ok.inj h
  simp only [not_or, not_not] at hend
  obtain ⟨rfl, rfl⟩ := hend
  obtain ⟨rest, gs, hout, hlength, hne, hrest, hgroups⟩ := decodeV2Entries_grouped hentries
  have hfirst := parseV2BlockLayout_first hlayout
  have hpos : 0 < layout.restarts.length := by
    rw [List.length_pos_iff]
    rintro hnil
    rw [hnil] at hfirst
    cases hfirst
  -- the first group begins at the first entry
  obtain rfl : rest = [] := by
    have hle := hrest.length_le
    rw [groupStop, if_neg (by omega), List.getD_eq_getElem?_getD, ← List.head?_eq_getElem?, hfirst,
      Option.getD_some] at hle
    exact List.length_eq_zero_iff.mp (by omega)
  rw [List.nil_append, List.nil_append] at hout
  rw [Nat.zero_add] at hlength
  refine ⟨layout, gs, ⟨hlayout, hlength, ?_, hne, hout ▸ hordered, fun i g hg => ?_⟩, hout.symm⟩
  · rintro rfl
    exact absurd hlength hpos.ne'
  · have hgroup := hgroups i g hg
    rwa [Nat.zero_add, groupStop, hlength] at hgroup

/-! ## What the search misses -/

/-- The entries at the restart points of a v2 block. -/
def restartEntries (bytes : Bytes) : List InternalEntry :=
  match parseV2BlockLayout bytes with
  | .error _ => []
  | .ok layout => layout.restarts.filterMap fun position =>
    (decodeV2Entry bytes position layout.entriesEnd []).map Prod.fst

/-- A restart point lies inside the versions of the key of `e`, behind `e`. -/
def InternalEntry.Missed (restarts : List InternalEntry) (e : InternalEntry) : Prop :=
  ∃ b ∈ restarts, b.userKey = e.userKey ∧ b.sequence < e.sequence

instance (restarts : List InternalEntry) (e : InternalEntry) : Decidable (e.Missed restarts) :=
  inferInstanceAs (Decidable (∃ b ∈ restarts, _))

namespace GroupedBlock

variable {gs : List (List InternalEntry)}

theorem mem_restartEntries (h : GroupedBlock bytes layout gs) {b : InternalEntry} :
    b ∈ restartEntries bytes ↔ ∃ rest, b :: rest ∈ gs := by
  rw [restartEntries, h.parsed]
  simp only [List.mem_filterMap]
  constructor
  · rintro ⟨position, hposition, hb⟩
    obtain ⟨i, hi⟩ := List.mem_iff_getElem?.mp hposition
    have hlt : i < gs.length := by
      rw [← h.length_eq]
      exact (List.getElem?_eq_some_iff.mp hi).1
    have hg := List.getElem?_eq_getElem hlt
    obtain ⟨e, rest, next, hcons, hentry, -⟩ := h.restart_entry hg
    rw [List.getD_eq_getElem?_getD, hi, Option.getD_some] at hentry
    rw [hentry] at hb
    obtain rfl := Option.some.inj hb
    exact ⟨rest, hcons ▸ List.mem_of_getElem? hg⟩
  · rintro ⟨rest, hmem⟩
    obtain ⟨i, hg⟩ := List.mem_iff_getElem?.mp hmem
    obtain ⟨e, rest', next, hcons, hentry, -⟩ := h.restart_entry hg
    obtain ⟨rfl, rfl⟩ := List.cons.inj hcons
    have hlt : i < layout.restarts.length := by
      rw [h.length_eq]
      exact (List.getElem?_eq_some_iff.mp hg).1
    refine ⟨layout.restarts.getD i 0, ?_, by rw [hentry]; rfl⟩
    rw [List.getD_eq_getElem _ _ hlt]
    exact List.getElem_mem hlt

/-- The searched group holds the versions of the key that are not missed. -/
theorem mem_searched (h : GroupedBlock bytes layout gs) {key : Bytes} {k : ℕ}
    {g : List InternalEntry} (hg : gs[k]? = some g) (hhead : k ≠ 0 → groupKey g ≤ key)
    (hbehind : ∀ i g', k < i → gs[i]? = some g' → key < groupKey g') {e : InternalEntry}
    (hkey : e.userKey = key) :
    e ∈ g ↔ e ∈ gs.flatten ∧ ¬ e.Missed (restartEntries bytes) := by
  constructor
  · refine fun he => ⟨List.mem_flatten_of_mem (List.mem_of_getElem? hg) he, ?_⟩
    rintro ⟨b, hb, hbkey, hsequence⟩
    obtain ⟨rest, hmem⟩ := h.mem_restartEntries.mp hb
    obtain ⟨j, hj⟩ := List.mem_iff_getElem?.mp hmem
    rcases lt_trichotomy j k with hlt | rfl | hgt
    · have := (groups_less h.ordered hj hg hlt b List.mem_cons_self e he).sequence_lt hbkey
      omega
    · rw [hg] at hj
      obtain rfl := Option.some.inj hj
      rcases List.mem_cons.mp he with rfl | he
      · omega
      · have hordered := group_ordered h.ordered hg
        have := ((List.pairwise_cons.mp hordered).1 e he).sequence_lt hbkey
        omega
    · have hlt : key < b.userKey := hbehind j _ hgt hj
      exact absurd hlt (by simp [hbkey, hkey])
  · rintro ⟨he, hnot⟩
    obtain ⟨g', hg', heg⟩ := List.mem_flatten.mp he
    obtain ⟨j, hj⟩ := List.mem_iff_getElem?.mp hg'
    rcases lt_trichotomy j k with hlt | rfl | hgt
    · -- the first entry of the searched group is a version of the key behind `e`
      refine absurd ?_ hnot
      obtain ⟨b, rest, -, rfl, -⟩ := h.restart_entry hg
      have hless := groups_less h.ordered hj hg hlt e heg b List.mem_cons_self
      have hle : b.userKey ≤ key := hhead (by omega)
      have heq : b.userKey = e.userKey := le_antisymm (hkey ▸ hle) hless.key_le
      exact ⟨b, h.mem_restartEntries.mpr ⟨rest, List.mem_of_getElem? hg⟩, heq,
        hless.sequence_lt heq.symm⟩
    · rw [hg] at hj
      obtain rfl := Option.some.inj hj
      exact heg
    · have hmem : e ∈ (gs.drop (k + 1)).flatten := by
        refine List.mem_flatten_of_mem (List.mem_iff_getElem?.mpr ⟨j - (k + 1), ?_⟩) heg
        rw [List.getElem?_drop, Nat.add_sub_cancel' (by omega)]
        exact hj
      exact absurd (h.key_lt_of_mem hbehind hmem) (by simp [hkey])

end GroupedBlock

/-- `FindDataBlockEntry` in a block that decodes to `es`: the newest visible version of the entries
that are not missed. -/
theorem isLookup_findDataBlockEntry {es : List InternalEntry}
    (h : decodeDataBlock bytes kSstableVersion = .ok es) (key : Bytes) (sequence : ℕ) :
    IsLookup (es.filter fun e => ¬ e.Missed (restartEntries bytes)) key sequence
      (findDataBlockEntry bytes kSstableVersion key sequence) := by
  obtain ⟨layout, gs, hgrouped, rfl⟩ := exists_grouped h
  obtain ⟨k, g, hg, hhead, hbehind, hfind⟩ := hgrouped.find_eq key
  rw [hfind sequence]
  have hordered := group_ordered hgrouped.ordered hg
  refine IsLookup.congr_key (fun e hkey => ?_) ((isLookup_versionResult hordered).mpr rfl)
  rw [hgrouped.mem_searched hg hhead hbehind hkey, List.mem_filter, decide_eq_true_eq]

/-! ## Tables -/

namespace SSTableReader

/-- The entries at the restart points of a table; the blocks of version 1 have none. -/
def restarts (r : SSTableReader) : List InternalEntry :=
  if r.version = kSstableVersion then
    r.blocks.flatMap fun m =>
      match readExactly r.file m.offset m.size with
      | .error _ => []
      | .ok bytes => restartEntries bytes
  else []

theorem restarts_of_version {r : SSTableReader} (hv : r.version ≠ kSstableVersion) :
    r.restarts = [] := if_neg hv

/-- The restarts of a table in a block that can be read are entries of the block. -/
theorem mem_of_restartEntries {r : SSTableReader} {m : BlockMeta} {es : List InternalEntry}
    {bytes : Bytes} (hv : r.version = kSstableVersion)
    (hbytes : readExactly r.file m.offset m.size = .ok bytes) (h : r.readBlock m = .ok es)
    {b : InternalEntry} (hb : b ∈ restartEntries bytes) : b ∈ es := by
  obtain ⟨bytes', hbytes', hdecode⟩ := readBlock_decoded h
  obtain rfl : bytes = bytes' := Except.ok.inj (hbytes.symm.trans hbytes')
  rw [hv] at hdecode
  obtain ⟨layout, gs, hgrouped, rfl⟩ := exists_grouped hdecode
  obtain ⟨rest, hmem⟩ := hgrouped.mem_restartEntries.mp hb
  exact List.mem_flatten_of_mem hmem List.mem_cons_self

/-- Where the other blocks of a table hold no version of a key, only the restarts of one block can
lie inside its versions. -/
theorem missed_restarts_iff {r : SSTableReader} {m : BlockMeta} {bytes : Bytes} {e : InternalEntry}
    (hv : r.version = kSstableVersion) (hm : m ∈ r.blocks)
    (hbytes : readExactly r.file m.offset m.size = .ok bytes)
    (hothers : ∀ m' ∈ r.blocks, m' = m ∨
      ∃ bs, r.readBlock m' = .ok bs ∧ ∀ b ∈ bs, b.userKey ≠ e.userKey) :
    e.Missed r.restarts ↔ e.Missed (restartEntries bytes) := by
  simp only [InternalEntry.Missed, restarts, if_pos hv, List.mem_flatMap]
  constructor
  · rintro ⟨b, ⟨m', hm', hb⟩, hkey, hsequence⟩
    split at hb
    · cases hb
    rename_i bytes' hbytes'
    rcases hothers m' hm' with rfl | ⟨bs, hread, hne⟩
    · rw [hbytes] at hbytes'
      obtain rfl := Except.ok.inj hbytes'
      exact ⟨b, hb, hkey, hsequence⟩
    · exact absurd hkey (hne b (mem_of_restartEntries hv hbytes' hread hb))
  · rintro ⟨b, hb, hkey, hsequence⟩
    exact ⟨b, ⟨m, hm, by rw [hbytes]; exact hb⟩, hkey, hsequence⟩

/-- Without a cache `SSTableReader::Get` returns the newest visible version of the entries that are
not missed. -/
theorem Valid.get_uncached {r : SSTableReader} {bss : List (List InternalEntry)} (h : r.Valid bss)
    (key : Bytes) (sequence : ℕ) :
    IsLookup (bss.flatten.filter fun e => ¬ e.Missed r.restarts) key sequence
      (r.get false key sequence) := by
  rcases h.get_cases key with
    ⟨hnone, hget⟩ | ⟨m, bss₁, bs, bss₂, hm, hsplit, hread, h₁, h₂, hothers, hget⟩
  · rw [hget]
    exact .inr ⟨⟨_, rfl⟩, fun e he hkey => absurd hkey (hnone e (List.mem_of_mem_filter he))⟩
  -- only the searched block holds the key
  have hblock : ∀ e, e.userKey = key → (e ∈ bss.flatten ↔ e ∈ bs) := by
    intro e hkey
    rw [hsplit, List.flatten_append, List.flatten_cons, List.mem_append, List.mem_append]
    constructor
    · rintro (he | he | he)
      · exact absurd hkey (h₁ e he).ne
      · exact he
      · exact absurd hkey (h₂ e he).ne'
    · exact fun he => .inr (.inl he)
  rw [hget]
  split
  · rename_i hv
    obtain ⟨bytes, hbytes, hdecode⟩ := readBlock_decoded hread
    have hmissed : ∀ e : InternalEntry, e.userKey = key →
        (e.Missed r.restarts ↔ e.Missed (restartEntries bytes)) := by
      rintro e rfl
      refine missed_restarts_iff hv.1 hm hbytes fun m' hm' => ?_
      rcases hothers m' hm' with rfl | ⟨bs', hbs', hread'⟩
      · exact .inl rfl
      · refine .inr ⟨bs', hread', fun b hb => ?_⟩
        rcases List.mem_append.mp hbs' with hbs' | hbs'
        · exact (h₁ b (List.mem_flatten_of_mem hbs' hb)).ne
        · exact (h₂ b (List.mem_flatten_of_mem hbs' hb)).ne'
    rw [hv.1] at hdecode
    have hfind := isLookup_findDataBlockEntry hdecode key sequence
    rw [findInV2Block, hbytes]
    refine hfind.congr_key fun e hkey => ?_
    simp only [List.mem_filter, decide_eq_true_eq, hmissed e hkey, hblock e hkey]
  · rename_i hv
    rw [restarts_of_version fun hversion => hv ⟨hversion, rfl⟩]
    refine (isLookup_searchDecoded (h.ordered.ordered bs (by simp [hsplit])) key sequence).congr_key
      fun e hkey => ?_
    rw [List.mem_filter, hblock e hkey]
    simp [InternalEntry.Missed]

end SSTableReader

end TinyLsm
