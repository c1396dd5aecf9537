import TinyLsm.Sstable.BlockBounds

/-!
# Accepted data blocks are well formed

What the data block decoders accept. The entries are ordered and tombstones carry no value; a v2 block
is the encoding of its entries, one behind the other, and its restarts are starts of entries that
store their whole key.
-/

namespace TinyLsm

open Machine

variable {bytes : Bytes} {layout : V2BlockLayout}

/-- Entries one behind the other, each with the number of bytes it shares with the key before. -/
def storedEntries (stored : List (ℕ × InternalEntry)) : Bytes :=
  stored.flatMap fun p => encodeV2Entry p.1 p.2

/-- What every decoder checks of an entry. -/
def InternalEntry.Clean (e : InternalEntry) : Prop := e.type = .tombstone → e.value = []

/-- An entry that `DecodeV2Entry` accepts is stored at the position. -/
theorem decodeV2Entry_stored {position entriesEnd next : ℕ} {previous : Bytes} {e : InternalEntry}
    (hend : entriesEnd ≤ bytes.length)
    (h : decodeV2Entry bytes position entriesEnd previous = some (e, next)) :
    ∃ shared, shared ≤ previous.length ∧
      bytes.drop position = encodeV2Entry shared e ++ bytes.drop next ∧
      next = position + (encodeV2Entry shared e).length ∧ next ≤ entriesEnd ∧
      e.sequence ≠ 0 ∧ e.Clean := by
  by_cases hle : position + 21 ≤ bytes.length
  swap
  · rw [plain_decodeV2Entry_none entriesEnd previous (not_le.mp hle)] at h
    cases h
  rw [plain_decodeV2Entry entriesEnd previous hle] at h
  dsimp only at h
  split at h
  · cases h
  rename_i hfits
  obtain ⟨type, htype, h⟩ := Option.bind_eq_some_iff.mp h
  split at h
  · cases h
  rename_i hsequence
  split at h
  · cases h
  rename_i htomb
  obtain ⟨rfl, rfl⟩ := Prod.mk.inj (Option.some.inj h)
  simp only [not_or, not_lt] at hfits
  set shared := (getFixed32 bytes position).getD 0 with hshared
  set unshared := (getFixed32 bytes (position + 4)).getD 0 with hunshared
  set sequence := (getFixed64 bytes (position + 8)).getD 0 with hseq
  set valueSize := (getFixed32 bytes (position + 17)).getD 0 with hvalue
  set front := previous.take shared with hfront
  set back := (bytes.drop (position + 21)).take unshared with hback
  set value := (bytes.drop (position + 21 + unshared)).take valueSize with hvalueDef
  have hfrontLen : front.length = shared := by
    rw [hfront, List.length_take]
    omega
  have hbackLen : back.length = unshared := by
    rw [hback, List.length_take, List.length_drop]
    omega
  have hvalueLen : value.length = valueSize := by
    rw [hvalueDef, List.length_take, List.length_drop]
    omega
  have hbyte : bytes.getD (position + 16) 0 = type.toByte :=
    (ValueType.toByte_of_ofByte? htype).symm
  have hbody : bytes.drop (position + 21) =
      back ++ (value ++ bytes.drop (position + 21 + unshared + valueSize)) := by
    have h1 := List.take_append_drop unshared (bytes.drop (position + 21))
    have h2 := List.take_append_drop valueSize (bytes.drop (position + 21 + unshared))
    rw [List.drop_drop] at h1 h2
    rw [hvalueDef, h2, hback, h1]
  have hkeyLen : (front ++ back).length - shared = unshared := by
    rw [List.length_append, hfrontLen, hbackLen]
    omega
  have hdrop : (front ++ back).drop shared = back := List.drop_left' hfrontLen
  refine ⟨shared, hfits.1, ?_, ?_, by omega, hsequence, by simpa [InternalEntry.Clean] using htomb⟩
  · rw [drop_eq_putFixed32 (by omega : position + 4 ≤ bytes.length),
      drop_eq_putFixed32 (by omega : position + 4 + 4 ≤ bytes.length),
      drop_eq_putFixed64 (by omega : position + 8 + 8 ≤ bytes.length),
      drop_eq_getD_cons (by omega : position + 16 < bytes.length),
      drop_eq_putFixed32 (by omega : position + 17 + 4 ≤ bytes.length), hbody, ← hshared,
      ← hunshared, ← hseq, ← hvalue, hbyte]
    simp only [encodeV2Entry, hkeyLen, hdrop, hvalueLen, List.append_assoc, List.cons_append,
      List.nil_append]
  · simp only [encodeV2Entry, List.length_append, length_putFixed32, length_putFixed64, hdrop, hbackLen,
      hvalueLen, List.length_singleton]
    omega

theorem storedEntries_cons (shared : ℕ) (e : InternalEntry) (stored : List (ℕ × InternalEntry)) :
    storedEntries ((shared, e) :: stored) = encodeV2Entry shared e ++ storedEntries stored := rfl

/-- What the entry loop of version 2 has gone over between two positions. -/
structure Tiled (bytes : Bytes) (layout : V2BlockLayout) (position restartIndex p q : ℕ)
    (stored : List (ℕ × InternalEntry)) : Prop where
  bytes_eq : bytes.drop position = storedEntries stored ++ bytes.drop p
  end_eq : p = position + (storedEntries stored).length
  entries : ∀ x ∈ stored, x.2.sequence ≠ 0 ∧ x.2.Clean
  restarts_le : restartIndex ≤ q
  restarts : ∀ j, restartIndex ≤ j → j < q → ∃ before e behind, stored = before ++ (0, e) :: behind ∧
    layout.restarts[j]? = some (position + (storedEntries before).length)

/-- One more entry in front. -/
theorem Tiled.cons {position restartIndex next p q shared : ℕ} {e : InternalEntry}
    {stored : List (ℕ × InternalEntry)} {atRestart : Prop} [Decidable atRestart]
    (hstored : bytes.drop position = encodeV2Entry shared e ++ bytes.drop next)
    (hnext : next = position + (encodeV2Entry shared e).length) (he : e.sequence ≠ 0 ∧ e.Clean)
    (hat : atRestart → layout.restarts[restartIndex]? = some position ∧ shared = 0)
    (h : Tiled bytes layout next (if atRestart then restartIndex + 1 else restartIndex) p q stored) :
    Tiled bytes layout position restartIndex p q ((shared, e) :: stored) where
  bytes_eq := by rw [hstored, h.bytes_eq, storedEntries_cons, List.append_assoc]
  end_eq := by
    rw [h.end_eq, hnext, storedEntries_cons, List.length_append]
    omega
  entries x hx := by
    rcases List.mem_cons.mp hx with rfl | hx
    · exact he
    · exact h.entries x hx
  restarts_le := by
    have hle := h.restarts_le
    split at hle <;> omega
  restarts j hj hq := by
    by_cases hfirst : atRestart ∧ j = restartIndex
    · obtain ⟨hr, rfl⟩ := hfirst
      obtain ⟨hposition, rfl⟩ := hat hr
      exact ⟨[], e, stored, rfl, hposition⟩
    · have hle : (if atRestart then restartIndex + 1 else restartIndex) ≤ j := by
        split
        · have hne : j ≠ restartIndex := fun heq => hfirst ⟨‹_›, heq⟩
          omega
        · exact hj
      obtain ⟨before, e', behind, hsplit, hoffset⟩ := h.restarts j hle hq
      refine ⟨(shared, e) :: before, e', behind, by rw [hsplit]; rfl, ?_⟩
      rw [hoffset, hnext, storedEntries_cons, List.length_append, Nat.add_assoc]

theorem decodeV2Entries_tiled (hend : layout.entriesEnd ≤ bytes.length) {remaining : ℕ} :
    ∀ {position restartIndex p q : ℕ} {previous : Bytes} {out out' : List InternalEntry},
      decodeV2Entries bytes layout remaining position restartIndex previous out = .ok (out', p, q) →
      ∃ stored, out' = out ++ stored.map Prod.snd ∧ stored.length = remaining ∧
        Tiled bytes layout position restartIndex p q stored := by
  induction remaining with
  | zero =>
    intro position restartIndex p q previous out out' h
    obtain ⟨rfl, rfl, rfl⟩ : out = out' ∧ position = p ∧ restartIndex = q := by
      simpa [decodeV2Entries] using h
    exact ⟨[], by simp, rfl, rfl, rfl, by simp, le_rfl, fun j hj hlt => by omega⟩
  | succ remaining ih =>
    intro position restartIndex p q previous out out' h
    unfold decodeV2Entries at h
    dsimp only at h
    split at h
    · cases h
    rename_i e next hentry
    split at h
    · cases h
    obtain ⟨shared, hshared, hstored, hnext, -, hseq, hclean⟩ := decodeV2Entry_stored hend hentry
    obtain ⟨stored, hout, hlength, htiled⟩ := ih h
    refine ⟨(shared, e) :: stored, by simp [hout], by simp [hlength], ?_⟩
    refine Tiled.cons hstored hnext ⟨hseq, hclean⟩ (fun hat => ⟨hat, ?_⟩) htiled
    rw [if_pos hat, List.length_nil] at hshared
    exact Nat.le_zero.mp hshared

/-! ## The layout -/

/-- The restart array as it is stored. -/
theorem parseRestarts_stored {restartsBegin remaining : ℕ} :
    ∀ {i : ℕ} {restarts out : List ℕ}, restartsBegin + 4 * (i + remaining) ≤ bytes.length →
      parseRestarts bytes restartsBegin remaining i restarts = .ok out →
      ∃ new, out = restarts ++ new ∧ bytes.drop (restartsBegin + 4 * i) =
        new.flatMap putFixed32 ++ bytes.drop (restartsBegin + 4 * (i + remaining)) := by
  induction remaining with
  | zero =>
    intro i restarts out _ h
    obtain rfl := Except.ok.inj h
    exact ⟨[], by simp, rfl⟩
  | succ remaining ih =>
    intro i restarts out hle h
    unfold parseRestarts at h
    dsimp only at h
    split at h
    · cases h
    obtain ⟨new, rfl, hnew⟩ := ih (by omega) h
    refine ⟨_ :: new, List.append_assoc _ _ _, ?_⟩
    have hnext : restartsBegin + 4 * i + 4 = restartsBegin + 4 * (i + 1) := by omega
    have hlast : i + 1 + remaining = i + (remaining + 1) := by omega
    rw [drop_eq_putFixed32 (by omega : restartsBegin + 4 * i + 4 ≤ bytes.length), hnext, hnew, hlast,
      List.flatMap_cons, List.append_assoc]

/-- A block with a valid layout is its entry area, the restarts, the two counts and the checksum. -/
theorem parseV2BlockLayout_stored (h : parseV2BlockLayout bytes = .ok layout) :
    bytes = blockBody (bytes.take layout.entriesEnd) layout.restarts layout.entryCount ++
      putFixed32 (crc32c (blockBody (bytes.take layout.entriesEnd) layout.restarts
        layout.entryCount)) := by
  unfold parseV2BlockLayout at h
  dsimp only at h
  split at h
  · cases h
  rename_i hlen
  split at h
  · cases h
  rename_i hcrc
  split at h
  · cases h
  split at h
  · cases h
  rename_i hroom
  split at h
  · cases h
  rename_i restarts hparse
  split at h
  · cases h
  obtain rfl := Except.ok.inj h
  have hcount := length_parseRestarts hparse
  rw [List.length_nil, Nat.zero_add] at hcount
  dsimp only
  set restartCount := (getFixed32 bytes (bytes.length - 12)).getD 0 with hrestartCount
  set begin := bytes.length - 12 - 4 * restartCount with hbegin
  obtain ⟨new, hnew, hstored⟩ := parseRestarts_stored (by omega) hparse
  rw [List.nil_append] at hnew
  subst hnew
  rw [Nat.mul_zero, Nat.add_zero, Nat.zero_add,
    (by omega : begin + 4 * restartCount = bytes.length - 12)] at hstored
  -- the trailer of three fields
  have htrailer : bytes.drop (bytes.length - 12) = putFixed32 restarts.length ++
      (putFixed32 ((getFixed32 bytes (bytes.length - 8)).getD 0) ++
        bytes.drop (bytes.length - 4)) := by
    rw [drop_eq_putFixed32 (by omega : bytes.length - 12 + 4 ≤ bytes.length), ← hrestartCount,
      (by omega : bytes.length - 12 + 4 = bytes.length - 8),
      drop_eq_putFixed32 (by omega : bytes.length - 8 + 4 ≤ bytes.length),
      (by omega : bytes.length - 8 + 4 = bytes.length - 4), hcount]
  have hlast : bytes.drop (bytes.length - 4) =
      putFixed32 ((getFixed32 bytes (bytes.length - 4)).getD 0) := by
    rw [drop_eq_putFixed32 (by omega : bytes.length - 4 + 4 ≤ bytes.length),
      List.drop_of_length_le (by omega), List.append_nil]
  have hbytes : bytes = blockBody (bytes.take begin) restarts
      ((getFixed32 bytes (bytes.length - 8)).getD 0) ++ bytes.drop (bytes.length - 4) := by
    conv_lhs => rw [← List.take_append_drop begin bytes, hstored, htrailer]
    simp only [blockBody, List.append_assoc]
  have hbody : bytes.take (bytes.length - 4) = blockBody (bytes.take begin) restarts
      ((getFixed32 bytes (bytes.length - 8)).getD 0) :=
    List.append_cancel_right ((List.take_append_drop (bytes.length - 4) bytes).trans hbytes)
  rw [← hbody, not_not.mp hcrc, ← hlast, List.take_append_drop]

/-! ## Accepted blocks -/

/-- A data block that holds the entries. -/
structure AcceptedBlock (bytes : Bytes) (version : ℕ) (es : List InternalEntry) : Prop where
  ordered : Ordered es
  clean : ∀ e ∈ es, e.Clean
  ne_nil : version = kSstableVersion → es ≠ []
  sequences : version = kSstableVersion → ∀ e ∈ es, e.sequence ≠ 0
  /-- The entries fill the area before the restarts, which are starts of entries without a shared
  part. -/
  tiled : version = kSstableVersion → ∃ stored restarts, es = stored.map Prod.snd ∧
    bytes = blockBody (storedEntries stored) restarts es.length ++
      putFixed32 (crc32c (blockBody (storedEntries stored) restarts es.length)) ∧
    ∀ r ∈ restarts, ∃ before e behind, stored = before ++ (0, e) :: behind ∧
      r = (storedEntries before).length

theorem decodeV1Entries_clean {offsetsStart remaining : ℕ} :
    ∀ {i : ℕ} {out out' : List InternalEntry}, (∀ e ∈ out, e.Clean) →
      decodeV1Entries bytes offsetsStart remaining i out = .ok out' → ∀ e ∈ out', e.Clean := by
  induction remaining with
  | zero =>
    intro i out out' hclean h
    rwa [← Except.ok.inj h]
  | succ remaining ih =>
    intro i out out' hclean h
    unfold decodeV1Entries at h
    dsimp only at h
    generalize (if remaining = 0 then offsetsStart % 2 ^ 32
      else (getFixed32 bytes (offsetsStart + 4 * (i + 1))).getD 0) = next at h
    split at h
    · cases h
    split at h
    · cases h
    split at h
    · cases h
    split at h
    · cases h
    rename_i hcheck
    refine ih (fun e he => ?_) h
    rcases List.mem_append.mp he with he | he
    · exact hclean e he
    · obtain rfl := List.mem_singleton.mp he
      intro htomb
      by_contra hvalue
      exact hcheck (.inr ⟨htomb, hvalue⟩)

theorem decodeDataBlockV1_clean {es : List InternalEntry} (h : decodeDataBlockV1 bytes = .ok es) :
    ∀ e ∈ es, e.Clean := by
  unfold decodeDataBlockV1 at h
  dsimp only at h
  split at h
  · cases h
  split at h
  · cases h
  split at h
  · cases h
  exact decodeV1Entries_clean (by simp) h

/-- What `DecodeDataBlockV2` accepts. -/
theorem decodeDataBlockV2_accepted {es : List InternalEntry} (h : decodeDataBlockV2 bytes = .ok es) :
    es ≠ [] ∧ ∃ stored restarts, es = stored.map Prod.snd ∧
      (∀ x ∈ stored, x.2.sequence ≠ 0 ∧ x.2.Clean) ∧
      bytes = blockBody (storedEntries stored) restarts es.length ++
        putFixed32 (crc32c (blockBody (storedEntries stored) restarts es.length)) ∧
      ∀ r ∈ restarts, ∃ before e behind, stored = before ++ (0, e) :: behind ∧
        r = (storedEntries before).length := by
  unfold decodeDataBlockV2 at h
  split at h
  · cases h
  rename_i layout hlayout
  split at h
  · cases h
  rename_i out position restartIndex hentries
  split at h
  · cases h
  rename_i hend
  obtain rfl := Except.ok.inj h
  simp only [not_or, not_not] at hend
  obtain ⟨rfl, rfl⟩ := hend
  have hin := layoutInside hlayout
  obtain ⟨stored, hout, hlength, htiled⟩ := decodeV2Entries_tiled hin.entriesEnd_le hentries
  rw [List.nil_append] at hout
  have hcount : out.length = layout.entryCount := by rw [hout, List.length_map, hlength]
  have harea : bytes.take layout.entriesEnd = storedEntries stored := by
    have hbytes := htiled.bytes_eq
    rw [List.drop_zero] at hbytes
    exact List.append_cancel_right ((List.take_append_drop layout.entriesEnd bytes).trans hbytes)
  have hform := parseV2BlockLayout_stored hlayout
  rw [harea, ← hcount] at hform
  have hstarts : ∀ r ∈ layout.restarts, ∃ before e behind, stored = before ++ (0, e) :: behind ∧
      r = (storedEntries before).length := by
    intro r hr
    obtain ⟨j, hj⟩ := List.mem_iff_getElem?.mp hr
    obtain ⟨hlt, -⟩ := List.getElem?_eq_some_iff.mp hj
    obtain ⟨before, e, behind, hsplit, hoffset⟩ := htiled.restarts j (Nat.zero_le _) hlt
    rw [hj, Nat.zero_add] at hoffset
    exact ⟨before, e, behind, hsplit, Option.some.inj hoffset⟩
  refine ⟨?_, stored, layout.restarts, hout, htiled.entries, hform, hstarts⟩
  -- the first restart is the start of an entry
  obtain ⟨before, e, behind, rfl, -⟩ := hstarts _ (List.getElem_mem hin.restarts_pos)
  rw [hout]
  simp

theorem decodeDataBlock_accepted {version : ℕ} {es : List InternalEntry}
    (h : decodeDataBlock bytes version = .ok es) : AcceptedBlock bytes version es := by
  have hord := decodeDataBlock_ordered h
  unfold decodeDataBlock at h
  split at h
  · rename_i hversion
    have hne : version ≠ kSstableVersion := by
      rw [hversion]
      decide
    exact ⟨hord, decodeDataBlockV1_clean h, fun hv => absurd hv hne, fun hv => absurd hv hne,
      fun hv => absurd hv hne⟩
  split at h
  · obtain ⟨hne, stored, restarts, hes, hentries, hbytes, hstarts⟩ := decodeDataBlockV2_accepted h
    have hall : ∀ e ∈ es, e.sequence ≠ 0 ∧ e.Clean := by
      intro e he
      rw [hes] at he
      obtain ⟨x, hx, rfl⟩ := List.mem_map.mp he
      exact hentries x hx
    exact ⟨hord, fun e he => (hall e he).2, fun _ => hne, fun _ e he => (hall e he).1,
      fun _ => ⟨stored, restarts, hes, hbytes, hstarts⟩⟩
  · cases h

/-- The data block decoders stay inside every block below 4 GiB, and accept only well-formed ones. -/
theorem data_block_decoders_are_safe (bytes : Bytes) (h : bytes.length < 2 ^ 32) (version : ℕ)
    (key : Bytes) (sequence : ℕ) :
    Machine.decodeDataBlock bytes version = .ok (decodeDataBlock bytes version) ∧
    Machine.findDataBlockEntry bytes version key sequence =
      .ok (findDataBlockEntry bytes version key sequence) ∧
    ∀ es, decodeDataBlock bytes version = .ok es → AcceptedBlock bytes version es :=
  ⟨Machine.decodeDataBlock_eq h version, Machine.findDataBlockEntry_eq h version key sequence,
    fun _ => decodeDataBlock_accepted⟩

/-- A block of two versions of one key. -/
theorem data_block_decoders_are_safe_encoded :
    ∃ bytes es, encodeDataBlock [⟨[97], 2, .value, [1]⟩, ⟨[97], 1, .tombstone, []⟩] 16 = .ok bytes ∧
      Machine.decodeDataBlock bytes kSstableVersion = .ok (.ok es) ∧
      AcceptedBlock bytes kSstableVersion es := by
  obtain ⟨bytes, hencode⟩ : ∃ bytes,
      encodeDataBlock [⟨[97], 2, .value, [1]⟩, ⟨[97], 1, .tombstone, []⟩] 16 = .ok bytes := ⟨_, rfl⟩
  have hblock := encodeDataBlock_eq_ok hencode
  have hdecode : decodeDataBlock bytes kSstableVersion =
      .ok [⟨[97], 2, .value, [1]⟩, ⟨[97], 1, .tombstone, []⟩] :=
    hblock.decode (by unfold SequencesFit; decide)
  have hlen : bytes.length < 2 ^ 32 := by
    rw [hblock.bytes_eq]
    decide +kernel
  obtain ⟨hsafe, -, haccepted⟩ := data_block_decoders_are_safe bytes hlen kSstableVersion [] 0
  exact ⟨bytes, _, hencode, by rw [hsafe, hdecode], haccepted _ hdecode⟩

end TinyLsm
