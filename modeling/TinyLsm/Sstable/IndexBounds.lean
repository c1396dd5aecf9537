import TinyLsm.Sstable.TableCodec

/-!
# The index decoded with machine integers

`DecodeIndex` with every read and every unsigned computation checked. The length check of an entry
subtracts the checksum and the position behind the entry header from the size of the section. The
header itself may lie over the checksum, and then the subtraction wraps.
-/

namespace TinyLsm

namespace Machine

open Faulting

/-- The four fields of an index entry; `DecodeIndex` stops at the first that is truncated. -/
def readIndexHeader (bytes : Bytes) (p : ℕ) : Faulting (Option (ℕ × ℕ × ℕ × ℕ)) :=
  bindSome (getFixed32 bytes p) fun first =>
    bindSome (do getFixed32 bytes (← add 64 p 4)) fun last =>
      bindSome (do getFixed64 bytes (← add 64 p 8)) fun offset =>
        bindSome (do getFixed64 bytes (← add 64 p 16)) fun size =>
          .ok (some (first, last, offset, size))

/-- The loop of `DecodeIndex` with `remaining` entries to read at position `p`. -/
def decodeBlockMetas (bytes : Bytes) :
    ℕ → ℕ → List BlockMeta → Faulting (Result (List BlockMeta × ℕ))
  | 0, p, out => .ok (.ok (out, p))
  | remaining + 1, p, out => do
    match ← readIndexHeader bytes p with
    | none => return .error (.corruption "index entry is truncated")
    | some (first, last, offset, size) =>
      let p ← add 64 p 24
      if (← sub (← sub bytes.length 4) p) < (← add 64 first last) then
        return .error (.corruption "index key length is invalid")
      let firstKey ← slice bytes p first
      let p ← add 64 p first
      let lastKey ← slice bytes p last
      let p ← add 64 p last
      if lastKey < firstKey ∨ (∃ l, out.getLast? = some l ∧ ¬ l.lastKey < firstKey) then
        return .error (.corruption "index key ranges overlap")
      decodeBlockMetas bytes remaining p (out ++ [⟨firstKey, lastKey, offset, size⟩])

/-- `DecodeIndex`. -/
def decodeIndex (bytes : Bytes) : Faulting (Result (List BlockMeta)) :=
  if bytes.length < 8 then .ok (.error (.corruption "index is truncated"))
  else do
    let expected := (← getFixed32 bytes (← sub bytes.length 4)).getD 0
    let count := (← getFixed32 bytes 0).getD 0
    if crc32c (← slice bytes 0 (← sub bytes.length 4)) ≠ expected then
      return .error (.corruption "index checksum mismatch")
    match ← decodeBlockMetas bytes count 4 [] with
    | .error s => return .error s
    | .ok (out, p) =>
      if p ≠ (← sub bytes.length 4) then
        return .error (.corruption "index has trailing bytes")
      return .ok out

/-! ## One round of the loop -/

/-- The index entry at a position. -/
def metaAt (bytes : Bytes) (p : ℕ) : BlockMeta where
  firstKey := (bytes.drop (p + 24)).take ((TinyLsm.getFixed32 bytes p).getD 0)
  lastKey := (bytes.drop (p + 24 + (TinyLsm.getFixed32 bytes p).getD 0)).take
    ((TinyLsm.getFixed32 bytes (p + 4)).getD 0)
  offset := (TinyLsm.getFixed64 bytes (p + 8)).getD 0
  size := (TinyLsm.getFixed64 bytes (p + 16)).getD 0

/-- The position behind it. -/
def metaEnd (bytes : Bytes) (p : ℕ) : ℕ :=
  p + 24 + (TinyLsm.getFixed32 bytes p).getD 0 + (TinyLsm.getFixed32 bytes (p + 4)).getD 0

/-- The keys of an entry are out of order, or not behind the entry before. -/
def Overlapping (out : List BlockMeta) (m : BlockMeta) : Prop :=
  m.lastKey < m.firstKey ∨ ∃ l, out.getLast? = some l ∧ ¬ l.lastKey < m.firstKey

instance (out : List BlockMeta) (m : BlockMeta) : Decidable (Overlapping out m) :=
  inferInstanceAs (Decidable (_ ∨ _))

variable {bytes : Bytes} {p remaining : ℕ} {out : List BlockMeta}

theorem readIndexHeader_eq (h : bytes.length < 2 ^ 64) (p : ℕ) :
    readIndexHeader bytes p = .ok (if p + 24 ≤ bytes.length then
      some ((TinyLsm.getFixed32 bytes p).getD 0, (TinyLsm.getFixed32 bytes (p + 4)).getD 0,
        (TinyLsm.getFixed64 bytes (p + 8)).getD 0, (TinyLsm.getFixed64 bytes (p + 16)).getD 0)
      else none) := by
  unfold readIndexHeader
  -- each position is computed behind a field that lies inside the section
  simp (disch := omega) only [bindSome_getFixed32 h, bindSome_getFixed64 h, add_of_lt, ok_bind]
  split_ifs <;> first | rfl | omega

theorem decodeBlockMetas_succ (h : bytes.length < 2 ^ 64) (h8 : 8 ≤ bytes.length) :
    decodeBlockMetas bytes (remaining + 1) p out =
      if bytes.length < p + 24 then .ok (.error (.corruption "index entry is truncated"))
      else if bytes.length < p + 28 then .error .wrapped
      else if bytes.length < metaEnd bytes p + 4 then
        .ok (.error (.corruption "index key length is invalid"))
      else if Overlapping out (metaAt bytes p) then
        .ok (.error (.corruption "index key ranges overlap"))
      else decodeBlockMetas bytes remaining (metaEnd bytes p) (out ++ [metaAt bytes p]) := by
  have hfirst : (TinyLsm.getFixed32 bytes p).getD 0 < 2 ^ 32 := LittleEndian.readAt_lt bytes _
  have hlast : (TinyLsm.getFixed32 bytes (p + 4)).getD 0 < 2 ^ 32 := LittleEndian.readAt_lt bytes _
  rw [decodeBlockMetas, readIndexHeader_eq h, ok_bind]
  by_cases h24 : bytes.length < p + 24
  · rw [if_neg (by omega), if_pos h24]
    rfl
  rw [if_pos (by omega), if_neg h24]
  dsimp only
  rw [add_of_lt (by omega), ok_bind, sub_of_le (by omega), ok_bind]
  by_cases h28 : bytes.length < p + 28
  · rw [sub, if_neg (by omega), if_pos h28]
    rfl
  rw [sub_of_le (by omega), ok_bind, add_of_lt (by omega), ok_bind, if_neg h28]
  unfold metaEnd
  by_cases hkeys : bytes.length < p + 24 + (TinyLsm.getFixed32 bytes p).getD 0 +
      (TinyLsm.getFixed32 bytes (p + 4)).getD 0 + 4
  · rw [if_pos (by omega), if_pos hkeys]
    rfl
  rw [if_neg (by omega), if_neg hkeys, slice_of_le (by omega), ok_bind, add_of_lt (by omega), ok_bind,
    slice_of_le (by omega), ok_bind, add_of_lt (by omega), ok_bind]
  rfl

/-- The same round of the plain loop, whose subtraction is taken modulo `2 ^ 64`. -/
theorem plain_decodeBlockMetas_succ :
    TinyLsm.decodeBlockMetas bytes (remaining + 1) p out =
      if bytes.length < p + 24 then .error (.corruption "index entry is truncated")
      else if (bytes.length + 2 ^ 64 - 4 - (p + 24)) % 2 ^ 64 <
          (TinyLsm.getFixed32 bytes p).getD 0 + (TinyLsm.getFixed32 bytes (p + 4)).getD 0 then
        .error (.corruption "index key length is invalid")
      else if Overlapping out (metaAt bytes p) then
        .error (.corruption "index key ranges overlap")
      else TinyLsm.decodeBlockMetas bytes remaining (metaEnd bytes p) (out ++ [metaAt bytes p]) := by
  rw [TinyLsm.decodeBlockMetas]
  split
  · rename_i first last offset size h1 h2 h3 h4
    have h24 : ¬ bytes.length < p + 24 := by
      intro hlt
      rw [TinyLsm.getFixed64, LittleEndian.readAt_eq_none_iff.mpr (by omega)] at h4
      cases h4
    rw [if_neg h24]
    simp only [metaAt, metaEnd, Overlapping, h1, h2, h3, h4, Option.getD_some]
  · rename_i hmissing
    rw [if_pos]
    by_contra h24
    have hread : ∀ {w off : ℕ}, off + w ≤ p + 24 → ∃ n, LittleEndian.readAt w bytes off = some n :=
      fun hle => ⟨_, LittleEndian.readAt_of_le (by omega)⟩
    obtain ⟨first, h1⟩ := hread (by omega : p + 4 ≤ p + 24)
    obtain ⟨last, h2⟩ := hread (by omega : p + 4 + 4 ≤ p + 24)
    obtain ⟨offset, h3⟩ := hread (by omega : p + 8 + 8 ≤ p + 24)
    obtain ⟨size, h4⟩ := hread (by omega : p + 16 + 8 ≤ p + 24)
    exact hmissing first last offset size h1 h2 h3 h4

/-- Where the loop does not fault, it is the plain loop. -/
theorem plain_of_decodeBlockMetas (h : bytes.length < 2 ^ 64) (h8 : 8 ≤ bytes.length)
    {r : Result (List BlockMeta × ℕ)} (hr : decodeBlockMetas bytes remaining p out = .ok r) :
    TinyLsm.decodeBlockMetas bytes remaining p out = r := by
  induction remaining generalizing p out with
  | zero => exact Except.ok.inj hr
  | succ remaining ih =>
    rw [decodeBlockMetas_succ h h8] at hr
    rw [plain_decodeBlockMetas_succ]
    split at hr
    · rw [if_pos ‹_›]
      exact Except.ok.inj hr
    rw [if_neg ‹_›]
    split at hr
    · cases hr
    rename_i h28
    have hsub : (bytes.length + 2 ^ 64 - 4 - (p + 24)) % 2 ^ 64 = bytes.length - (p + 28) := by
      have heq : bytes.length + 2 ^ 64 - 4 - (p + 24) = bytes.length - (p + 28) + 2 ^ 64 := by omega
      rw [heq, Nat.add_mod_right, Nat.mod_eq_of_lt (by omega)]
    rw [hsub]
    unfold metaEnd at hr ⊢
    split at hr
    · rw [if_pos (by omega)]
      exact Except.ok.inj hr
    rw [if_neg (by omega)]
    split at hr
    · rw [if_pos ‹_›]
      exact Except.ok.inj hr
    · rw [if_neg ‹_›]
      exact ih hr

/-- What `DecodeIndex` returns behind its loop. -/
def indexEnd (length : ℕ) : Result (List BlockMeta × ℕ) → Result (List BlockMeta)
  | .error s => .error s
  | .ok (out, p) =>
    if p ≠ length - 4 then .error (.corruption "index has trailing bytes") else .ok out

/-- The checksum of an index section is consistent. -/
def IndexChecked (bytes : Bytes) : Prop :=
  crc32c (bytes.take (bytes.length - 4)) =
    (TinyLsm.getFixed32 bytes (bytes.length - 4)).getD 0

theorem decodeIndex_of_checked (h : bytes.length < 2 ^ 64) (h8 : 8 ≤ bytes.length)
    (hcrc : IndexChecked bytes) :
    decodeIndex bytes =
      (decodeBlockMetas bytes ((TinyLsm.getFixed32 bytes 0).getD 0) 4 []).map
        (indexEnd bytes.length) := by
  have hcrc : ¬ crc32c (bytes.take (bytes.length - 4)) ≠
      (TinyLsm.getFixed32 bytes (bytes.length - 4)).getD 0 := not_not.mpr hcrc
  rw [decodeIndex, if_neg (not_lt.mpr h8)]
  simp only [sub_of_le (by omega : 4 ≤ bytes.length), ok_bind, getFixed32_eq h,
    slice_of_le (by omega : 0 + (bytes.length - 4) ≤ bytes.length), List.drop_zero, if_neg hcrc]
  rcases decodeBlockMetas bytes ((TinyLsm.getFixed32 bytes 0).getD 0) 4 [] with
    fault | s | ⟨out, p⟩
  · rfl
  · rfl
  · rw [ok_bind]
    dsimp only [Except.map, indexEnd]
    split <;> rfl

theorem plain_decodeIndex_of_checked (h8 : 8 ≤ bytes.length) (hcrc : IndexChecked bytes) :
    TinyLsm.decodeIndex bytes = indexEnd bytes.length
      (TinyLsm.decodeBlockMetas bytes ((TinyLsm.getFixed32 bytes 0).getD 0) 4 []) := by
  rw [TinyLsm.decodeIndex, if_neg (not_lt.mpr h8)]
  have hcrc : ¬ crc32c (bytes.take (bytes.length - 4)) ≠
      (TinyLsm.getFixed32 bytes (bytes.length - 4)).getD 0 := not_not.mpr hcrc
  dsimp only
  rw [if_neg hcrc]
  rcases TinyLsm.decodeBlockMetas bytes ((TinyLsm.getFixed32 bytes 0).getD 0) 4 [] with
    s | ⟨out, p⟩
  · rfl
  · rfl

/-- A section that is too short or whose checksum does not match is refused. -/
theorem decodeIndex_of_not_checked (h : bytes.length < 2 ^ 64)
    (hcrc : ¬ (8 ≤ bytes.length ∧ IndexChecked bytes)) :
    decodeIndex bytes = .ok (TinyLsm.decodeIndex bytes) ∧
      ∃ s, TinyLsm.decodeIndex bytes = .error s := by
  unfold decodeIndex TinyLsm.decodeIndex
  split
  · exact ⟨rfl, _, rfl⟩
  rename_i h8
  have hcrc : crc32c (bytes.take (bytes.length - 4)) ≠
      (TinyLsm.getFixed32 bytes (bytes.length - 4)).getD 0 := fun heq =>
    hcrc ⟨not_lt.mp h8, heq⟩
  simp only [sub_of_le (by omega : 4 ≤ bytes.length), ok_bind, getFixed32_eq h,
    slice_of_le (by omega : 0 + (bytes.length - 4) ≤ bytes.length), List.drop_zero, if_pos hcrc]
  exact ⟨rfl, _, rfl⟩

/-- Where `DecodeIndex` does not fault, it is the plain decoder. -/
theorem plain_of_decodeIndex (h : bytes.length < 2 ^ 64) {r : Result (List BlockMeta)}
    (hr : decodeIndex bytes = .ok r) : TinyLsm.decodeIndex bytes = r := by
  by_cases hcrc : 8 ≤ bytes.length ∧ IndexChecked bytes
  · rw [decodeIndex_of_checked h hcrc.1 hcrc.2] at hr
    rw [plain_decodeIndex_of_checked hcrc.1 hcrc.2]
    cases hloop : decodeBlockMetas bytes ((TinyLsm.getFixed32 bytes 0).getD 0) 4 [] with
    | error fault =>
      rw [hloop] at hr
      cases hr
    | ok result =>
      rw [hloop] at hr
      rw [plain_of_decodeBlockMetas h hcrc.1 hloop]
      exact Except.ok.inj hr
  · rw [(decodeIndex_of_not_checked h hcrc).1] at hr
    exact Except.ok.inj hr

/-! ## Encoded entries -/

/-- The keys of the blocks are in order. -/
def Separated (blocks : List BlockMeta) : Prop :=
  blocks.Pairwise fun a b => a.lastKey < b.firstKey

/-- An entry that lies inside the section is an encoded one. -/
theorem drop_eq_encodeBlockMeta (hend : metaEnd bytes p ≤ bytes.length) :
    bytes.drop p = encodeBlockMeta (metaAt bytes p) ++ bytes.drop (metaEnd bytes p) := by
  unfold metaEnd at hend ⊢
  set first := (TinyLsm.getFixed32 bytes p).getD 0 with hfirst
  set last := (TinyLsm.getFixed32 bytes (p + 4)).getD 0 with hlast
  have hkeys : bytes.drop (p + 24) = (bytes.drop (p + 24)).take first ++
      ((bytes.drop (p + 24 + first)).take last ++ bytes.drop (p + 24 + first + last)) := by
    have h1 := List.take_append_drop first (bytes.drop (p + 24))
    have h2 := List.take_append_drop last (bytes.drop (p + 24 + first))
    rw [List.drop_drop] at h1 h2
    rw [h2, h1]
  rw [drop_eq_putFixed32 (by omega : p + 4 ≤ bytes.length),
    drop_eq_putFixed32 (by omega : p + 4 + 4 ≤ bytes.length),
    drop_eq_putFixed64 (by omega : p + 8 + 8 ≤ bytes.length),
    drop_eq_putFixed64 (by omega : p + 16 + 8 ≤ bytes.length), hkeys, ← hfirst, ← hlast]
  have hl1 : ((bytes.drop (p + 24)).take first).length = first := by
    rw [List.length_take, List.length_drop]
    omega
  have hl2 : ((bytes.drop (p + 24 + first)).take last).length = last := by
    rw [List.length_take, List.length_drop]
    omega
  simp only [encodeBlockMeta, metaAt, ← hfirst, ← hlast, hl1, hl2, List.append_assoc]

theorem fits_metaAt (hle : ¬ (metaAt bytes p).lastKey < (metaAt bytes p).firstKey) :
    (metaAt bytes p).Fits where
  first_lt := (List.length_take_le _ _).trans_lt (LittleEndian.readAt_lt bytes p)
  last_lt := (List.length_take_le _ _).trans_lt (LittleEndian.readAt_lt bytes (p + 4))
  offset_lt := LittleEndian.readAt_lt bytes (p + 8)
  size_lt := LittleEndian.readAt_lt bytes (p + 16)
  keys_le := not_lt.mp hle

theorem BlockMeta.StoredAt.metaAt_eq {m : BlockMeta} (h : m.StoredAt bytes p) :
    metaAt bytes p = m ∧ metaEnd bytes p = p + (encodeBlockMeta m).length := by
  obtain ⟨h1, h2, h3, h4, h5, h6⟩ := h
  constructor
  · simp only [metaAt, h1, h2, h3, h4, Option.getD_some, h5, h6]
  · simp only [metaEnd, h1, h2, Option.getD_some, length_encodeBlockMeta]
    omega

theorem not_overlapping_iff {m : BlockMeta} (hfits : ∀ b ∈ out, b.Fits) (h : Separated out) :
    ¬ Overlapping out m ↔ m.firstKey ≤ m.lastKey ∧ Separated (out ++ [m]) := by
  unfold Overlapping
  rw [not_or, not_lt]
  refine and_congr_right fun _ => ⟨fun hlast => ?_, fun hsep => ?_⟩
  · refine List.pairwise_append.mpr ⟨h, List.pairwise_singleton _ _, fun a ha b hb => ?_⟩
    obtain rfl := List.mem_singleton.mp hb
    -- the last block bounds the ones before it
    obtain ⟨init, l, rfl⟩ := (List.eq_nil_or_concat' out).resolve_left (List.ne_nil_of_mem ha)
    have hl : l.lastKey < b.firstKey := by
      by_contra hnot
      exact hlast ⟨l, List.getLast?_concat, hnot⟩
    rcases List.mem_append.mp ha with ha | ha
    · have hinit := (List.pairwise_append.mp h).2.2 a ha l List.mem_cons_self
      exact hinit.trans_le ((hfits l (by simp)).keys_le.trans hl.le)
    · obtain rfl := List.mem_singleton.mp ha
      exact hl
  · rintro ⟨l, hl, hnot⟩
    exact hnot ((List.pairwise_append.mp hsep).2.2 l (List.mem_of_getLast? hl) m
      List.mem_cons_self)

/-- The loop passes over encoded entries. -/
theorem decodeBlockMetas_encoded (h : bytes.length < 2 ^ 64) {ms : List BlockMeta} {pre tail : Bytes}
    (hbytes : bytes = pre ++ (ms.flatMap encodeBlockMeta ++ tail)) (h4 : 4 ≤ pre.length)
    (htail : 4 ≤ tail.length) (hfits : ∀ m ∈ out ++ ms, m.Fits) (hsep : Separated (out ++ ms)) :
    decodeBlockMetas bytes (ms.length + remaining) pre.length out =
      decodeBlockMetas bytes remaining (pre.length + (ms.flatMap encodeBlockMeta).length)
        (out ++ ms) := by
  induction ms generalizing pre out with
  | nil => simp
  | cons m ms ih =>
    have hlay : bytes = pre ++ (encodeBlockMeta m ++ (ms.flatMap encodeBlockMeta ++ tail)) := by
      rw [hbytes, List.flatMap_cons, List.append_assoc]
    obtain ⟨hmeta, hend⟩ := BlockMeta.StoredAt.metaAt_eq
      ((hfits m (by simp)).storedAt hlay)
    have hlen : pre.length + (encodeBlockMeta m).length + 4 ≤ bytes.length := by
      rw [hlay]
      simp only [List.length_append]
      omega
    have hm := length_encodeBlockMeta m
    have hsplit : Separated ((out ++ [m]) ++ ms) := by simpa using hsep
    have hover : ¬ Overlapping out m := by
      refine (not_overlapping_iff (fun b hb => hfits b (by simp [hb])) ?_).mpr
        ⟨(hfits m (by simp)).keys_le, hsplit.sublist (List.sublist_append_left _ _)⟩
      exact hsep.sublist (List.sublist_append_left _ _)
    rw [List.length_cons, Nat.add_right_comm, decodeBlockMetas_succ h (by omega), hmeta, hend,
      if_neg (by omega), if_neg (by omega), if_neg (by omega), if_neg hover]
    have hrec := @ih (out ++ [m]) (pre ++ encodeBlockMeta m) (by rw [hlay]; simp)
      (by rw [List.length_append]; omega) (by simpa using hfits) hsplit
    rw [List.length_append] at hrec
    rw [hrec, List.flatMap_cons, List.length_append, List.append_assoc, Nat.add_assoc]
    rfl

/-- The entries behind the count that the loop has read. -/
structure ReadSoFar (bytes : Bytes) (p : ℕ) (out : List BlockMeta) : Prop where
  end_le : p + 4 ≤ bytes.length
  bytes_eq : bytes = bytes.take 4 ++ (out.flatMap encodeBlockMeta ++ bytes.drop p)
  fits : ∀ m ∈ out, m.Fits
  separated : Separated out

theorem ReadSoFar.step (hread : ReadSoFar bytes p out) (hend : metaEnd bytes p + 4 ≤ bytes.length)
    (hover : ¬ Overlapping out (metaAt bytes p)) :
    ReadSoFar bytes (metaEnd bytes p) (out ++ [metaAt bytes p]) where
  end_le := hend
  bytes_eq := by
    conv_lhs => rw [hread.bytes_eq, drop_eq_encodeBlockMeta (by omega)]
    simp
  fits m hm := by
    rcases List.mem_append.mp hm with hm | hm
    · exact hread.fits m hm
    · obtain rfl := List.mem_singleton.mp hm
      exact fits_metaAt fun hlt => hover (.inl hlt)
  separated := ((not_overlapping_iff hread.fits hread.separated).mp hover).2

/-- The loop fails, reads the remaining entries, or wraps at a header over the checksum. -/
theorem ReadSoFar.loop (h : bytes.length < 2 ^ 64) (hread : ReadSoFar bytes p out) (h4 : 4 ≤ p) :
    (∃ s, decodeBlockMetas bytes remaining p out = .ok (.error s)) ∨
    (∃ out' p', decodeBlockMetas bytes remaining p out = .ok (.ok (out', p')) ∧
      ReadSoFar bytes p' out' ∧ out'.length = out.length + remaining) ∨
    decodeBlockMetas bytes remaining p out = .error .wrapped ∧
      ∃ out' p', ReadSoFar bytes p' out' ∧ out'.length < out.length + remaining ∧
        p' + 24 ≤ bytes.length ∧ bytes.length < p' + 28 := by
  have hle := hread.end_le
  induction remaining generalizing p out with
  | zero => exact .inr (.inl ⟨out, p, rfl, hread, rfl⟩)
  | succ remaining ih =>
    rw [decodeBlockMetas_succ h (by omega)]
    split
    · exact .inl ⟨_, rfl⟩
    rename_i h24
    split
    · rename_i h28
      exact .inr (.inr ⟨rfl, out, p, hread, by omega, not_lt.mp h24, h28⟩)
    split
    · exact .inl ⟨_, rfl⟩
    rename_i hend
    split
    · exact .inl ⟨_, rfl⟩
    rename_i hover
    have hstep := hread.step (not_lt.mp hend) hover
    have hp : p + 24 ≤ metaEnd bytes p := by
      unfold metaEnd
      omega
    have hlen : ∀ n, (out ++ [metaAt bytes p]).length + n = out.length + (n + 1) := by
      intro n
      rw [List.length_append, List.length_singleton]
      omega
    have hrec := ih hstep (by omega) hstep.end_le
    rwa [hlen] at hrec

/-- A section that was read up to its checksum is the encoded one. -/
theorem ReadSoFar.encodeIndex_eq (hread : ReadSoFar bytes p out) (hend : p = bytes.length - 4)
    (hcount : (TinyLsm.getFixed32 bytes 0).getD 0 = out.length) (hcrc : IndexChecked bytes) :
    encodeIndex out = .ok bytes := by
  have h4 := hread.end_le
  have hfront : bytes.take 4 = putFixed32 out.length := by
    have hdrop := drop_eq_putFixed32 (by omega : 0 + 4 ≤ bytes.length)
    rw [hcount, List.drop_zero] at hdrop
    rw [hdrop, List.take_left' (length_putFixed32 _)]
  have hlast : bytes.drop p = putFixed32 (crc32c (bytes.take p)) := by
    have hdrop := drop_eq_putFixed32 (by omega : p + 4 ≤ bytes.length)
    rw [List.drop_of_length_le (by omega : bytes.length ≤ p + 4), List.append_nil] at hdrop
    rw [hdrop, hend]
    exact congrArg putFixed32 hcrc.symm
  have hbody : bytes.take p = putFixed32 out.length ++ out.flatMap encodeBlockMeta := by
    have hbytes := hread.bytes_eq
    rw [hfront, ← List.append_assoc] at hbytes
    have hsplit := (List.take_append_drop p bytes).trans hbytes
    exact List.append_cancel_right hsplit
  have hsize : ¬ ∃ b ∈ out, ¬ (fitsU32 b.firstKey.length ∧ fitsU32 b.lastKey.length) := by
    rintro ⟨b, hb, hnot⟩
    have hb := hread.fits b hb
    exact hnot (by simpa [fitsU32] using ⟨hb.first_lt, hb.last_lt⟩)
  rw [encodeIndex, if_neg hsize]
  dsimp only
  rw [← hbody, ← hlast, List.take_append_drop]

end Machine

open Machine

/-- The checksum is consistent, and behind well-formed entries, fewer than the count, the 24 header
bytes of the next one reach into the checksum. -/
def HeaderOverChecksum (b : Bytes) : Prop :=
  IndexChecked b ∧ ∃ metas tail, b = b.take 4 ++ (metas.flatMap encodeBlockMeta ++ tail) ∧
    (∀ m ∈ metas, m.Fits) ∧ Separated metas ∧ metas.length < (getFixed32 b 0).getD 0 ∧
    24 ≤ tail.length ∧ tail.length < 28

/-- `DecodeIndex` reads inside the section without a wrap, and accepts only encoded block lists with
increasing key ranges. -/
structure IndexExact (b : Bytes) : Prop where
  safe : Machine.decodeIndex b = .ok (decodeIndex b)
  exact : ∀ bs, decodeIndex b = .ok bs → encodeIndex bs = .ok b ∧
    (∀ m ∈ bs, m.firstKey ≤ m.lastKey) ∧ Separated bs

theorem HeaderOverChecksum.wraps {b : Bytes} (hb : b.length < 2 ^ 64) (h : HeaderOverChecksum b) :
    Machine.decodeIndex b = .error .wrapped := by
  obtain ⟨hcrc, metas, tail, hbytes, hfits, hsep, hcount, h24, h28⟩ := h
  have hlen := congrArg List.length hbytes
  simp only [List.length_append, List.length_take] at hlen
  have htake : (b.take 4).length = 4 := by
    rw [List.length_take]
    omega
  obtain ⟨rest, hrest⟩ := Nat.exists_eq_add_of_lt hcount
  have hloop : Machine.decodeBlockMetas b ((getFixed32 b 0).getD 0) 4 [] = .error .wrapped := by
    have hskip := @decodeBlockMetas_encoded b (rest + 1) [] hb metas (b.take 4) tail hbytes
      (by omega) (by omega) (by simpa using hfits) (by simpa using hsep)
    rw [htake, ← Nat.add_assoc, ← hrest] at hskip
    rw [hskip, decodeBlockMetas_succ hb (by omega), if_neg (by omega), if_pos (by omega)]
  rw [decodeIndex_of_checked hb (by omega) hcrc, hloop]
  rfl

theorem indexExact_of_not {b : Bytes} (hb : b.length < 2 ^ 64) (h : ¬ HeaderOverChecksum b) :
    IndexExact b := by
  by_cases hcrc : 8 ≤ b.length ∧ IndexChecked b
  · have hstart : ReadSoFar b 4 [] :=
      ⟨hcrc.1, by simp, by simp, List.Pairwise.nil⟩
    have hchecked := decodeIndex_of_checked hb hcrc.1 hcrc.2
    rcases @ReadSoFar.loop b 4 ((getFixed32 b 0).getD 0) [] hb hstart le_rfl with
      ⟨s, hloop⟩ | ⟨out, p, hloop, hread, hcount⟩ | ⟨-, out, p, hread, hcount, h24, h28⟩
    · rw [hloop] at hchecked
      have hplain := plain_of_decodeIndex hb hchecked
      exact ⟨by rw [hplain, hchecked]; rfl, fun bs hbs => by rw [hplain] at hbs; cases hbs⟩
    · rw [hloop] at hchecked
      have hplain := plain_of_decodeIndex hb hchecked
      refine ⟨by rw [hplain, hchecked]; rfl, fun bs hbs => ?_⟩
      rw [hplain, indexEnd] at hbs
      split at hbs
      · cases hbs
      rename_i hend
      obtain rfl := Except.ok.inj hbs
      refine ⟨hread.encodeIndex_eq (not_not.mp hend) ?_ hcrc.2, fun m hm => (hread.fits m hm).keys_le,
        hread.separated⟩
      rw [hcount, List.length_nil, Nat.zero_add]
    · refine absurd ⟨hcrc.2, out, b.drop p, hread.bytes_eq, hread.fits, hread.separated, ?_, ?_, ?_⟩ h
      · rwa [List.length_nil, Nat.zero_add] at hcount
      · rw [List.length_drop]
        omega
      · rw [List.length_drop]
        omega
  · obtain ⟨hsafe, s, hs⟩ := decodeIndex_of_not_checked hb hcrc
    exact ⟨hsafe, fun bs hbs => by rw [hs] at hbs; cases hbs⟩

theorem indexChecked_indexBytes (bs : List BlockMeta) : IndexChecked (indexBytes bs) := by
  obtain ⟨hsum, htake⟩ := getFixed32_checksum
    (putFixed32 bs.length ++ bs.flatMap encodeBlockMeta)
  change getFixed32 (indexBytes bs) ((indexBytes bs).length - 4) = _ at hsum
  change (indexBytes bs).take ((indexBytes bs).length - 4) = _ at htake
  rw [IndexChecked, htake, hsum, Option.getD_some]

/-- An encoded block list is read back without a fault. -/
theorem decodeIndex_encoded {bs : List BlockMeta} (hlen : (indexBytes bs).length < 2 ^ 64)
    (hcount : bs.length < 2 ^ 32) (hfits : ∀ m ∈ bs, m.Fits) (hsep : Separated bs) :
    Machine.decodeIndex (indexBytes bs) = .ok (.ok bs) := by
  set crc := putFixed32 (crc32c (putFixed32 bs.length ++ bs.flatMap encodeBlockMeta)) with hcrc
  have hlay : indexBytes bs = putFixed32 bs.length ++ (bs.flatMap encodeBlockMeta ++ crc) := by
    rw [indexBytes, List.append_assoc]
  have htotal : (indexBytes bs).length = 4 + (bs.flatMap encodeBlockMeta).length + 4 := by
    rw [hlay]
    simp only [List.length_append, length_putFixed32, hcrc]
    omega
  have hread : (getFixed32 (indexBytes bs) 0).getD 0 = bs.length := by
    rw [hlay, getFixed32_zero _ hcount, Option.getD_some]
  have hloop := @decodeBlockMetas_encoded _ 0 [] hlen bs _ _ hlay
    (by rw [length_putFixed32]) (by rw [hcrc, length_putFixed32]) (by simpa using hfits)
    (by simpa using hsep)
  rw [length_putFixed32, Nat.add_zero, List.nil_append] at hloop
  rw [decodeIndex_of_checked hlen (by omega) (indexChecked_indexBytes bs), hread, hloop]
  show Except.ok (indexEnd (indexBytes bs).length (.ok (bs, _))) = _
  rw [indexEnd, if_neg (by rw [not_not]; omega)]

/-- The index decoder is safe and exact on a byte string iff no entry header reaches into its
checksum, and it reads back every encoded block list. -/
theorem index_decoder_is_exact_iff (b : Bytes) (hb : b.length < 2 ^ 64) :
    (IndexExact b ↔ ¬ HeaderOverChecksum b) ∧
    ∀ bs : List BlockMeta, bs.length < 2 ^ 32 → (∀ m ∈ bs, m.Fits) → Separated bs →
      ∃ b, encodeIndex bs = .ok b ∧ (b.length < 2 ^ 64 → Machine.decodeIndex b = .ok (.ok bs)) := by
  refine ⟨⟨fun hexact hover => ?_, indexExact_of_not hb⟩,
    fun bs hcount hfits hsep => ⟨indexBytes bs, ?_, fun hlen =>
      decodeIndex_encoded hlen hcount hfits hsep⟩⟩
  · have hsafe := hexact.safe
    rw [hover.wraps hb] at hsafe
    cases hsafe
  · rw [encodeIndex, if_neg]
    · rfl
    · rintro ⟨m, hm, hnot⟩
      exact hnot (by simpa [fitsU32] using ⟨(hfits m hm).first_lt, (hfits m hm).last_lt⟩)

/-- Three blocks, the last of one key. -/
def threeBlocks : List BlockMeta :=
  [⟨[97], [98], 0, 7⟩, ⟨[99], [99, 1], 7, 9⟩, ⟨[100], [100], 16, 5⟩]

/-- Three blocks are read back. -/
theorem index_decoder_is_exact_three :
    ∃ b, encodeIndex threeBlocks = .ok b ∧ IndexExact b ∧
      Machine.decodeIndex b = .ok (.ok threeBlocks) := by
  have hall : ∀ m ∈ threeBlocks, m.firstKey.length < 2 ^ 32 ∧ m.lastKey.length < 2 ^ 32 ∧
      m.offset < 2 ^ 64 ∧ m.size < 2 ^ 64 ∧ m.firstKey ≤ m.lastKey := by decide
  have hfits : ∀ m ∈ threeBlocks, m.Fits := by
    intro m hm
    obtain ⟨hfirst, hlast, hoffset, hsize, hkeys⟩ := hall m hm
    exact ⟨hfirst, hlast, hoffset, hsize, hkeys⟩
  obtain ⟨b, henc, hdecode⟩ := (index_decoder_is_exact_iff [] (by decide)).2 threeBlocks (by decide)
    hfits (show List.Pairwise _ threeBlocks by decide)
  have hlen : b.length < 2 ^ 64 := by
    rw [(encodeIndex_eq_ok henc).1]
    decide +kernel
  refine ⟨b, henc, (index_decoder_is_exact_iff b hlen).1.mpr fun hover => ?_, hdecode hlen⟩
  have hwraps := hover.wraps hlen
  rw [hdecode hlen] at hwraps
  cases hwraps

/-- The body of a section of 28 bytes that promises one block with keys of one byte. -/
def overlappingBody : Bytes :=
  putFixed32 1 ++ (putFixed32 1 ++ (putFixed32 1 ++ (putFixed64 0 ++ putFixed32 0)))

/-- Its entry header lies over the checksum: the remaining size wraps, and the keys are read behind
the end of the section. -/
theorem index_decoder_wraps :
    ∃ b : Bytes, b.length = 28 ∧ ¬ IndexExact b ∧ Machine.decodeIndex b = .error .wrapped := by
  let b := overlappingBody ++ putFixed32 (crc32c overlappingBody)
  have hlen : b.length = 28 := rfl
  have hcrc : IndexChecked b := by
    obtain ⟨hsum, htake⟩ := getFixed32_checksum overlappingBody
    show crc32c (b.take (b.length - 4)) = (getFixed32 b (b.length - 4)).getD 0
    rw [htake, hsum, Option.getD_some]
  have hover : HeaderOverChecksum b := by
    refine ⟨hcrc, [], b.drop 4, by simp, by simp, List.Pairwise.nil, ?_, ?_, ?_⟩
    · have hone : getFixed32 b 0 = some 1 := getFixed32_zero 1 (by decide) _
      rw [hone]
      decide
    · rw [List.length_drop, hlen]
    · rw [List.length_drop, hlen]
      decide
  have hwraps := hover.wraps (by rw [hlen]; decide)
  refine ⟨b, hlen, fun hexact => ?_, hwraps⟩
  have hsafe := hexact.safe
  rw [hwraps] at hsafe
  cases hsafe

end TinyLsm
