import TinyLsm.Sstable.Format
import Mathlib.Data.List.Basic

/-!
# Version 2 data blocks read back

A v2 block is a sequence of restart groups. Inside a group every key is stored relative to the key
before it, and the first key of a group is stored whole, that is relative to the empty key; so a
group can be decoded from its restart offset alone. `restartGroups` cuts the entries where
`EncodeDataBlock` restarts, `groupBytes` are the bytes of one group, and the round trip of
`DecodeDataBlockV2` and the layout that `FindDataBlockEntry` searches follow from these.
-/

namespace TinyLsm

/-! ## Shared prefixes -/

theorem sharedPrefix_le_left (a b : Bytes) : sharedPrefix a b ≤ a.length := by
  induction a generalizing b with
  | nil => simp [sharedPrefix]
  | cons x a ih =>
    cases b with
    | nil => simp [sharedPrefix]
    | cons y b =>
      simp only [sharedPrefix]
      split
      · simpa using ih b
      · simp

theorem sharedPrefix_le_right (a b : Bytes) : sharedPrefix a b ≤ b.length := by
  induction a generalizing b with
  | nil => simp [sharedPrefix]
  | cons x a ih =>
    cases b with
    | nil => simp [sharedPrefix]
    | cons y b =>
      simp only [sharedPrefix]
      split
      · simpa using ih b
      · simp

theorem take_sharedPrefix (a b : Bytes) :
    a.take (sharedPrefix a b) = b.take (sharedPrefix a b) := by
  induction a generalizing b with
  | nil => simp [sharedPrefix]
  | cons x a ih =>
    cases b with
    | nil => simp [sharedPrefix]
    | cons y b =>
      simp only [sharedPrefix]
      split
      · rename_i h
        simp [h, ih b]
      · simp

@[simp] theorem sharedPrefix_nil (b : Bytes) : sharedPrefix [] b = 0 := by
  cases b <;> rfl

/-! ## Restart groups -/

/-- The restart groups of the entries from index `i` on: a group ends where the next index is a
multiple of the restart interval. -/
def restartGroups (restartInterval : ℕ) : ℕ → List InternalEntry → List (List InternalEntry)
  | _, [] => []
  | i, e :: es =>
    match restartGroups restartInterval (i + 1) es with
    | [] => [[e]]
    | g :: gs => if (i + 1) % restartInterval = 0 then [e] :: g :: gs else (e :: g) :: gs

/-- The bytes of the entries of one group behind the key `previous`. -/
def groupBytes : Bytes → List InternalEntry → Bytes
  | _, [] => []
  | previous, e :: es =>
    encodeV2Entry (sharedPrefix previous e.userKey) e ++ groupBytes e.userKey es

/-- The bytes of a sequence of restart groups. -/
def groupsBytes (groups : List (List InternalEntry)) : Bytes := groups.flatMap (groupBytes [])

/-- The offsets at which the groups start when the first one starts at `base`. -/
def groupOffsets : ℕ → List (List InternalEntry) → List ℕ
  | _, [] => []
  | base, g :: gs => base :: groupOffsets (base + (groupBytes [] g).length) gs

@[simp] theorem length_encodeV2Entry (shared : ℕ) (e : InternalEntry) :
    (encodeV2Entry shared e).length = 21 + (e.userKey.length - shared) + e.value.length := by
  simp only [encodeV2Entry, List.length_append, length_putFixed32, length_putFixed64,
    List.length_cons, List.length_nil, List.length_drop]
  omega

@[simp] theorem groupsBytes_nil : groupsBytes [] = [] := rfl

@[simp] theorem groupsBytes_cons (g : List InternalEntry) (gs : List (List InternalEntry)) :
    groupsBytes (g :: gs) = groupBytes [] g ++ groupsBytes gs := rfl

theorem groupsBytes_append (gs hs : List (List InternalEntry)) :
    groupsBytes (gs ++ hs) = groupsBytes gs ++ groupsBytes hs := List.flatMap_append

@[simp] theorem length_groupOffsets (base : ℕ) (gs : List (List InternalEntry)) :
    (groupOffsets base gs).length = gs.length := by
  induction gs generalizing base with
  | nil => rfl
  | cons g gs ih => simp [groupOffsets, ih]

theorem groupOffsets_append (base : ℕ) (gs hs : List (List InternalEntry)) :
    groupOffsets base (gs ++ hs) =
      groupOffsets base gs ++ groupOffsets (base + (groupsBytes gs).length) hs := by
  induction gs generalizing base with
  | nil => simp [groupOffsets]
  | cons g gs ih => simp [groupOffsets, ih, Nat.add_assoc]

theorem flatten_restartGroups (ri i : ℕ) (es : List InternalEntry) :
    (restartGroups ri i es).flatten = es := by
  induction es generalizing i with
  | nil => rfl
  | cons e es ih =>
    have h := ih (i + 1)
    simp only [restartGroups]
    split
    · rename_i hnil
      rw [hnil] at h
      simpa using h
    · rename_i g gs hcons
      rw [hcons] at h
      split <;> simpa using h

theorem restartGroups_ne_nil (ri i : ℕ) (es : List InternalEntry) :
    ∀ g ∈ restartGroups ri i es, g ≠ [] := by
  induction es generalizing i with
  | nil => simp [restartGroups]
  | cons e es ih =>
    have h := ih (i + 1)
    simp only [restartGroups]
    split
    · simp
    · rename_i g gs hcons
      rw [hcons] at h
      split
      · simpa using h
      · intro g' hg'
        rcases List.mem_cons.mp hg' with rfl | hg'
        · simp
        · exact h g' (List.mem_cons_of_mem _ hg')

theorem restartGroups_eq_nil_iff {ri i : ℕ} {es : List InternalEntry} :
    restartGroups ri i es = [] ↔ es = [] := by
  constructor
  · intro h
    rw [← flatten_restartGroups ri i es, h, List.flatten_nil]
  · rintro rfl
    rfl

/-! ## What the encoder writes -/

/-- The conditions under which `EncodeDataBlock` accepts the entries from index `i` on, behind the
entry `previous` and with `offset` bytes already written. -/
def EntriesFit (ri : ℕ) : ℕ → Option InternalEntry → ℕ → List InternalEntry → Prop
  | _, _, _, [] => True
  | i, previous, offset, e :: es =>
    (∀ p, previous = some p → InternalLess p e) ∧ (e.type = .tombstone → e.value = []) ∧
    offset < 2 ^ 32 ∧ sharedLength ri i previous e.userKey < 2 ^ 32 ∧
    e.userKey.length - sharedLength ri i previous e.userKey < 2 ^ 32 ∧ e.value.length < 2 ^ 32 ∧
    EntriesFit ri (i + 1) (some e)
      (offset + (encodeV2Entry (sharedLength ri i previous e.userKey) e).length) es

/-- The key an entry with index `i` is stored relative to. -/
def baseKey (ri i : ℕ) (previous : Option InternalEntry) : Bytes :=
  if i % ri = 0 then [] else previousKey previous

theorem sharedLength_eq (ri i : ℕ) (previous : Option InternalEntry) (key : Bytes) :
    sharedLength ri i previous key = sharedPrefix (baseKey ri i previous) key := by
  unfold sharedLength baseKey
  split <;> simp

/-- The bytes of groups whose first group continues behind the key `base`. -/
def continueBytes (base : Bytes) : List (List InternalEntry) → Bytes
  | [] => []
  | g :: gs => groupBytes base g ++ groupsBytes gs

/-- The offsets of the groups that start after the first, continued one. -/
def continueOffsets (base : Bytes) (offset : ℕ) : List (List InternalEntry) → List ℕ
  | [] => []
  | g :: gs => groupOffsets (offset + (groupBytes base g).length) gs

theorem continueBytes_nil (gs : List (List InternalEntry)) :
    continueBytes [] gs = groupsBytes gs := by
  cases gs <;> rfl

/-- The bytes of the entries from index `i` on start with those of the first entry. -/
theorem continueBytes_cons (ri i : ℕ) (previous : Option InternalEntry) (e : InternalEntry)
    (es : List InternalEntry) :
    continueBytes (baseKey ri i previous) (restartGroups ri i (e :: es)) =
      encodeV2Entry (sharedPrefix (baseKey ri i previous) e.userKey) e ++
        continueBytes (baseKey ri (i + 1) (some e)) (restartGroups ri (i + 1) es) := by
  simp only [restartGroups]
  cases hg : restartGroups ri (i + 1) es with
  | nil => simp [continueBytes, groupBytes]
  | cons g gs =>
    -- either the next entry restarts, or it continues behind this key
    by_cases hi : (i + 1) % ri = 0
    · simp [hi, continueBytes, groupBytes, baseKey]
    · simp [hi, continueBytes, groupBytes, baseKey, previousKey]

/-- A successful run of the encoder's loop has written the restart groups and their offsets. -/
theorem encodeEntries_eq_ok {ri i : ℕ} {previous : Option InternalEntry} {out : Bytes}
    {restarts : List ℕ} {es : List InternalEntry} {out' : Bytes} {restarts' : List ℕ}
    (h : encodeEntries ri i previous out restarts es = .ok (out', restarts')) :
    EntriesFit ri i previous out.length es ∧
    out' = out ++ continueBytes (baseKey ri i previous) (restartGroups ri i es) ∧
    restarts' = restarts ++ (if i % ri = 0 then groupOffsets out.length (restartGroups ri i es)
      else continueOffsets (previousKey previous) out.length (restartGroups ri i es)) := by
  induction es generalizing i previous out restarts with
  | nil =>
    simp only [encodeEntries, Except.ok.injEq, Prod.mk.injEq] at h
    obtain ⟨rfl, rfl⟩ := h
    simp [EntriesFit, restartGroups, continueBytes, groupOffsets, continueOffsets]
  | cons e es ih =>
    simp only [encodeEntries] at h
    split at h
    · cases h
    rename_i hord
    split at h
    · cases h
    rename_i hfit
    obtain ⟨hrest, hout, hrestarts⟩ := ih h
    have hfit' : out.length < 2 ^ 32 ∧ sharedLength ri i previous e.userKey < 2 ^ 32 ∧
        e.userKey.length - sharedLength ri i previous e.userKey < 2 ^ 32 ∧
        e.value.length < 2 ^ 32 := by
      simpa [fitsU32] using hfit
    have hless : ∀ p, previous = some p → InternalLess p e := by
      intro p hp
      by_contra hnot
      exact hord (.inl ⟨p, hp, hnot⟩)
    have htomb : e.type = .tombstone → e.value = [] := by
      intro ht
      by_contra hv
      exact hord (.inr ⟨ht, hv⟩)
    refine ⟨⟨hless, htomb, hfit'.1, hfit'.2.1, hfit'.2.2.1, hfit'.2.2.2, ?_⟩, ?_, ?_⟩
    · simpa using hrest
    · rw [hout, sharedLength_eq, continueBytes_cons, List.append_assoc]
    · rw [hrestarts]
      simp only [restartGroups, sharedLength_eq, List.length_append]
      cases hg : restartGroups ri (i + 1) es with
      | nil =>
        by_cases hi : i % ri = 0
        · by_cases hi' : (i + 1) % ri = 0 <;>
            simp [hi, hi', groupOffsets, continueOffsets]
        · by_cases hi' : (i + 1) % ri = 0 <;>
            simp [hi, hi', groupOffsets, continueOffsets]
      | cons g gs =>
        by_cases hi : i % ri = 0
        · by_cases hi' : (i + 1) % ri = 0
          · simp [hi, hi', groupOffsets, groupBytes, baseKey]
          · simp [hi, hi', groupOffsets, continueOffsets, groupBytes, baseKey, previousKey,
              Nat.add_assoc]
        · by_cases hi' : (i + 1) % ri = 0
          · simp [hi, hi', groupOffsets, continueOffsets, groupBytes, baseKey]
          · simp [hi, hi', continueOffsets, groupBytes, baseKey, previousKey, Nat.add_assoc]

/-! ## Reading one entry back -/

/-- The entry has a stored form behind the key `previous` that `DecodeV2Entry` accepts. -/
structure EntryFits (previous : Bytes) (e : InternalEntry) : Prop where
  sequence_pos : 0 < e.sequence
  sequence_lt : e.sequence < 2 ^ 64
  tombstone : e.type = .tombstone → e.value = []
  shared_lt : sharedPrefix previous e.userKey < 2 ^ 32
  unshared_lt : e.userKey.length - sharedPrefix previous e.userKey < 2 ^ 32
  value_lt : e.value.length < 2 ^ 32

/-- `DecodeV2Entry` reads an encoded entry back, given the key it was stored relative to. -/
theorem decodeV2Entry_encodeV2Entry {previous : Bytes} {e : InternalEntry}
    (h : EntryFits previous e) (pre post : Bytes) {position : ℕ} (entriesEnd : ℕ)
    (hpos : position = pre.length)
    (hend : position + (encodeV2Entry (sharedPrefix previous e.userKey) e).length ≤ entriesEnd) :
    decodeV2Entry (pre ++ (encodeV2Entry (sharedPrefix previous e.userKey) e ++ post)) position
      entriesEnd previous =
      some (e, position + (encodeV2Entry (sharedPrefix previous e.userKey) e).length) := by
  subst hpos
  set shared := sharedPrefix previous e.userKey with hshared
  have hle : shared ≤ previous.length := sharedPrefix_le_left _ _
  have hle' : shared ≤ e.userKey.length := sharedPrefix_le_right _ _
  rw [length_encodeV2Entry] at hend ⊢
  set enc := encodeV2Entry shared e ++ post with henc
  have hlay : enc = putFixed32 shared ++ (putFixed32 (e.userKey.length - shared) ++
      (putFixed64 e.sequence ++ ([e.type.toByte] ++ (putFixed32 e.value.length ++
        (e.userKey.drop shared ++ (e.value ++ post)))))) := by
    simp [henc, encodeV2Entry]
  have f1 : getFixed32 (pre ++ enc) pre.length = some shared := by
    rw [hlay]
    exact getFixed32_append _ h.shared_lt pre _ rfl
  have f2 : getFixed32 (pre ++ enc) (pre.length + 4) = some (e.userKey.length - shared) := by
    rw [getFixed32_append_right, hlay]
    exact getFixed32_append _ h.unshared_lt (putFixed32 shared) _ (by simp)
  have f3 : getFixed64 (pre ++ enc) (pre.length + 8) = some e.sequence := by
    rw [getFixed64_append_right, hlay, ← List.append_assoc (putFixed32 shared)]
    exact getFixed64_append _ h.sequence_lt _ _ (by simp)
  have f4 : getFixed32 (pre ++ enc) (pre.length + 17) = some e.value.length := by
    rw [getFixed32_append_right, hlay, ← List.append_assoc (putFixed32 shared),
      ← List.append_assoc _ (putFixed64 e.sequence), ← List.append_assoc _ [e.type.toByte]]
    exact getFixed32_append _ h.value_lt _ _ (by simp)
  have f5 : (pre ++ enc).getD (pre.length + 16) 0 = e.type.toByte := by
    rw [hlay, ← List.append_assoc (putFixed32 shared), ← List.append_assoc _ (putFixed64 e.sequence),
      ← List.append_assoc pre, List.getD_eq_getElem?_getD, List.getElem?_append_right (by simp)]
    simp
  have hbody : (pre ++ enc).drop (pre.length + 21) = e.userKey.drop shared ++ (e.value ++ post) := by
    rw [List.drop_length_add_append, hlay, ← List.append_assoc (putFixed32 shared),
      ← List.append_assoc _ (putFixed64 e.sequence), ← List.append_assoc _ [e.type.toByte],
      ← List.append_assoc _ (putFixed32 e.value.length)]
    exact List.drop_left' (by simp)
  have hbody' : (pre ++ enc).drop (pre.length + 21 + (e.userKey.length - shared)) =
      e.value ++ post := by
    rw [← List.drop_drop, hbody]
    exact List.drop_left' (by simp)
  have hkey : previous.take shared ++ e.userKey.drop shared = e.userKey := by
    rw [hshared, take_sharedPrefix, List.take_append_drop]
  have htakeKey : List.take (e.userKey.length - shared) (e.userKey.drop shared ++ (e.value ++ post))
      = e.userKey.drop shared := List.take_left' (by simp)
  have hguard : ¬ (previous.length < shared ∨ entriesEnd < pre.length ∨
      entriesEnd - pre.length < 21 ∨
      entriesEnd - pre.length - 21 < e.userKey.length - shared + e.value.length) := by omega
  have hzero : e.sequence ≠ 0 := h.sequence_pos.ne'
  simp only [decodeV2Entry, f1, f2, f3, f4, f5, hbody, hbody', htakeKey, hkey, hguard, hzero,
    Option.bind_eq_bind, Option.bind_some, ValueType.ofByte?_toByte, if_false,
    List.take_left]
  rw [if_neg (by rintro ⟨ht, hv⟩; exact hv (h.tombstone ht))]
  simp [Nat.add_assoc]

/-- Every entry of a group fits behind the entry before it; `previous` is the key before the
group. -/
def GroupFits : Bytes → List InternalEntry → Prop
  | _, [] => True
  | previous, e :: es => EntryFits previous e ∧ GroupFits e.userKey es

theorem groupBytes_length_pos (previous : Bytes) {g : List InternalEntry} (h : g ≠ []) :
    0 < (groupBytes previous g).length := by
  cases g with
  | nil => exact absurd rfl h
  | cons e es =>
    simp only [groupBytes, List.length_append, length_encodeV2Entry]
    omega

/-! ## Reading all entries back -/

/-- The last key of a group that continues behind the key `previous`. -/
def lastKeyOf : Bytes → List InternalEntry → Bytes
  | previous, [] => previous
  | _, e :: es => lastKeyOf e.userKey es

/-- One round of the decoding loop that accepts an entry. -/
theorem decodeV2Entries_succ {bytes : Bytes} {layout : V2BlockLayout}
    {position restartIndex : ℕ} {out : List InternalEntry} {e : InternalEntry} {next : ℕ} (n : ℕ)
    (previous : Bytes)
    (hentry : decodeV2Entry bytes position layout.entriesEnd
      (if layout.restarts[restartIndex]? = some position then [] else previous) = some (e, next))
    (hord : ∀ last, out.getLast? = some last → InternalLess last e) :
    decodeV2Entries bytes layout (n + 1) position restartIndex previous out =
      decodeV2Entries bytes layout n next
        (if layout.restarts[restartIndex]? = some position then restartIndex + 1 else restartIndex)
        e.userKey (out ++ [e]) := by
  simp only [decodeV2Entries, hentry]
  rw [if_neg]
  rintro ⟨last, hlast, hnot⟩
  exact hnot (hord last hlast)

theorem Ordered.getLast_less {out es : List InternalEntry} {e : InternalEntry}
    (h : Ordered (out ++ e :: es)) : ∀ last, out.getLast? = some last → InternalLess last e := by
  intro last hlast
  exact (List.pairwise_append.mp h).2.2 last (List.mem_of_getLast? hlast) e List.mem_cons_self

/-- The decoding loop over the rest of a group: no restart offset lies inside it. -/
theorem decodeV2Entries_group (bytes : Bytes) {layout : V2BlockLayout} (n restartIndex : ℕ)
    (g : List InternalEntry) :
    ∀ (pre : Bytes) (out : List InternalEntry) {previous tail : Bytes} {rest : List InternalEntry},
      bytes = pre ++ (groupBytes previous g ++ tail) →
      pre.length + (groupBytes previous g).length ≤ layout.entriesEnd →
      (∀ offset, layout.restarts[restartIndex]? = some offset →
        pre.length + (groupBytes previous g).length ≤ offset) →
      GroupFits previous g → Ordered (out ++ (g ++ rest)) →
      decodeV2Entries bytes layout (g.length + n) pre.length restartIndex previous out =
        decodeV2Entries bytes layout n (pre.length + (groupBytes previous g).length) restartIndex
          (lastKeyOf previous g) (out ++ g) := by
  induction g with
  | nil => intros; simp [groupBytes, lastKeyOf]
  | cons e es ih =>
    intro pre out previous tail rest hbytes hend hrestart hfit hord
    obtain ⟨he, hes⟩ := hfit
    simp only [groupBytes, List.length_append] at hend hrestart
    have hlen := length_encodeV2Entry (sharedPrefix previous e.userKey) e
    have hno : layout.restarts[restartIndex]? ≠ some pre.length := by
      intro h
      have := hrestart _ h
      omega
    have hentry := decodeV2Entry_encodeV2Entry he pre (groupBytes e.userKey es ++ tail)
      layout.entriesEnd rfl (by omega)
    have hsplit : bytes = pre ++ (encodeV2Entry (sharedPrefix previous e.userKey) e ++
        (groupBytes e.userKey es ++ tail)) := by
      simpa [groupBytes] using hbytes
    rw [← hsplit] at hentry
    have hstep := decodeV2Entries_succ (es.length + n) previous
      (by rw [if_neg hno]; exact hentry) (Ordered.getLast_less hord)
    rw [if_neg hno] at hstep
    have hcount : (e :: es).length + n = es.length + n + 1 := by simp; omega
    rw [hcount, hstep]
    have hrec := ih (pre ++ encodeV2Entry (sharedPrefix previous e.userKey) e) (out ++ [e])
      (by rw [hsplit, List.append_assoc]) (by rw [List.length_append]; omega)
      (by intro offset h; have := hrestart _ h; rw [List.length_append]; omega) hes
      (by simpa using hord)
    rw [List.length_append] at hrec
    simpa [groupBytes, lastKeyOf, Nat.add_assoc] using hrec

/-- The decoding loop over whole groups that starts at a restart offset: it returns all entries,
ends at the end of the entry area and has met every restart offset. -/
theorem decodeV2Entries_groups {bytes : Bytes} (layout : V2BlockLayout)
    (gs : List (List InternalEntry)) :
    ∀ (previous pre : Bytes) (restartIndex : ℕ) (out : List InternalEntry) {tail : Bytes},
      bytes = pre ++ (groupsBytes gs ++ tail) →
      layout.entriesEnd = pre.length + (groupsBytes gs).length →
      layout.restarts.drop restartIndex = groupOffsets pre.length gs →
      (∀ g ∈ gs, g ≠ [] ∧ GroupFits [] g) → Ordered (out ++ gs.flatten) →
      decodeV2Entries bytes layout gs.flatten.length pre.length restartIndex previous out =
        .ok (out ++ gs.flatten, layout.entriesEnd, restartIndex + gs.length) := by
  induction gs with
  | nil =>
    intro previous pre restartIndex out tail hbytes hend _ _ _
    simp [decodeV2Entries, hend]
  | cons g gs ih =>
    intro previous pre restartIndex out tail hbytes hend hrestarts hgs hord
    obtain ⟨hne, hfit⟩ := hgs g List.mem_cons_self
    cases g with
    | nil => exact absurd rfl hne
    | cons e es =>
      obtain ⟨he, hes⟩ := hfit
      simp only [groupsBytes_cons, groupBytes, List.length_append] at hend
      have hat : layout.restarts[restartIndex]? = some pre.length := by
        have := congrArg List.head? hrestarts
        simpa [groupOffsets] using this
      have hnext : layout.restarts.drop (restartIndex + 1) =
          groupOffsets (pre.length + (groupBytes [] (e :: es)).length) gs := by
        rw [← List.drop_drop, hrestarts]
        rfl
      have hentry := decodeV2Entry_encodeV2Entry he pre (groupBytes e.userKey es ++
        (groupsBytes gs ++ tail)) layout.entriesEnd rfl (by omega)
      have hsplit : bytes = pre ++ (encodeV2Entry (sharedPrefix [] e.userKey) e ++
          (groupBytes e.userKey es ++ (groupsBytes gs ++ tail))) := by
        simpa [groupBytes] using hbytes
      rw [← hsplit] at hentry
      have hord' : Ordered (out ++ [e] ++ (es ++ gs.flatten)) := by simpa using hord
      have hstep := decodeV2Entries_succ (es.length + gs.flatten.length) previous
        (by rw [if_pos hat]; exact hentry) (Ordered.getLast_less (by simpa using hord))
      rw [if_pos hat] at hstep
      have hcount : ((e :: es) :: gs).flatten.length = es.length + gs.flatten.length + 1 := by
        simp only [List.flatten_cons, List.length_append, List.length_cons]
        omega
      rw [hcount, hstep]
      -- the rest of the group, then the groups behind it
      set pre' := pre ++ encodeV2Entry (sharedPrefix [] e.userKey) e with hpre'
      have hpre'len : pre'.length = pre.length +
          (encodeV2Entry (sharedPrefix [] e.userKey) e).length := by simp [hpre']
      have hgroup := decodeV2Entries_group bytes gs.flatten.length (restartIndex + 1) es
        pre' (out ++ [e]) (by rw [hsplit, hpre', List.append_assoc]) (by rw [hend, hpre'len]; omega)
        (by
          intro offset hoff
          cases gs with
          | nil =>
            have := congrArg List.head? hnext
            simp [groupOffsets, hoff] at this
          | cons g' gs =>
            have := congrArg List.head? hnext
            rw [List.head?_drop, hoff] at this
            simp only [groupOffsets, List.head?_cons, Option.some.injEq, groupBytes,
              List.length_append] at this
            omega)
        hes hord'
      rw [hpre'len] at hgroup
      rw [hgroup]
      have hrec := ih (lastKeyOf e.userKey es) (pre' ++ groupBytes e.userKey es) (restartIndex + 1)
        (out ++ [e] ++ es)
        (by rw [hsplit, hpre']; simp only [List.append_assoc]; rfl)
        (by rw [hend, List.length_append, hpre'len]; omega)
        (by rw [hnext, List.length_append, hpre'len, groupBytes, List.length_append,
          Nat.add_assoc])
        (fun g' hg' => hgs g' (List.mem_cons_of_mem _ hg')) (by simpa using hord)
      rw [List.length_append, hpre'len] at hrec
      rw [hrec]
      simp only [List.flatten_cons, List.length_cons, List.append_assoc, List.cons_append,
        List.nil_append]
      rw [Nat.add_right_comm restartIndex 1, Nat.add_assoc]

/-! ## The layout of an encoded block -/

/-- The sequences a file can hold: 64-bit and not zero. -/
def SequencesFit (es : List InternalEntry) : Prop := ∀ e ∈ es, 0 < e.sequence ∧ e.sequence < 2 ^ 64

theorem EntriesFit.ordered {ri i offset : ℕ} {previous : Option InternalEntry}
    {es : List InternalEntry} (h : EntriesFit ri i previous offset es) :
    Ordered es ∧ ∀ p, previous = some p → ∀ e ∈ es, InternalLess p e := by
  induction es generalizing i previous offset with
  | nil => exact ⟨List.Pairwise.nil, by simp⟩
  | cons e es ih =>
    obtain ⟨hless, -, -, -, -, -, hrest⟩ := h
    obtain ⟨hord, hall⟩ := ih hrest
    refine ⟨List.Pairwise.cons (hall e rfl) hord, ?_⟩
    intro p hp e' he'
    rcases List.mem_cons.mp he' with rfl | he'
    · exact hless p hp
    · exact (hless p hp).trans (hall e rfl e' he')

/-- The offset check of the last entry bounds the number of entries. -/
theorem EntriesFit.length_lt {ri i offset : ℕ} {previous : Option InternalEntry}
    {es : List InternalEntry} (h : EntriesFit ri i previous offset es) (hne : es ≠ []) :
    offset + 21 * (es.length - 1) < 2 ^ 32 := by
  induction es generalizing i previous offset with
  | nil => exact absurd rfl hne
  | cons e es ih =>
    obtain ⟨-, -, hoff, -, -, -, hrest⟩ := h
    cases es with
    | nil => simpa using hoff
    | cons e' es =>
      have := ih hrest (by simp)
      rw [length_encodeV2Entry] at this
      simp only [List.length_cons] at this ⊢
      omega

/-- The first group continues behind `base`, the later ones stand on their own. -/
def GroupsFit (base : Bytes) : List (List InternalEntry) → Prop
  | [] => True
  | g :: gs => GroupFits base g ∧ ∀ g' ∈ gs, GroupFits [] g'

theorem EntriesFit.groupsFit {ri i offset : ℕ} {previous : Option InternalEntry}
    {es : List InternalEntry} (h : EntriesFit ri i previous offset es) (hseq : SequencesFit es) :
    GroupsFit (baseKey ri i previous) (restartGroups ri i es) := by
  induction es generalizing i previous offset with
  | nil => exact trivial
  | cons e es ih =>
    obtain ⟨-, htomb, -, hshared, hunshared, hvalue, hrest⟩ := h
    rw [sharedLength_eq] at hshared hunshared
    have hs := hseq e List.mem_cons_self
    have he : EntryFits (baseKey ri i previous) e :=
      ⟨hs.1, hs.2, htomb, hshared, hunshared, hvalue⟩
    have hrec := ih hrest (fun e' he' => hseq e' (List.mem_cons_of_mem _ he'))
    simp only [restartGroups]
    cases hg : restartGroups ri (i + 1) es with
    | nil => exact ⟨⟨he, trivial⟩, by simp⟩
    | cons g gs =>
      rw [hg] at hrec
      obtain ⟨hfirst, hothers⟩ := hrec
      by_cases hi : (i + 1) % ri = 0
      · simp only [hi, if_true]
        simp only [baseKey, hi, if_true] at hfirst
        exact ⟨⟨he, trivial⟩, List.forall_mem_cons.mpr ⟨hfirst, hothers⟩⟩
      · simp only [hi, if_false]
        simp only [baseKey, hi, if_false, previousKey] at hfirst
        exact ⟨⟨he, hfirst⟩, hothers⟩

/-- Every restart offset the encoder lists has passed its 32-bit check. -/
theorem encodeEntries_restarts_lt {ri i : ℕ} {previous : Option InternalEntry} {out : Bytes}
    {restarts : List ℕ} {es : List InternalEntry} {out' : Bytes} {restarts' : List ℕ}
    (h : encodeEntries ri i previous out restarts es = .ok (out', restarts'))
    (hr : ∀ r ∈ restarts, r < 2 ^ 32) : ∀ r ∈ restarts', r < 2 ^ 32 := by
  induction es generalizing i previous out restarts with
  | nil =>
    simp only [encodeEntries, Except.ok.injEq, Prod.mk.injEq] at h
    rwa [← h.2]
  | cons e es ih =>
    simp only [encodeEntries] at h
    split at h
    · cases h
    split at h
    · cases h
    rename_i hfit
    have hout : out.length < 2 ^ 32 := by
      have : fitsU32 out.length = true := by
        by_contra hno
        exact hfit (by simp [hno])
      simpa [fitsU32] using this
    refine ih h ?_
    split
    · intro r hmem
      rcases List.mem_append.mp hmem with hmem | hmem
      · exact hr r hmem
      · rw [List.mem_singleton.mp hmem]
        exact hout
    · exact hr

theorem groupOffsets_bounds {gs : List (List InternalEntry)} (hne : ∀ g ∈ gs, g ≠ []) (base : ℕ) :
    (groupOffsets base gs).Pairwise (· < ·) ∧
    ∀ o ∈ groupOffsets base gs, base ≤ o ∧ o < base + (groupsBytes gs).length := by
  induction gs generalizing base with
  | nil => exact ⟨List.Pairwise.nil, by simp [groupOffsets]⟩
  | cons g gs ih =>
    have hg := groupBytes_length_pos [] (hne g List.mem_cons_self)
    obtain ⟨hpair, hall⟩ := ih (fun g' hg' => hne g' (List.mem_cons_of_mem _ hg'))
      (base + (groupBytes [] g).length)
    simp only [groupOffsets, groupsBytes_cons, List.length_append]
    refine ⟨List.Pairwise.cons (fun o ho => ?_) hpair, fun o ho => ?_⟩
    · have := (hall o ho).1
      omega
    · rcases List.mem_cons.mp ho with rfl | ho
      · omega
      · have := hall o ho
        omega

theorem length_flatMap_putFixed32 (xs : List ℕ) :
    (xs.flatMap putFixed32).length = 4 * xs.length := by
  induction xs with
  | nil => rfl
  | cons x xs ih =>
    simp only [List.flatMap_cons, List.length_append, length_putFixed32, ih, List.length_cons]
    omega

/-- The restart loop reads a strictly increasing offset list back. -/
theorem parseRestarts_eq_ok {area : Bytes} (tail : Bytes) {restarts : List ℕ}
    (hlt : ∀ r ∈ restarts, r < 2 ^ 32 ∧ r < area.length) (hinc : restarts.Pairwise (· < ·)) :
    ∀ (rest done : List ℕ), restarts = done ++ rest →
      parseRestarts (area ++ (restarts.flatMap putFixed32 ++ tail)) area.length rest.length
        done.length done = .ok restarts := by
  intro rest
  induction rest with
  | nil => intro done h; simp [parseRestarts, h]
  | cons r rest ih =>
    intro done h
    have hmem : r ∈ restarts := by simp [h]
    have hread : getFixed32 (area ++ (restarts.flatMap putFixed32 ++ tail))
        (area.length + 4 * done.length) = some r := by
      rw [getFixed32_append_right, h, List.flatMap_append, List.flatMap_cons, List.append_assoc,
        List.append_assoc]
      exact getFixed32_append r (hlt r hmem).1 _ _ (length_flatMap_putFixed32 done).symm
    rw [List.length_cons, parseRestarts, hread]
    simp only [Option.getD_some]
    rw [if_neg]
    · have := ih (done ++ [r]) (by simp [h])
      simpa using this
    · rintro (hge | ⟨last, hlast, hle⟩)
      · exact absurd (hlt r hmem).2 (by omega)
      · rw [h] at hinc
        have := (List.pairwise_append.mp hinc).2.2 last (List.mem_of_getLast? hlast) r
          List.mem_cons_self
        omega

/-- The checksum behind a body, and the body before it. -/
theorem getFixed32_checksum (body : Bytes) :
    getFixed32 (body ++ putFixed32 (crc32c body))
        ((body ++ putFixed32 (crc32c body)).length - 4) = some (crc32c body) ∧
      (body ++ putFixed32 (crc32c body)).take
        ((body ++ putFixed32 (crc32c body)).length - 4) = body := by
  have hlen : (body ++ putFixed32 (crc32c body)).length - 4 = body.length := by simp
  rw [hlen]
  have := getFixed32_append (crc32c body) (crc32c_lt body) body [] rfl
  exact ⟨by simpa using this, List.take_left' rfl⟩

/-- `ParseV2BlockLayout` on a well-formed block body. -/
theorem parseV2BlockLayout_eq_ok {area : Bytes} {restarts : List ℕ} {n : ℕ} {bytes : Bytes}
    (hbytes : bytes = blockBody area restarts n ++ putFixed32 (crc32c (blockBody area restarts n)))
    (hlt : ∀ r ∈ restarts, r < 2 ^ 32 ∧ r < area.length) (hinc : restarts.Pairwise (· < ·))
    (hhead : restarts.head? = some 0) (hn : n < 2 ^ 32) (hcount : restarts.length ≤ n) :
    parseV2BlockLayout bytes = .ok ⟨area.length, restarts, n⟩ := by
  have hpos : 0 < restarts.length := by
    cases restarts with
    | nil => cases hhead
    | cons r rs => simp
  obtain ⟨hsum, htake⟩ := getFixed32_checksum (blockBody area restarts n)
  rw [← hbytes] at hsum htake
  set crc := putFixed32 (crc32c (blockBody area restarts n)) with hcrc
  have hflat := length_flatMap_putFixed32 restarts
  have hlay : bytes = area ++ (restarts.flatMap putFixed32 ++ (putFixed32 restarts.length ++
      (putFixed32 n ++ crc))) := by
    simp [hbytes, blockBody]
  have hlen : bytes.length = area.length + 4 * restarts.length + 12 := by
    rw [hlay]
    simp only [List.length_append, length_putFixed32, hflat, hcrc]
    omega
  have f1 : getFixed32 bytes (bytes.length - 12) = some restarts.length := by
    rw [hlen, hlay, ← List.append_assoc area]
    refine getFixed32_append _ (by omega) _ _ ?_
    rw [List.length_append, hflat]
    omega
  have f2 : getFixed32 bytes (bytes.length - 8) = some n := by
    rw [hlen, hlay, ← List.append_assoc area, ← List.append_assoc (area ++ _)]
    refine getFixed32_append _ hn _ _ ?_
    simp only [List.length_append, hflat, length_putFixed32]
    omega
  have hparse := parseRestarts_eq_ok (putFixed32 restarts.length ++ (putFixed32 n ++ crc)) hlt hinc
    restarts [] rfl
  rw [← hlay, List.length_nil] at hparse
  have hbegin : bytes.length - 12 - 4 * restarts.length = area.length := by omega
  unfold parseV2BlockLayout
  simp only [f1, f2, hsum, htake, Option.getD_some, hbegin, hparse]
  rw [if_neg (by omega), if_neg (by simp), if_neg (by omega), if_neg (by omega)]
  simp [hhead]

/-- The layout of the block of `es` with restart interval `ri`. -/
def blockLayout (ri : ℕ) (es : List InternalEntry) : V2BlockLayout :=
  ⟨(groupsBytes (restartGroups ri 0 es)).length, groupOffsets 0 (restartGroups ri 0 es), es.length⟩

/-- What `EncodeDataBlock` wrote, and what it relies on. -/
structure EncodedBlock (ri : ℕ) (es : List InternalEntry) (bytes : Bytes) : Prop where
  ne_nil : es ≠ []
  interval_pos : 0 < ri
  fit : EntriesFit ri 0 none 0 es
  restarts_lt : ∀ r ∈ groupOffsets 0 (restartGroups ri 0 es), r < 2 ^ 32
  bytes_eq : bytes =
    blockBody (groupsBytes (restartGroups ri 0 es)) (groupOffsets 0 (restartGroups ri 0 es))
        es.length ++
      putFixed32 (crc32c (blockBody (groupsBytes (restartGroups ri 0 es))
        (groupOffsets 0 (restartGroups ri 0 es)) es.length))

/-- A successful `EncodeDataBlock` has written the restart groups, their offsets and the counts. -/
theorem encodeDataBlock_eq_ok {es : List InternalEntry} {ri : ℕ} {bytes : Bytes}
    (h : encodeDataBlock es ri = .ok bytes) : EncodedBlock ri es bytes := by
  unfold encodeDataBlock at h
  split at h
  · cases h
  rename_i hne
  split at h
  · cases h
  rename_i hri
  split at h
  · cases h
  rename_i out restarts henc
  obtain ⟨hfit, hout, hrestarts⟩ := encodeEntries_eq_ok henc
  have hlt := encodeEntries_restarts_lt henc (by simp)
  simp only [Nat.zero_mod, baseKey, if_true, continueBytes_nil, List.nil_append] at hout
  simp only [Nat.zero_mod, if_true, List.nil_append, List.length_nil] at hrestarts
  subst hout hrestarts
  refine ⟨hne, Nat.pos_of_ne_zero hri, hfit, hlt, ?_⟩
  simpa using h.symm

theorem length_restartGroups_le (ri i : ℕ) (es : List InternalEntry) :
    (restartGroups ri i es).length ≤ es.length := by
  induction es generalizing i with
  | nil => rfl
  | cons e es ih =>
    have := ih (i + 1)
    simp only [restartGroups]
    split
    · simp
    · rename_i g gs hg
      rw [hg] at this
      split <;> simp at this ⊢ <;> omega

namespace EncodedBlock

variable {ri : ℕ} {es : List InternalEntry} {bytes : Bytes}

theorem groups_ne_nil (h : EncodedBlock ri es bytes) : restartGroups ri 0 es ≠ [] := by
  intro hnil
  exact h.ne_nil (restartGroups_eq_nil_iff.mp hnil)

theorem ordered (h : EncodedBlock ri es bytes) : Ordered es := h.fit.ordered.1

/-- `ParseV2BlockLayout` finds the restart offsets and the counts the encoder wrote. -/
theorem parse_layout (h : EncodedBlock ri es bytes) :
    parseV2BlockLayout bytes = .ok (blockLayout ri es) := by
  obtain ⟨hinc, hbounds⟩ := groupOffsets_bounds (restartGroups_ne_nil ri 0 es) 0
  refine parseV2BlockLayout_eq_ok h.bytes_eq (fun r hr => ⟨h.restarts_lt r hr, ?_⟩) hinc ?_ ?_ ?_
  · have := (hbounds r hr).2
    omega
  · cases hgs : restartGroups ri 0 es with
    | nil => exact absurd hgs h.groups_ne_nil
    | cons g gs => rfl
  · have := h.fit.length_lt h.ne_nil
    omega
  · rw [length_groupOffsets]
    exact length_restartGroups_le ri 0 es

theorem groups_fit (h : EncodedBlock ri es bytes) (hseq : SequencesFit es) :
    ∀ g ∈ restartGroups ri 0 es, g ≠ [] ∧ GroupFits [] g := by
  intro g hg
  refine ⟨restartGroups_ne_nil ri 0 es g hg, ?_⟩
  have hfit := h.fit.groupsFit hseq
  cases hgs : restartGroups ri 0 es with
  | nil => rw [hgs] at hg; cases hg
  | cons g' gs =>
    rw [hgs] at hfit hg
    simp only [baseKey, Nat.zero_mod, if_true] at hfit
    exact (List.forall_mem_cons.mpr hfit) g hg

/-- The entry area stands at the front of the block. -/
theorem exists_tail (h : EncodedBlock ri es bytes) :
    ∃ tail, bytes = groupsBytes (restartGroups ri 0 es) ++ tail := by
  rw [h.bytes_eq, blockBody, List.append_assoc]
  exact ⟨_, rfl⟩

/-- `DecodeDataBlockV2` reads back what `EncodeDataBlock` wrote. -/
theorem decode (h : EncodedBlock ri es bytes) (hseq : SequencesFit es) :
    decodeDataBlockV2 bytes = .ok es := by
  obtain ⟨tail, htail⟩ := h.exists_tail
  have hflat := flatten_restartGroups ri 0 es
  have hdecode := decodeV2Entries_groups (blockLayout ri es) (restartGroups ri 0 es) [] [] 0 []
    htail (by simp [blockLayout]) rfl (h.groups_fit hseq)
    (by simpa [hflat] using h.ordered)
  rw [hflat] at hdecode
  simp only [List.length_nil, List.nil_append, Nat.zero_add] at hdecode
  have hcount : (blockLayout ri es).entryCount = es.length := rfl
  have hrestarts : (blockLayout ri es).restarts.length = (restartGroups ri 0 es).length :=
    length_groupOffsets 0 _
  simp [decodeDataBlockV2, h.parse_layout, hcount, hdecode, hrestarts]

theorem decodeDataBlock (h : EncodedBlock ri es bytes) (hseq : SequencesFit es) :
    TinyLsm.decodeDataBlock bytes kSstableVersion = .ok es := by
  rw [TinyLsm.decodeDataBlock, if_neg (by decide), if_pos rfl]
  exact h.decode hseq

end EncodedBlock

end TinyLsm
