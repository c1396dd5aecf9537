import TinyLsm.Sstable.BlockCodec

/-!
# The point search of a v2 block

`FindDataBlockEntry` looks for the last restart group whose first key is at most the wanted key and
scans that group alone. `EncodedBlock.find_eq` says which group that is on an encoded block, and
`EncodedBlock.find_eq_iff` when the answer is the one a scan of the whole block gives: the versions
of one key may straddle restart points, and then the search lands behind the newest of them.
-/

namespace TinyLsm

/-! ## Scanning one group -/

/-- The result of a point lookup that found `entry?`. -/
def versionResult : Option InternalEntry → Result InternalEntry
  | some e => .ok e
  | none => .error (.notFound "key has no visible version")

theorem versionResult_injective : Function.Injective versionResult := by
  rintro (_ | e) (_ | e') heq
  · rfl
  · cases heq
  · cases heq
  · exact congrArg some (Except.ok.inj heq)

/-- An entry takes at least 21 bytes and ends inside the entry area. -/
theorem decodeV2Entry_bounds {bytes previous : Bytes} {position entriesEnd next : ℕ}
    {e : InternalEntry} (h : decodeV2Entry bytes position entriesEnd previous = some (e, next)) :
    position + 21 ≤ next ∧ next ≤ entriesEnd := by
  simp only [decodeV2Entry, Option.bind_eq_bind, Option.bind_eq_some_iff] at h
  obtain ⟨shared, -, unshared, -, sequence, -, valueSize, -, h⟩ := h
  split at h
  · cases h
  rename_i hfits
  obtain ⟨type, -, h⟩ := Option.bind_eq_some_iff.mp h
  split at h
  · cases h
  split at h
  · cases h
  obtain ⟨-, rfl⟩ := Prod.mk.inj (Option.some.inj h)
  omega

/-- The entries that are stored one behind the other from a position to another one; the first key is
stored against `previous`. -/
inductive GroupAt (bytes : Bytes) (entriesEnd : ℕ) : ℕ → Bytes → List InternalEntry → ℕ → Prop
  | nil {position previous} : GroupAt bytes entriesEnd position previous [] position
  | cons {position previous e next g groupEnd}
      (hentry : decodeV2Entry bytes position entriesEnd previous = some (e, next))
      (hrest : GroupAt bytes entriesEnd next e.userKey g groupEnd) :
      GroupAt bytes entriesEnd position previous (e :: g) groupEnd

namespace GroupAt

variable {bytes previous : Bytes} {entriesEnd position groupEnd : ℕ} {g : List InternalEntry}

theorem exists_cons (h : GroupAt bytes entriesEnd position previous g groupEnd) (hne : g ≠ []) :
    ∃ e next rest, g = e :: rest ∧
      decodeV2Entry bytes position entriesEnd previous = some (e, next) := by
  cases h with
  | nil => exact absurd rfl hne
  | cons hentry _ => exact ⟨_, _, _, rfl, hentry⟩

theorem length_le (h : GroupAt bytes entriesEnd position previous g groupEnd) :
    position + g.length ≤ groupEnd := by
  induction h with
  | nil => exact le_rfl
  | cons hentry _ ih =>
    have hbounds := decodeV2Entry_bounds hentry
    rw [List.length_cons]
    omega

/-- The group loop finds the first visible version inside the group. -/
theorem scan {layout : V2BlockLayout} (key : Bytes) (sequence : ℕ)
    (h : GroupAt bytes layout.entriesEnd position previous g groupEnd) (hord : Ordered g) {fuel : ℕ}
    (hfuel : g.length ≤ fuel) :
    scanRestartGroup bytes layout key sequence groupEnd fuel position previous =
      versionResult (findVersion g key sequence) := by
  induction h generalizing fuel with
  | nil =>
    cases fuel with
    | zero => rfl
    | succ fuel =>
      rw [scanRestartGroup, if_neg (lt_irrefl _)]
      rfl
  | @cons position previous e next g groupEnd hentry hrest ih =>
    obtain ⟨hless, hord'⟩ := List.pairwise_cons.mp hord
    obtain ⟨fuel, rfl⟩ : ∃ n, fuel = n + 1 := ⟨fuel - 1, by simp at hfuel; omega⟩
    have hbounds := decodeV2Entry_bounds hentry
    have hle := hrest.length_le
    have hrec := ih hord' (by simpa using hfuel)
    rw [scanRestartGroup, if_pos (by omega), hentry]
    simp only [hrec]
    rw [if_neg (by omega), findVersion_cons]
    rcases lt_trichotomy e.userKey key with hlt | heq | hgt
    · rw [if_pos hlt, if_neg (by simp [hlt.ne])]
    · rw [if_neg (by simp [heq]), if_neg (by simp [heq])]
      by_cases hs : e.sequence ≤ sequence
      · rw [if_pos hs, if_pos (by simp [heq, hs])]
        rfl
      · rw [if_neg hs, if_neg (by simp [hs])]
    · -- all later keys of the group are larger still
      rw [if_neg (by exact not_lt.mpr hgt.le), if_pos hgt, if_neg (by simp [hgt.ne'])]
      rw [findVersion_eq_none_of_ne]
      · rfl
      · intro e' he' hkey
        have := (hless e' he').key_le
        exact absurd (hgt.trans_le this) (by simp [hkey])

end GroupAt

/-- The encoded entries of a group are stored one behind the other. -/
theorem groupAt_groupBytes {bytes : Bytes} {entriesEnd : ℕ} (g : List InternalEntry) :
    ∀ {previous pre tail : Bytes}, bytes = pre ++ (groupBytes previous g ++ tail) →
      pre.length + (groupBytes previous g).length ≤ entriesEnd → GroupFits previous g →
      GroupAt bytes entriesEnd pre.length previous g (pre.length + (groupBytes previous g).length) := by
  induction g with
  | nil => exact fun _ _ _ => .nil
  | cons e es ih =>
    intro previous pre tail hbytes hend hfit
    obtain ⟨he, hes⟩ := hfit
    simp only [groupBytes, List.length_append] at hend
    have hsplit : bytes = pre ++ (encodeV2Entry (sharedPrefix previous e.userKey) e ++
        (groupBytes e.userKey es ++ tail)) := by
      simpa [groupBytes] using hbytes
    have hentry := decodeV2Entry_encodeV2Entry he pre (groupBytes e.userKey es ++ tail)
      entriesEnd rfl (by omega)
    rw [← hsplit] at hentry
    have hshift : bytes = (pre ++ encodeV2Entry (sharedPrefix previous e.userKey) e) ++
        (groupBytes e.userKey es ++ tail) := by
      rw [hsplit, List.append_assoc]
    have hrec := ih hshift (by rw [List.length_append]; omega) hes
    refine .cons hentry ?_
    rw [List.length_append, Nat.add_assoc] at hrec
    rw [groupBytes, List.length_append]
    exact hrec

theorem length_le_groupBytes (previous : Bytes) (g : List InternalEntry) :
    g.length ≤ (groupBytes previous g).length := by
  induction g generalizing previous with
  | nil => simp
  | cons e es ih =>
    have := ih e.userKey
    simp only [groupBytes, List.length_append, length_encodeV2Entry, List.length_cons]
    omega

/-! ## Blocks in groups -/

/-- The first key of a group. -/
def groupKey (g : List InternalEntry) : Bytes := previousKey g.head?

/-- The place of a group in a sequence of groups. -/
theorem groups_split {gs : List (List InternalEntry)} {i : ℕ} {g : List InternalEntry}
    (h : gs[i]? = some g) : gs = gs.take i ++ g :: gs.drop (i + 1) := by
  obtain ⟨hi, rfl⟩ := List.getElem?_eq_some_iff.mp h
  rw [← List.drop_eq_getElem_cons hi, List.take_append_drop]

theorem groupOffsets_getElem? {gs : List (List InternalEntry)} {i : ℕ} {g : List InternalEntry}
    (h : gs[i]? = some g) : (groupOffsets 0 gs)[i]? = some (groupsBytes (gs.take i)).length := by
  obtain ⟨hi, -⟩ := List.getElem?_eq_some_iff.mp h
  conv_lhs => rw [groups_split h, groupOffsets_append]
  have hlen : (groupOffsets 0 (gs.take i)).length = i := by
    rw [length_groupOffsets, List.length_take]
    omega
  rw [List.getElem?_append_right (by omega), hlen]
  simp [groupOffsets]

/-- The entries of a group come before those of the groups behind it. -/
theorem groups_less {gs : List (List InternalEntry)} (hord : Ordered gs.flatten) {i j : ℕ}
    {g g' : List InternalEntry} (hi : gs[i]? = some g) (hj : gs[j]? = some g') (hij : i < j) :
    ∀ a ∈ g, ∀ b ∈ g', InternalLess a b := by
  obtain ⟨hilt, rfl⟩ := List.getElem?_eq_some_iff.mp hi
  obtain ⟨hjlt, rfl⟩ := List.getElem?_eq_some_iff.mp hj
  exact List.pairwise_iff_getElem.mp (List.pairwise_flatten.mp hord).2 i j hilt hjlt hij

theorem group_ordered {gs : List (List InternalEntry)} (hord : Ordered gs.flatten) {i : ℕ}
    {g : List InternalEntry} (hg : gs[i]? = some g) : Ordered g :=
  (List.pairwise_flatten.mp hord).1 g (List.mem_of_getElem? hg)

/-- The first keys of the groups of ordered entries do not decrease. -/
theorem groupKey_mono {gs : List (List InternalEntry)} (hord : Ordered gs.flatten)
    (hne : ∀ g ∈ gs, g ≠ []) {i j : ℕ} {g g' : List InternalEntry} (hij : i ≤ j)
    (hi : gs[i]? = some g) (hj : gs[j]? = some g') : groupKey g ≤ groupKey g' := by
  rcases Nat.lt_or_eq_of_le hij with hlt | rfl
  · have hless := groups_less hord hi hj hlt
    cases g with
    | nil => exact absurd rfl (hne _ (List.mem_of_getElem? hi))
    | cons e rest =>
      cases g' with
      | nil => exact absurd rfl (hne _ (List.mem_of_getElem? hj))
      | cons e' rest' => exact (hless e List.mem_cons_self e' List.mem_cons_self).key_le
  · rw [hi] at hj
    cases hj
    exact le_rfl

/-- A v2 block whose entries are stored in groups that begin at its restarts. -/
structure GroupedBlock (bytes : Bytes) (layout : V2BlockLayout) (gs : List (List InternalEntry)) :
    Prop where
  parsed : parseV2BlockLayout bytes = .ok layout
  length_eq : layout.restarts.length = gs.length
  ne_nil : gs ≠ []
  nonempty : ∀ g ∈ gs, g ≠ []
  ordered : Ordered gs.flatten
  group : ∀ i g, gs[i]? = some g →
    GroupAt bytes layout.entriesEnd (layout.restarts.getD i 0) [] g
      (if i + 1 = gs.length then layout.entriesEnd else layout.restarts.getD (i + 1) 0)

namespace GroupedBlock

variable {bytes : Bytes} {layout : V2BlockLayout} {gs : List (List InternalEntry)}

/-- The `restart_key` lambda decodes the first entry of the group. -/
theorem restart_entry (h : GroupedBlock bytes layout gs) {i : ℕ} {g : List InternalEntry}
    (hg : gs[i]? = some g) : ∃ e rest next, g = e :: rest ∧
      decodeV2Entry bytes (layout.restarts.getD i 0) layout.entriesEnd [] = some (e, next) ∧
      restartKey bytes layout i = .ok (groupKey g) := by
  have hne := h.nonempty g (List.mem_of_getElem? hg)
  obtain ⟨e, next, rest, rfl, hentry⟩ := (h.group i g hg).exists_cons hne
  have hbounds := decodeV2Entry_bounds hentry
  refine ⟨e, rest, next, rfl, hentry, ?_⟩
  simp only [restartKey, hentry]
  rw [if_neg (by omega)]
  rfl

/-- The binary search returns the number of groups whose first key is at most `key`. -/
theorem searchRestarts_eq (h : GroupedBlock bytes layout gs) (key : Bytes) (fuel : ℕ) :
    ∀ (first last : ℕ), first ≤ last → last ≤ gs.length → last - first ≤ fuel →
      (∀ i g, i < first → gs[i]? = some g → groupKey g ≤ key) →
      (∀ i g, last ≤ i → gs[i]? = some g → key < groupKey g) →
      ∃ r, searchRestarts bytes layout key fuel first last = .ok r ∧ r ≤ gs.length ∧
        (∀ i g, i < r → gs[i]? = some g → groupKey g ≤ key) ∧
        (∀ i g, r ≤ i → gs[i]? = some g → key < groupKey g) := by
  induction fuel with
  | zero =>
    intro first last hle hlast hfuel hlow hhigh
    obtain rfl : first = last := by omega
    exact ⟨first, rfl, hlast, hlow, hhigh⟩
  | succ fuel ih =>
    intro first last hle hlast hfuel hlow hhigh
    by_cases hlt : first < last
    · set middle := first + (last - first) / 2 with hmiddle
      have hm : middle < gs.length := by omega
      have hg : gs[middle]? = some gs[middle] := List.getElem?_eq_getElem hm
      obtain ⟨-, -, -, -, -, hrestart⟩ := h.restart_entry hg
      simp only [searchRestarts, hlt, if_true, ← hmiddle, hrestart]
      by_cases hkey : key < groupKey gs[middle]
      · rw [if_neg (by simpa using hkey)]
        refine ih _ _ (by omega) (by omega) (by omega) hlow fun i g hi hgi => ?_
        exact hkey.trans_le (groupKey_mono h.ordered h.nonempty hi hg hgi)
      · rw [if_pos hkey]
        refine ih _ _ (by omega) hlast (by omega) (fun i g hi hgi => ?_) hhigh
        exact (groupKey_mono h.ordered h.nonempty (by omega) hgi hg).trans (not_lt.mp hkey)
    · obtain rfl : first = last := by omega
      refine ⟨first, ?_, hlast, hlow, hhigh⟩
      simp [searchRestarts]

/-- `FindDataBlockEntry` scans one group: the last one whose first key is at most the wanted key, or
the first one of all. -/
theorem find_eq (h : GroupedBlock bytes layout gs) (key : Bytes) :
    ∃ k g, gs[k]? = some g ∧ (k ≠ 0 → groupKey g ≤ key) ∧
      (∀ i g', k < i → gs[i]? = some g' → key < groupKey g') ∧
      ∀ sequence, findDataBlockEntry bytes kSstableVersion key sequence =
        versionResult (findVersion g key sequence) := by
  obtain ⟨r, hsearch, hr, hlow, hhigh⟩ := h.searchRestarts_eq key gs.length 0 gs.length
    (by omega) le_rfl (by omega) (by intro i g hi; omega)
    (by
      intro i g hi hg
      obtain ⟨hlt, -⟩ := List.getElem?_eq_some_iff.mp hg
      omega)
  set k := if r = 0 then 0 else r - 1 with hk
  have hpos : 0 < gs.length := List.length_pos_of_ne_nil h.ne_nil
  have hklt : k < gs.length := by rw [hk]; split <;> omega
  have hg : gs[k]? = some gs[k] := List.getElem?_eq_getElem hklt
  refine ⟨k, gs[k], hg, fun hk0 => hlow k _ ?_ hg, fun i g' hi hgi => hhigh i g' ?_ hgi,
    fun sequence => ?_⟩
  · rw [hk] at hk0 ⊢
    split at hk0 <;> split <;> omega
  · rw [hk] at hi
    split at hi <;> omega
  · have hgroup := h.group k _ hg
    have hordered : Ordered gs[k] := group_ordered h.ordered hg
    have hlength := hgroup.length_le
    unfold findDataBlockEntry
    rw [if_neg (by decide), if_neg (by decide), h.parsed]
    simp only [h.length_eq, hsearch, ← hk]
    exact hgroup.scan key sequence hordered (by omega)

/-- Behind a group whose first key is larger than the wanted one there are only larger keys. -/
theorem key_lt_of_mem (h : GroupedBlock bytes layout gs) {key : Bytes} {k : ℕ}
    (hbehind : ∀ i g', k < i → gs[i]? = some g' → key < groupKey g') {e : InternalEntry}
    (he : e ∈ (gs.drop (k + 1)).flatten) : key < e.userKey := by
  obtain ⟨g, hg, heg⟩ := List.mem_flatten.mp he
  obtain ⟨j, hj⟩ := List.mem_iff_getElem?.mp hg
  rw [List.getElem?_drop] at hj
  refine (hbehind _ g (by omega) hj).trans_le ?_
  have hordered := group_ordered h.ordered hj
  cases g with
  | nil => cases heg
  | cons e₀ rest =>
    rcases List.mem_cons.mp heg with rfl | heg
    · exact le_rfl
    · exact ((List.pairwise_cons.mp hordered).1 e heg).key_le

end GroupedBlock

section
variable {ri : ℕ} {es : List InternalEntry} {bytes : Bytes}

/-- The bytes of the block around its group `i`. -/
theorem EncodedBlock.bytes_around (h : EncodedBlock ri es bytes) {i : ℕ} {g : List InternalEntry}
    (hg : (restartGroups ri 0 es)[i]? = some g) :
    ∃ tail, bytes = groupsBytes ((restartGroups ri 0 es).take i) ++ (groupBytes [] g ++ tail) := by
  obtain ⟨tail, htail⟩ := h.exists_tail
  refine ⟨groupsBytes ((restartGroups ri 0 es).drop (i + 1)) ++ tail, ?_⟩
  conv_lhs => rw [htail, groups_split hg, groupsBytes_append, groupsBytes_cons]
  simp only [List.append_assoc]

/-- The end of group `i` lies inside the entry area. -/
theorem blockLayout_group_le {i : ℕ} {g : List InternalEntry}
    (hg : (restartGroups ri 0 es)[i]? = some g) :
    (groupsBytes ((restartGroups ri 0 es).take i)).length + (groupBytes [] g).length +
      (groupsBytes ((restartGroups ri 0 es).drop (i + 1))).length =
      (blockLayout ri es).entriesEnd := by
  simp only [blockLayout]
  conv_rhs => rw [groups_split hg, groupsBytes_append, groupsBytes_cons]
  simp only [List.length_append]
  omega

/-- An encoded block is stored in its restart groups. -/
theorem EncodedBlock.grouped (h : EncodedBlock ri es bytes) (hseq : SequencesFit es) :
    GroupedBlock bytes (blockLayout ri es) (restartGroups ri 0 es) := by
  have hflat := flatten_restartGroups ri 0 es
  refine ⟨h.parse_layout, length_groupOffsets 0 _, h.groups_ne_nil, restartGroups_ne_nil ri 0 es,
    by rw [hflat]; exact h.ordered, fun i g hg => ?_⟩
  obtain ⟨-, hfit⟩ := h.groups_fit hseq g (List.mem_of_getElem? hg)
  obtain ⟨tail, htail⟩ := h.bytes_around hg
  have hle := blockLayout_group_le hg
  obtain ⟨hi, -⟩ := List.getElem?_eq_some_iff.mp hg
  have hinside : (groupsBytes ((restartGroups ri 0 es).take i)).length + (groupBytes [] g).length ≤
      (blockLayout ri es).entriesEnd := by
    omega
  have hgroup := groupAt_groupBytes g htail hinside hfit
  have hstart : (blockLayout ri es).restarts.getD i 0 =
      (groupsBytes ((restartGroups ri 0 es).take i)).length := by
    simp [blockLayout, List.getD_eq_getElem?_getD, groupOffsets_getElem? hg]
  have hend : (if i + 1 = (restartGroups ri 0 es).length then (blockLayout ri es).entriesEnd
      else (blockLayout ri es).restarts.getD (i + 1) 0) =
      (groupsBytes ((restartGroups ri 0 es).take i)).length + (groupBytes [] g).length := by
    split
    · rename_i hlast
      rw [← hle, hlast, List.drop_length]
      simp
    · have hlt : i + 1 < (restartGroups ri 0 es).length := by omega
      have hg' := List.getElem?_eq_getElem hlt
      simp only [blockLayout, List.getD_eq_getElem?_getD, groupOffsets_getElem? hg', Option.getD_some]
      obtain ⟨_, rfl⟩ := List.getElem?_eq_some_iff.mp hg
      rw [List.take_succ_eq_append_getElem hi, groupsBytes_append]
      simp
  rw [hstart, hend]
  exact hgroup

/-! ## Which group is searched -/

/-- Cutting ordered entries into the groups before the searched one, that group and those behind
it: `FindDataBlockEntry` answers from the middle part, and no entry of `key` lies behind it. -/
structure SearchedGroup (ri : ℕ) (es : List InternalEntry) (key : Bytes)
    (before group behind : List InternalEntry) : Prop where
  split : es = before ++ (group ++ behind)
  aligned : ri ∣ before.length
  short : group.length ≤ ri
  nonempty : group ≠ []
  head_le : before ≠ [] → groupKey group ≤ key
  behind_gt : ∀ e ∈ behind, key < e.userKey

/-- Every group but the last has `ri` entries, so a group starts at a multiple of `ri`. -/
theorem restartGroups_aligned {ri i : ℕ} {es : List InternalEntry}
    {gs : List (List InternalEntry)} {g : List InternalEntry} {hs : List (List InternalEntry)}
    (h : restartGroups ri i es = gs ++ g :: hs) (hgs : gs ≠ []) :
    ri ∣ i + gs.flatten.length := by
  induction es generalizing i gs with
  | nil => simp [restartGroups] at h
  | cons e es ih =>
    have hrec := @ih (i + 1)
    simp only [restartGroups] at h
    cases hcase : restartGroups ri (i + 1) es with
    | nil =>
      rw [hcase] at h
      cases gs with
      | nil => exact absurd rfl hgs
      | cons g₀ gs => simp at h
    | cons g' gs' =>
      rw [hcase] at h hrec
      simp only at h
      cases gs with
      | nil => exact absurd rfl hgs
      | cons g₀ gs₀ =>
        by_cases hi : (i + 1) % ri = 0
        · rw [if_pos hi, List.cons_append, List.cons.injEq] at h
          obtain ⟨rfl, htail⟩ := h
          cases gs₀ with
          | nil => exact Nat.dvd_of_mod_eq_zero (by simpa using hi)
          | cons g₁ gs₁ =>
            have := hrec htail (by simp)
            simpa [Nat.add_assoc, Nat.add_comm, Nat.add_left_comm] using this
        · rw [if_neg hi, List.cons_append, List.cons.injEq] at h
          obtain ⟨rfl, htail⟩ := h
          have := hrec (by rw [htail, List.cons_append]) (by simp)
          simpa [Nat.add_assoc, Nat.add_comm, Nat.add_left_comm] using this

/-- A group holds at most `ri` entries, and the first one what is left of the interval. -/
theorem restartGroups_length_le {ri : ℕ} (hri : 0 < ri) (i : ℕ) (es : List InternalEntry) :
    (∀ g ∈ (restartGroups ri i es).head?, g.length + i % ri ≤ ri) ∧
      ∀ g ∈ (restartGroups ri i es).tail, g.length ≤ ri := by
  induction es generalizing i with
  | nil => simp [restartGroups]
  | cons e es ih =>
    obtain ⟨hhead, htail⟩ := ih (i + 1)
    have hmod := Nat.mod_lt i hri
    simp only [restartGroups]
    cases hcase : restartGroups ri (i + 1) es with
    | nil =>
      simp only [List.head?_cons, Option.mem_some_iff, forall_eq', List.length_singleton,
        List.tail_cons]
      exact ⟨by omega, by simp⟩
    | cons g gs =>
      simp only [hcase, List.head?_cons, Option.mem_some_iff, forall_eq', List.tail_cons] at hhead htail
      by_cases hi : (i + 1) % ri = 0
      · simp only [hi, if_true, List.head?_cons, Option.mem_some_iff, forall_eq',
          List.length_singleton, List.tail_cons, List.forall_mem_cons]
        exact ⟨by omega, by omega, htail⟩
      · simp only [hi, if_false, List.head?_cons, Option.mem_some_iff, forall_eq',
          List.length_cons, List.tail_cons]
        have hnext : (i + 1) % ri = i % ri + 1 := by
          have hle : i % ri + 1 ≤ ri := hmod
          rcases Nat.eq_or_lt_of_le hle with heq | hlt
          · exact absurd (by rw [← Nat.mod_add_mod, heq, Nat.mod_self]) hi
          · rw [← Nat.mod_add_mod, Nat.mod_eq_of_lt hlt]
        exact ⟨by omega, htail⟩

theorem length_le_of_mem_restartGroups {ri : ℕ} (hri : 0 < ri) {es g : List InternalEntry}
    {gs : List (List InternalEntry)} (hgs : restartGroups ri 0 es = gs) (hg : g ∈ gs) :
    g.length ≤ ri := by
  obtain ⟨hhead, htail⟩ := restartGroups_length_le hri 0 es
  rw [hgs] at hhead htail
  cases gs with
  | nil => cases hg
  | cons g' gs =>
    rcases List.mem_cons.mp hg with rfl | hg
    · simpa using hhead
    · exact htail g hg

/-- `FindDataBlockEntry` on an encoded block scans one group. -/
theorem EncodedBlock.find_eq (h : EncodedBlock ri es bytes) (hseq : SequencesFit es)
    (key : Bytes) (sequence : ℕ) :
    ∃ before group behind, SearchedGroup ri es key before group behind ∧
      findDataBlockEntry bytes kSstableVersion key sequence =
        versionResult (findVersion group key sequence) := by
  have hgrouped := h.grouped hseq
  obtain ⟨k, g, hg, hhead, hbehind, hfind⟩ := hgrouped.find_eq key
  have hflat := flatten_restartGroups ri 0 es
  have hmem := List.mem_of_getElem? hg
  set gs := restartGroups ri 0 es with hgs
  have hsplit := groups_split hg
  have hes : es = (gs.take k).flatten ++ (g ++ (gs.drop (k + 1)).flatten) := by
    have hcut := congrArg List.flatten hsplit
    rwa [hflat, List.flatten_append, List.flatten_cons] at hcut
  refine ⟨(gs.take k).flatten, g, (gs.drop (k + 1)).flatten, ⟨hes, ?_,
    length_le_of_mem_restartGroups h.interval_pos rfl hmem, hgrouped.nonempty g hmem, ?_,
    fun e he => hgrouped.key_lt_of_mem hbehind he⟩, hfind sequence⟩
  · by_cases htake : gs.take k = []
    · simp [htake]
    · simpa using restartGroups_aligned (i := 0) hsplit htake
  · intro hbefore
    refine hhead fun hk0 => ?_
    exact hbefore (by simp [hk0])

/-! ## When the search finds the newest version -/

/-- The versions of `key` straddle a restart point: an entry of `key` stands at a restart index of
the block, and an earlier one was already visible at `sequence`. -/
def StraddlesRestart (ri : ℕ) (block : List InternalEntry) (key : Bytes) (sequence : ℕ) : Prop :=
  ∃ j < block.length, ri ∣ j ∧ (∃ b ∈ block[j]?, b.userKey = key) ∧
    ∃ a ∈ block.take j, a.userKey = key ∧ a.sequence ≤ sequence

instance (ri : ℕ) (block : List InternalEntry) (key : Bytes) (sequence : ℕ) :
    Decidable (StraddlesRestart ri block key sequence) :=
  inferInstanceAs (Decidable (∃ j < block.length, _))

/-- The straddling versions are those the search leaves behind. -/
theorem SearchedGroup.straddles_iff {key : Bytes} {before group behind : List InternalEntry}
    (h : SearchedGroup ri es key before group behind) (hord : Ordered es) (sequence : ℕ) :
    StraddlesRestart ri es key sequence ↔ findVersion before key sequence ≠ none := by
  constructor
  · rintro ⟨j, hj, hdvd, ⟨b, hb, hbkey⟩, a, ha, hakey, hseq⟩ hnone
    -- a restart index behind the searched group would hold a key that is too large
    have hjle : j ≤ before.length := by
      by_contra hgt
      have hge : before.length + ri ≤ j := by
        obtain ⟨m, hm⟩ := h.aligned
        obtain ⟨n, hn⟩ := hdvd
        rw [hm, hn] at hgt ⊢
        have hmn : m + 1 ≤ n := Nat.lt_of_mul_lt_mul_left (not_le.mp hgt)
        calc ri * m + ri = ri * (m + 1) := by ring
          _ ≤ ri * n := Nat.mul_le_mul_left ri hmn
      have hmem : b ∈ behind := by
        have hshort := h.short
        rw [h.split, List.getElem?_append_right (by omega),
          List.getElem?_append_right (by omega)] at hb
        exact List.mem_of_getElem? hb
      exact absurd (h.behind_gt b hmem) (by simp [hbkey])
    have hmem : a ∈ before := by
      rw [h.split, List.take_append_of_le_length hjle] at ha
      exact List.mem_of_mem_take ha
    have := findVersion_eq_none_iff.mp hnone a hmem hakey
    omega
  · intro hsome
    obtain ⟨a, ha⟩ := Option.ne_none_iff_exists'.mp hsome
    obtain ⟨hmem, hkey, hseq⟩ := findVersion_mem ha
    cases hg : group with
    | nil => exact absurd hg h.nonempty
    | cons b rest =>
      have hsplit := h.split
      rw [hg] at hsplit
      have hless : InternalLess a b := by
        rw [hsplit] at hord
        exact (List.pairwise_append.mp hord).2.2 a hmem b (by simp)
      have hble : b.userKey ≤ key := by
        have := h.head_le (List.ne_nil_of_mem hmem)
        rwa [hg] at this
      refine ⟨before.length, by simp [hsplit], h.aligned, ⟨b, ?_, ?_⟩, a, ?_, hkey, hseq⟩
      · simp [hsplit]
      · exact le_antisymm hble (hkey ▸ hless.key_le)
      · simpa [hsplit] using hmem

/-- The search of one group agrees with the scan of the whole block exactly when no version that
is visible stands before a restart point inside the versions of its key. -/
theorem EncodedBlock.find_eq_iff (h : EncodedBlock ri es bytes) (hseq : SequencesFit es)
    (key : Bytes) (sequence : ℕ) :
    findDataBlockEntry bytes kSstableVersion key sequence =
      versionResult (findVersion es key sequence) ↔ ¬ StraddlesRestart ri es key sequence := by
  obtain ⟨before, group, behind, hsearch, hfind⟩ := h.find_eq hseq key sequence
  have hord := h.ordered
  rw [hfind, hsearch.straddles_iff hord, not_not]
  have hbehind : findVersion behind key sequence = none :=
    findVersion_eq_none_of_ne fun e he => (hsearch.behind_gt e he).ne'
  have hes : findVersion es key sequence =
      (findVersion before key sequence).or (findVersion group key sequence) := by
    rw [hsearch.split, findVersion_append, findVersion_append, hbehind, Option.or_none]
  cases hbefore : findVersion before key sequence with
  | none => simp [hes, hbefore]
  | some a =>
    rw [hes, hbefore, Option.some_or]
    refine iff_of_false ?_ (by simp)
    -- the answer from the group is strictly behind the entry `a`
    intro heq
    cases hgroup : findVersion group key sequence with
    | none => rw [hgroup] at heq; cases heq
    | some b =>
      rw [hgroup] at heq
      obtain rfl : b = a := by simpa [versionResult] using heq
      have hsplit := hsearch.split
      rw [hsplit] at hord
      exact InternalLess.irrefl b ((List.pairwise_append.mp hord).2.2 b (findVersion_mem hbefore).1 b
        (List.mem_append_left _ (findVersion_mem hgroup).1))

end

end TinyLsm
