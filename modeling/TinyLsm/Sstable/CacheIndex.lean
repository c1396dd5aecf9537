import Mathlib.Logic.Function.Basic
import TinyLsm.Sstable.BlockCache

/-!
# The list and the index of the block cache

`BlockCache` of `sstable/block_cache.cpp` keeps its entries in a list, a map from keys to positions in
that list, and a running sum of the charges. The three are updated one after the other; together they
are the cache of `Library/LruCache.lean`.
-/

namespace TinyLsm

/-- `BlockCache::Entry`, with the identity of its list node: an iterator of a `std::list` stays with
the node. -/
structure CacheNode where
  id : ℕ
  key : BlockCacheKey
  block : List InternalEntry
  charge : ℕ

/-- The entry without its node. -/
def CacheNode.entry (n : CacheNode) : LruEntry BlockCacheKey (List InternalEntry) :=
  ⟨n.key, n.block, n.charge⟩

/-- The members of `BlockCache`; `index` maps a key to the node it points at. -/
structure CacheState where
  capacityBytes : ℕ
  chargeBytes : ℕ
  lru : List CacheNode
  index : BlockCacheKey → Option ℕ
  /-- The next list node. -/
  nextId : ℕ

namespace CacheState

/-! ## Operations -/

/-- The constructor of `BlockCache`. -/
def new (capacityBytes : ℕ) : CacheState := ⟨capacityBytes, 0, [], fun _ => none, 0⟩

/-- `capacity_bytes_ - charge_bytes_`, unsigned. -/
def headroom (s : CacheState) : ℕ := (s.capacityBytes + 2 ^ 64 - s.chargeBytes) % 2 ^ 64

/-- `BlockCache::Remove`. -/
def remove (s : CacheState) (id : ℕ) : CacheState :=
  match s.lru.find? (·.id = id) with
  | none => s
  | some n =>
    { s with
      chargeBytes := (s.chargeBytes + 2 ^ 64 - n.charge) % 2 ^ 64
      index := Function.update s.index n.key none
      lru := s.lru.eraseP (·.id = id) }

/-- The node moves to the front (`splice`). -/
def splice (s : CacheState) (id : ℕ) : CacheState :=
  match s.lru.find? (·.id = id) with
  | none => s
  | some n => { s with lru := n :: s.lru.eraseP (·.id = id) }

/-- `BlockCache::Lookup`. -/
def lookup (s : CacheState) (key : BlockCacheKey) : Option (List InternalEntry) × CacheState :=
  if s.capacityBytes = 0 then (none, s)
  else
    match s.index key with
    | none => (none, s)
    | some id => ((s.lru.find? (·.id = id)).map CacheNode.block, s.splice id)

/-- The eviction loop of `Insert`, for at most `fuel` rounds. -/
def makeRoom (charge : ℕ) : ℕ → CacheState → CacheState
  | 0, s => s
  | fuel + 1, s =>
    match s.lru.getLast? with
    | none => s
    | some n => if s.headroom < charge then makeRoom charge fuel (s.remove n.id) else s

/-- `BlockCache::Insert`; a null `block` is none. `throws` says that there is no memory for the node
or for its index entry. -/
def insert (s : CacheState) (key : BlockCacheKey) (block : Option (List InternalEntry)) (charge : ℕ)
    (throws : Bool) : CacheState :=
  match block with
  | none => s
  | some block =>
    if s.capacityBytes = 0 ∨ s.capacityBytes < charge then s
    else
      match s.index key with
      | some id => s.splice id
      | none =>
        let s := s.makeRoom charge s.lru.length
        if throws then s
        else
          { s with
            lru := ⟨s.nextId, key, block, charge⟩ :: s.lru
            index := Function.update s.index key (some s.nextId)
            chargeBytes := (s.chargeBytes + charge) % 2 ^ 64
            nextId := s.nextId + 1 }

/-- `BlockCache::EraseTable`: the loop over the list. -/
def eraseTable (s : CacheState) (tableNumber : ℕ) : CacheState :=
  if s.capacityBytes = 0 then s
  else s.lru.foldl (fun s n => if n.key.tableNumber = tableNumber then s.remove n.id else s) s

/-! ## The invariant -/

/-- The list, the index and the sum agree. -/
structure WellFormed (s : CacheState) : Prop where
  capacity_lt : s.capacityBytes < 2 ^ 64
  ids_nodup : (s.lru.map CacheNode.id).Nodup
  ids_lt : ∀ n ∈ s.lru, n.id < s.nextId
  keys_nodup : (s.lru.map CacheNode.key).Nodup
  indexed : ∀ key id, s.index key = some id ↔ ∃ n ∈ s.lru, n.key = key ∧ n.id = id
  charge_eq : s.chargeBytes = LruEntry.total (s.lru.map CacheNode.entry)
  charge_le : s.chargeBytes ≤ s.capacityBytes
  disabled : s.capacityBytes = 0 → s.lru = []

variable {s : CacheState} {n : CacheNode} {before after : List CacheNode}

theorem wellFormed_new {capacity : ℕ} (h : capacity < 2 ^ 64) : (new capacity).WellFormed :=
  ⟨h, .nil, by simp [new], .nil, by simp [new], rfl, Nat.zero_le _, fun _ => rfl⟩

namespace WellFormed

theorem headroom_eq (h : s.WellFormed) : s.headroom = s.capacityBytes - s.chargeBytes := by
  have hlt := h.capacity_lt
  have hle := h.charge_le
  unfold headroom
  omega

/-- The nodes around one node are those of another identity. -/
theorem around (h : s.WellFormed) (hlru : s.lru = before ++ n :: after) :
    s.lru.find? (·.id = n.id) = some n ∧ s.lru.eraseP (·.id = n.id) = before ++ after := by
  have hnodup := h.ids_nodup
  rw [hlru, List.map_append, List.map_cons, List.nodup_append] at hnodup
  have hbefore : ∀ a ∈ before, ¬ a.id = n.id := fun a ha =>
    hnodup.2.2 a.id (List.mem_map_of_mem ha) n.id List.mem_cons_self
  rw [hlru]
  constructor
  · rw [List.find?_append, List.find?_eq_none.mpr (by simpa using hbefore)]
    simp
  · rw [List.eraseP_append_right _ (by simpa using hbefore), List.eraseP_cons_of_pos (by simp)]

theorem exists_around (hn : n ∈ s.lru) : ∃ before after, s.lru = before ++ n :: after :=
  List.append_of_mem hn

theorem total_around (h : s.WellFormed) (hlru : s.lru = before ++ n :: after) :
    s.chargeBytes = LruEntry.total ((before ++ after).map CacheNode.entry) + n.charge := by
  rw [h.charge_eq, hlru]
  simp only [LruEntry.total, List.map_append, List.map_cons, List.sum_append, List.sum_cons,
    CacheNode.entry]
  omega

theorem remove_eq (h : s.WellFormed) (hlru : s.lru = before ++ n :: after) :
    s.remove n.id =
      { s with
        chargeBytes := s.chargeBytes - n.charge
        index := Function.update s.index n.key none
        lru := before ++ after } := by
  obtain ⟨hfind, herase⟩ := h.around hlru
  have htotal := h.total_around hlru
  have hlt := h.capacity_lt
  have hle := h.charge_le
  simp only [CacheState.remove, hfind, herase]
  congr 1
  omega

theorem remove (h : s.WellFormed) (hlru : s.lru = before ++ n :: after) :
    (s.remove n.id).WellFormed := by
  have hsub : (before ++ after).Sublist s.lru := by
    rw [hlru]
    exact (List.sublist_cons_self n after).append_left before
  have htotal := h.total_around hlru
  rw [h.remove_eq hlru]
  refine ⟨h.capacity_lt, h.ids_nodup.sublist (hsub.map _), fun a ha => h.ids_lt a (hsub.subset ha),
    h.keys_nodup.sublist (hsub.map _), fun key id => ?_, ?_, ?_, fun hzero => ?_⟩
  · show Function.update s.index n.key none key = some id ↔ _
    have hkeys := h.keys_nodup
    rw [hlru, List.map_append, List.map_cons, List.nodup_middle, List.nodup_cons] at hkeys
    by_cases hkey : key = n.key
    · subst hkey
      rw [Function.update_self]
      refine ⟨by simp, ?_⟩
      rintro ⟨a, ha, hakey, -⟩
      refine absurd ?_ hkeys.1
      rw [← List.map_append, ← hakey]
      exact List.mem_map_of_mem ha
    · rw [Function.update_of_ne hkey, h.indexed, hlru]
      constructor
      · rintro ⟨a, ha, rfl, hid⟩
        refine ⟨a, ?_, rfl, hid⟩
        have hne : a ≠ n := fun heq => hkey (heq ▸ rfl)
        simpa [hne] using ha
      · rintro ⟨a, ha, hakey, hid⟩
        exact ⟨a, by rw [← hlru]; exact hsub.subset ha, hakey, hid⟩
  · show s.chargeBytes - n.charge = LruEntry.total ((before ++ after).map CacheNode.entry)
    omega
  · show s.chargeBytes - n.charge ≤ s.capacityBytes
    have := h.charge_le
    omega
  · exact List.sublist_nil.mp (h.disabled hzero ▸ hsub)

/-- A key that is indexed has a node, and the index points at it. -/
theorem node_of_index {key : BlockCacheKey} {id : ℕ} (h : s.WellFormed)
    (hindex : s.index key = some id) :
    ∃ before n after, s.lru = before ++ n :: after ∧ n.key = key ∧ n.id = id := by
  obtain ⟨n, hn, hkey, hid⟩ := (h.indexed key id).mp hindex
  obtain ⟨before, after, hlru⟩ := exists_around hn
  exact ⟨before, n, after, hlru, hkey, hid⟩

theorem index_eq_none_iff {key : BlockCacheKey} (h : s.WellFormed) :
    s.index key = none ↔ ∀ n ∈ s.lru, n.key ≠ key := by
  rw [Option.eq_none_iff_forall_ne_some]
  constructor
  · intro hnone n hn hkey
    exact hnone n.id ((h.indexed key n.id).mpr ⟨n, hn, hkey, rfl⟩)
  · intro hnone id hindex
    obtain ⟨n, hn, hkey, -⟩ := (h.indexed key id).mp hindex
    exact hnone n hn hkey

theorem splice_eq (h : s.WellFormed) (hlru : s.lru = before ++ n :: after) :
    s.splice n.id = { s with lru := n :: (before ++ after) } := by
  obtain ⟨hfind, herase⟩ := h.around hlru
  simp only [CacheState.splice, hfind, herase]

theorem splice (h : s.WellFormed) (hlru : s.lru = before ++ n :: after) :
    (s.splice n.id).WellFormed := by
  have hperm : (n :: (before ++ after)).Perm s.lru := by
    rw [hlru]
    exact List.perm_middle.symm
  rw [h.splice_eq hlru]
  refine ⟨h.capacity_lt, (hperm.map _).nodup_iff.mpr h.ids_nodup,
    fun a ha => h.ids_lt a (hperm.mem_iff.mp ha), (hperm.map _).nodup_iff.mpr h.keys_nodup,
    fun key id => ?_, ?_, h.charge_le, fun hzero => ?_⟩
  · simp only [h.indexed, hperm.mem_iff]
  · rw [LruEntry.total_perm (hperm.map CacheNode.entry)]
    exact h.charge_eq
  · exact List.perm_nil.mp (h.disabled hzero ▸ hperm)

/-- The eviction loop leaves what `evict` leaves, and ends because there is room or nothing left. -/
theorem makeRoom (charge : ℕ) (h : s.WellFormed) {fuel : ℕ} (hfuel : s.lru.length ≤ fuel) :
    (s.makeRoom charge fuel).WellFormed ∧
      (s.makeRoom charge fuel).capacityBytes = s.capacityBytes ∧
      ((s.makeRoom charge fuel).lru.map CacheNode.entry).reverse =
        LruEntry.evict s.capacityBytes charge (s.lru.map CacheNode.entry).reverse ∧
      (s.makeRoom charge fuel).lru <+: s.lru ∧
      ((s.makeRoom charge fuel).lru = [] ∨ charge ≤ (s.makeRoom charge fuel).headroom) := by
  induction fuel generalizing s with
  | zero =>
    have hnil : s.lru = [] := List.length_eq_zero_iff.mp (Nat.le_zero.mp hfuel)
    refine ⟨h, rfl, ?_, List.prefix_rfl, .inl hnil⟩
    rw [CacheState.makeRoom, hnil]
    rfl
  | succ fuel ih =>
    unfold CacheState.makeRoom
    cases hlast : s.lru.getLast? with
    | none =>
      have hnil : s.lru = [] := List.getLast?_eq_none_iff.mp hlast
      refine ⟨h, rfl, ?_, List.prefix_rfl, .inl hnil⟩
      rw [hnil]
      rfl
    | some n =>
      have hlru : s.lru = s.lru.dropLast ++ [n] := (List.dropLast_append_getLast? n hlast).symm
      have hentries : (s.lru.map CacheNode.entry).reverse =
          n.entry :: (s.lru.dropLast.map CacheNode.entry).reverse := by
        rw [hlru]
        simp
      have htotal : LruEntry.total (n.entry :: (s.lru.dropLast.map CacheNode.entry).reverse) =
          s.chargeBytes := by
        rw [← hentries, LruEntry.total_perm (List.reverse_perm _)]
        exact h.charge_eq.symm
      simp only [hentries, LruEntry.evict, htotal, h.headroom_eq]
      split
      · have hrest : (s.remove n.id).lru = s.lru.dropLast := by
          rw [h.remove_eq hlru]
          simp
        have hcapacity : (s.remove n.id).capacityBytes = s.capacityBytes := by
          rw [h.remove_eq hlru]
        have hlength : (s.remove n.id).lru.length ≤ fuel := by
          rw [hrest, List.length_dropLast]
          omega
        obtain ⟨hwell, hcap, hevict, hpre, hend⟩ := ih (h.remove hlru) hlength
        rw [hcapacity] at hcap hevict
        rw [hrest] at hevict hpre
        exact ⟨hwell, hcap, hevict, hpre.trans (List.dropLast_prefix _), hend⟩
      · rename_i hroom
        exact ⟨h, rfl, hentries, List.prefix_rfl, .inr (h.headroom_eq ▸ not_lt.mp hroom)⟩

/-- Behind the eviction loop there is room. -/
theorem room {charge : ℕ} (h : s.WellFormed) (hend : s.lru = [] ∨ charge ≤ s.headroom)
    (hfits : charge ≤ s.capacityBytes) : s.chargeBytes + charge ≤ s.capacityBytes := by
  have hle := h.charge_le
  rcases hend with hnil | hroom
  · have hzero : s.chargeBytes = 0 := by
      rw [h.charge_eq, hnil]
      rfl
    omega
  · rw [h.headroom_eq] at hroom
    omega

/-- A new node in front. -/
theorem push {key : BlockCacheKey} {block : List InternalEntry} {charge : ℕ} (h : s.WellFormed)
    (hnew : ∀ n ∈ s.lru, n.key ≠ key) (hroom : s.chargeBytes + charge ≤ s.capacityBytes)
    (hcapacity : s.capacityBytes ≠ 0) :
    WellFormed
      { s with
        lru := ⟨s.nextId, key, block, charge⟩ :: s.lru
        index := Function.update s.index key (some s.nextId)
        chargeBytes := (s.chargeBytes + charge) % 2 ^ 64
        nextId := s.nextId + 1 } := by
  have hlt := h.capacity_lt
  have hcharge : (s.chargeBytes + charge) % 2 ^ 64 = s.chargeBytes + charge :=
    Nat.mod_eq_of_lt (by omega)
  have hfresh : ∀ n ∈ s.lru, n.id ≠ s.nextId := fun n hn => (h.ids_lt n hn).ne
  refine ⟨hlt, ?_, fun n hn => ?_, ?_, fun key' id => ?_, ?_, ?_, fun hzero => absurd hzero hcapacity⟩
  · refine List.nodup_cons.mpr ⟨fun hmem => ?_, h.ids_nodup⟩
    obtain ⟨n, hn, hid⟩ := List.mem_map.mp hmem
    exact hfresh n hn hid
  · rcases List.mem_cons.mp hn with rfl | hn
    · exact Nat.lt_succ_self _
    · exact (h.ids_lt n hn).trans (Nat.lt_succ_self _)
  · refine List.nodup_cons.mpr ⟨fun hmem => ?_, h.keys_nodup⟩
    obtain ⟨n, hn, hkey⟩ := List.mem_map.mp hmem
    exact hnew n hn hkey
  · show Function.update s.index key (some s.nextId) key' = some id ↔ _
    by_cases hkey : key' = key
    · subst hkey
      rw [Function.update_self]
      constructor
      · intro hid
        exact ⟨_, List.mem_cons_self, rfl, Option.some.inj hid⟩
      · rintro ⟨n, hn, hnkey, rfl⟩
        rcases List.mem_cons.mp hn with rfl | hn
        · rfl
        · exact absurd hnkey (hnew n hn)
    · rw [Function.update_of_ne hkey, h.indexed]
      constructor
      · rintro ⟨n, hn, hnkey, hid⟩
        exact ⟨n, List.mem_cons_of_mem _ hn, hnkey, hid⟩
      · rintro ⟨n, hn, hnkey, hid⟩
        rcases List.mem_cons.mp hn with rfl | hn
        · exact absurd hnkey.symm hkey
        · exact ⟨n, hn, hnkey, hid⟩
  · show (s.chargeBytes + charge) % 2 ^ 64 = _
    rw [hcharge, h.charge_eq]
    simp only [LruEntry.total, List.map_cons, List.sum_cons, CacheNode.entry]
    omega
  · show (s.chargeBytes + charge) % 2 ^ 64 ≤ s.capacityBytes
    rw [hcharge]
    exact hroom

/-- The loop of `EraseTable` from some node on. -/
theorem eraseLoop (tableNumber : ℕ) (done : List CacheNode) {nodes : List CacheNode} (h : s.WellFormed)
    (hlru : s.lru = done ++ nodes) :
    ∃ s', nodes.foldl
        (fun s n => if n.key.tableNumber = tableNumber then s.remove n.id else s) s = s' ∧
      s'.WellFormed ∧ s'.capacityBytes = s.capacityBytes ∧
      s'.lru = done ++ nodes.filter fun n => decide (n.key.tableNumber ≠ tableNumber) := by
  induction nodes generalizing s done with
  | nil => exact ⟨s, rfl, h, rfl, hlru⟩
  | cons n nodes ih =>
    rw [List.foldl_cons, List.filter_cons]
    split
    · rename_i htable
      have hrest : (s.remove n.id).lru = done ++ nodes := by rw [h.remove_eq hlru]
      have hcapacity : (s.remove n.id).capacityBytes = s.capacityBytes := by
        rw [h.remove_eq hlru]
      rw [if_neg (by simpa using htable)]
      obtain ⟨s', heq, hwell, hcap, herased⟩ := ih done (h.remove hlru) hrest
      exact ⟨s', heq, hwell, hcap.trans hcapacity, herased⟩
    · rename_i htable
      rw [if_pos (by simpa using htable)]
      obtain ⟨s', heq, hwell, hcap, herased⟩ := ih (done ++ [n]) h (by simpa using hlru)
      exact ⟨s', heq, hwell, hcap, by simpa using herased⟩

/-! ## The operations -/

/-- `Lookup` finds the node of the key and moves it to the front, or changes nothing. -/
theorem lookup_cases (h : s.WellFormed) (key : BlockCacheKey) :
    ((∀ n ∈ s.lru, n.key ≠ key) ∧ s.lookup key = (none, s)) ∨
    ∃ before n after, s.lru = before ++ n :: after ∧ n.key = key ∧
      s.lookup key = (some n.block, { s with lru := n :: (before ++ after) }) ∧
      (s.lookup key).2.WellFormed := by
  unfold CacheState.lookup
  split
  · rename_i hzero
    exact .inl ⟨by simp [h.disabled hzero], rfl⟩
  cases hindex : s.index key with
  | none => exact .inl ⟨h.index_eq_none_iff.mp hindex, rfl⟩
  | some id =>
    obtain ⟨before, n, after, hlru, hkey, rfl⟩ := h.node_of_index hindex
    refine .inr ⟨before, n, after, hlru, hkey, ?_, h.splice hlru⟩
    dsimp only
    rw [(h.around hlru).1, h.splice_eq hlru]
    rfl

/-- `Insert` is refused, moves the node of a present key to the front, or evicts from the end until
there is room and puts a new node in front, unless it throws. -/
theorem insert_cases (h : s.WellFormed) (key : BlockCacheKey) (block : Option (List InternalEntry))
    (charge : ℕ) (throws : Bool) :
    ((block = none ∨ s.capacityBytes = 0 ∨ s.capacityBytes < charge) ∧
      s.insert key block charge throws = s) ∨
    (∃ before n after, s.lru = before ++ n :: after ∧ n.key = key ∧ charge ≤ s.capacityBytes ∧
      s.insert key block charge throws = { s with lru := n :: (before ++ after) } ∧
      (s.insert key block charge throws).WellFormed) ∨
    ∃ b s', block = some b ∧ s.capacityBytes ≠ 0 ∧ charge ≤ s.capacityBytes ∧ (∀ n ∈ s.lru, n.key ≠ key) ∧
      s' = s.makeRoom charge s.lru.length ∧ s'.WellFormed ∧ s'.capacityBytes = s.capacityBytes ∧
      (s'.lru.map CacheNode.entry).reverse =
        LruEntry.evict s.capacityBytes charge (s.lru.map CacheNode.entry).reverse ∧
      s'.lru <+: s.lru ∧ s'.chargeBytes + charge ≤ s.capacityBytes ∧
      (s.insert key block charge throws).lru =
        (if throws then s'.lru else ⟨s'.nextId, key, b, charge⟩ :: s'.lru) ∧
      (s.insert key block charge throws).capacityBytes = s.capacityBytes ∧
      (s.insert key block charge throws).WellFormed := by
  cases block with
  | none => exact .inl ⟨.inl rfl, rfl⟩
  | some b =>
    simp only [CacheState.insert]
    split
    · exact .inl ⟨.inr ‹_›, rfl⟩
    rename_i hfits
    rw [not_or, not_lt] at hfits
    right
    cases hindex : s.index key with
    | some id =>
      left
      obtain ⟨before, n, after, hlru, hkey, rfl⟩ := h.node_of_index hindex
      exact ⟨before, n, after, hlru, hkey, hfits.2, h.splice_eq hlru, h.splice hlru⟩
    | none =>
      right
      have hnew := h.index_eq_none_iff.mp hindex
      obtain ⟨hwell, hcap, hevict, hpre, hend⟩ := h.makeRoom charge le_rfl
      have hroom := hwell.room hend (hcap ▸ hfits.2)
      rw [hcap] at hroom
      refine ⟨b, _, rfl, hfits.1, hfits.2, hnew, rfl, hwell, hcap, hevict, hpre, hroom, ?_, ?_, ?_⟩
      · cases throws <;> rfl
      · cases throws <;> exact hcap
      · cases throws with
        | true => exact hwell
        | false =>
          exact hwell.push (fun n hn => hnew n (hpre.subset hn)) (hcap ▸ hroom) (hcap ▸ hfits.1)

/-- `EraseTable` drops the nodes of the table. -/
theorem eraseTable (h : s.WellFormed) (tableNumber : ℕ) :
    (s.eraseTable tableNumber).WellFormed ∧
      (s.eraseTable tableNumber).capacityBytes = s.capacityBytes ∧
      (s.eraseTable tableNumber).lru =
        s.lru.filter fun n => decide (n.key.tableNumber ≠ tableNumber) := by
  unfold CacheState.eraseTable
  split
  · rename_i hzero
    rw [h.disabled hzero]
    exact ⟨h, rfl, rfl⟩
  · obtain ⟨s', heq, hwell, hcap, hlru⟩ := h.eraseLoop tableNumber [] rfl
    rw [heq]
    exact ⟨hwell, hcap, hlru⟩

end WellFormed

/-! ## The abstract cache -/

/-- The members represent a cache. -/
structure Represents (s : CacheState) (c : BlockCache) : Prop where
  wellFormed : s.WellFormed
  capacity_eq : s.capacityBytes = c.capacity
  entries_eq : s.lru.map CacheNode.entry = c.entries

namespace Represents

variable {c : BlockCache}

/-- The first entry of a key is that of the node of the key. -/
theorem find_around (h : s.Represents c) (hlru : s.lru = before ++ n :: after) :
    c.entries.find? (·.key = n.key) = some n.entry ∧
      c.entries.eraseP (·.key = n.key) = (before ++ after).map CacheNode.entry := by
  have hkeys := h.wellFormed.keys_nodup
  rw [hlru, List.map_append, List.map_cons, List.nodup_append] at hkeys
  have hbefore : ∀ a ∈ before.map CacheNode.entry, ¬ a.key = n.key := by
    intro a ha
    obtain ⟨b, hb, rfl⟩ := List.mem_map.mp ha
    exact hkeys.2.2 b.key (List.mem_map_of_mem hb) n.key List.mem_cons_self
  rw [← h.entries_eq, hlru, List.map_append, List.map_cons]
  constructor
  · rw [List.find?_append, List.find?_eq_none.mpr (by simpa using hbefore)]
    simp [CacheNode.entry]
  · rw [List.eraseP_append_right _ (by simpa using hbefore),
      List.eraseP_cons_of_pos (by simp [CacheNode.entry]), List.map_append]

theorem find_none {key : BlockCacheKey} (h : s.Represents c) (hnone : ∀ n ∈ s.lru, n.key ≠ key) :
    c.entries.find? (·.key = key) = none := by
  rw [← h.entries_eq]
  refine List.find?_eq_none.mpr fun a ha => ?_
  obtain ⟨n, hn, rfl⟩ := List.mem_map.mp ha
  exact fun hkey => hnone n hn (of_decide_eq_true hkey)

theorem capacity_ne_zero (h : s.Represents c) (hn : n ∈ s.lru) : c.capacity ≠ 0 := by
  intro hzero
  rw [h.wellFormed.disabled (h.capacity_eq.trans hzero)] at hn
  cases hn

/-- `Lookup` is the lookup of the cache. -/
theorem lookup (h : s.Represents c) (key : BlockCacheKey) :
    (c.lookupBlock key = none ∧ s.lookup key = (none, s)) ∨
      ∃ block c', c.lookupBlock key = some (block, c') ∧ (s.lookup key).1 = some block ∧
        (s.lookup key).2.Represents c' := by
  rcases h.wellFormed.lookup_cases key with ⟨hnone, heq⟩ | ⟨before, n, after, hlru, rfl, heq, hwell⟩
  · refine .inl ⟨?_, heq⟩
    rw [BlockCache.lookupBlock, LruCache.lookup_of_none (h.find_none hnone), ite_self]
  · obtain ⟨hfind, herase⟩ := h.find_around hlru
    have hcapacity := h.capacity_ne_zero (n := n) (by simp [hlru])
    refine .inr ⟨n.block, c.touch n.key n.entry hfind, ?_, by rw [heq], hwell, ?_, ?_⟩
    · rw [BlockCache.lookupBlock, if_neg hcapacity, LruCache.lookup_of_some hfind]
      rfl
    · rw [heq]
      exact h.capacity_eq
    · show _ = n.entry :: c.entries.eraseP (·.key = n.key)
      rw [herase, heq]
      rfl

/-- `Insert` is the insertion into the cache. -/
theorem insert (h : s.Represents c) (key : BlockCacheKey) (block : List InternalEntry)
    (charge : ℕ) :
    (s.insert key (some block) charge false).Represents (c.insertBlock key block charge) := by
  rcases h.wellFormed.insert_cases key (some block) charge false with
    ⟨hrefused, heq⟩ | ⟨before, n, after, hlru, rfl, hfits, heq, hwell⟩ |
    ⟨b, s', hb, hcapacity, hfits, hnew, -, -, hcap, hevict, -, -, heq, hcap', hwell⟩
  · have hsame : c.insertBlock key block charge = c := by
      rw [h.capacity_eq] at hrefused
      rcases hrefused with hnone | hzero | hbig
      · cases hnone
      · exact if_pos hzero
      · rw [BlockCache.insertBlock, LruCache.insert, dif_neg (not_le.mpr hbig), ite_self]
    rw [hsame, heq]
    exact h
  · obtain ⟨hfind, herase⟩ := h.find_around hlru
    have hcapacity := h.capacity_ne_zero (n := n) (by simp [hlru])
    rw [BlockCache.insertBlock, if_neg hcapacity,
      LruCache.insert_of_some (h.capacity_eq ▸ hfits) hfind]
    refine ⟨hwell, ?_, ?_⟩
    · rw [heq]
      exact h.capacity_eq
    · show _ = n.entry :: c.entries.eraseP (·.key = n.key)
      rw [herase, heq]
      rfl
  · obtain rfl := Option.some.inj hb
    have hfind := h.find_none hnew
    rw [BlockCache.insertBlock, if_neg (h.capacity_eq ▸ hcapacity),
      LruCache.insert_of_none (h.capacity_eq ▸ hfits) hfind]
    refine ⟨hwell, hcap'.trans h.capacity_eq, ?_⟩
    show _ = ⟨key, block, charge⟩ ::
      (LruEntry.evict c.capacity charge c.entries.reverse).reverse
    rw [heq, ← h.entries_eq, ← h.capacity_eq, ← hevict, List.reverse_reverse]
    rfl

/-- `EraseTable` erases from the cache. -/
theorem eraseTable (h : s.Represents c) (tableNumber : ℕ) :
    (s.eraseTable tableNumber).Represents (BlockCache.eraseTable c tableNumber) := by
  obtain ⟨hwell, hcap, hlru⟩ := h.wellFormed.eraseTable tableNumber
  have hentries : (s.eraseTable tableNumber).lru.map CacheNode.entry =
      c.entries.filter fun e => !decide (e.key.tableNumber = tableNumber) := by
    rw [hlru, ← h.entries_eq, List.filter_map]
    congr 1
    refine List.filter_congr fun n _ => ?_
    rw [decide_not]
    rfl
  unfold BlockCache.eraseTable
  split
  · rename_i hzero
    have hnil := h.wellFormed.disabled (h.capacity_eq.trans hzero)
    refine ⟨hwell, hcap.trans h.capacity_eq, ?_⟩
    rw [hlru, ← h.entries_eq, hnil]
    rfl
  · exact ⟨hwell, hcap.trans h.capacity_eq, hentries⟩

end Represents

/-! ## Sequences of calls -/

/-- A call on the cache. -/
inductive Call where
  | lookup (key : BlockCacheKey)
  | insert (key : BlockCacheKey) (block : Option (List InternalEntry)) (charge : ℕ) (throws : Bool)
  | eraseTable (tableNumber : ℕ)

/-- The cache behind a call. -/
def call (s : CacheState) : Call → CacheState
  | .lookup key => (s.lookup key).2
  | .insert key block charge throws => s.insert key block charge throws
  | .eraseTable tableNumber => s.eraseTable tableNumber

/-- The cache of some capacity behind a sequence of calls. -/
def afterCalls (capacity : ℕ) (calls : List Call) : CacheState := calls.foldl call (new capacity)

/-- The key is in the cache. -/
def Holds (s : CacheState) (key : BlockCacheKey) : Prop := ∃ n ∈ s.lru, n.key = key

/-- The last call that took the key in inserted this block, and the key has been there since. -/
def InsertedWith (capacity : ℕ) (calls : List Call) (key : BlockCacheKey)
    (block : List InternalEntry) : Prop :=
  ∃ before charge since, calls = before ++ .insert key (some block) charge false :: since ∧
    ¬ (afterCalls capacity before).Holds key ∧
    ∀ done, done <+: since →
      (afterCalls capacity (before ++ .insert key (some block) charge false :: done)).Holds key

theorem afterCalls_concat (capacity : ℕ) (calls : List Call) (c : Call) :
    afterCalls capacity (calls ++ [c]) = (afterCalls capacity calls).call c := by
  simp [afterCalls]

theorem WellFormed.call (h : s.WellFormed) (c : Call) :
    (s.call c).WellFormed ∧ (s.call c).capacityBytes = s.capacityBytes := by
  rcases c with key | ⟨key, block, charge, throws⟩ | tableNumber
  · show (s.lookup key).2.WellFormed ∧ (s.lookup key).2.capacityBytes = _
    rcases h.lookup_cases key with ⟨-, heq⟩ | ⟨before, n, after, -, -, heq, hwell⟩
    · rw [heq]
      exact ⟨h, rfl⟩
    · exact ⟨hwell, by rw [heq]⟩
  · show (s.insert key block charge throws).WellFormed ∧ _
    rcases h.insert_cases key block charge throws with
      ⟨-, heq⟩ | ⟨before, n, after, -, -, -, heq, hwell⟩ |
      ⟨b, s', -, -, -, -, -, -, -, -, -, -, -, hcap, hwell⟩
    · exact ⟨heq.symm ▸ h, congrArg capacityBytes heq⟩
    · exact ⟨hwell, by rw [CacheState.call, heq]⟩
    · exact ⟨hwell, hcap⟩
  · obtain ⟨hwell, hcap, -⟩ := h.eraseTable tableNumber
    exact ⟨hwell, hcap⟩

theorem wellFormed_afterCalls {capacity : ℕ} (hcapacity : capacity < 2 ^ 64) (calls : List Call) :
    (afterCalls capacity calls).WellFormed ∧ (afterCalls capacity calls).capacityBytes = capacity := by
  induction calls using List.reverseRecOn with
  | nil => exact ⟨wellFormed_new hcapacity, rfl⟩
  | append_singleton calls c ih =>
    obtain ⟨hwell, hcap⟩ := ih.1.call c
    rw [afterCalls_concat]
    exact ⟨hwell, hcap.trans ih.2⟩

/-- The abstract cache behind a call. -/
def Call.onCache (c : BlockCache) : Call → BlockCache
  | .lookup key => ((c.lookupBlock key).map Prod.snd).getD c
  | .insert key (some block) charge _ => c.insertBlock key block charge
  | .insert _ none _ _ => c
  | .eraseTable tableNumber => c.eraseTable tableNumber

/-- No allocation of the call throws. -/
def Call.Completes : Call → Prop
  | .insert _ _ _ throws => throws = false
  | _ => True

theorem Represents.call {c : BlockCache} (h : s.Represents c) {call : Call}
    (hcompletes : call.Completes) : (s.call call).Represents (call.onCache c) := by
  rcases call with key | ⟨key, _ | block, charge, throws⟩ | tableNumber
  · rcases h.lookup key with ⟨hmiss, heq⟩ | ⟨block, c', hhit, -, hc'⟩
    · rw [CacheState.call, heq, Call.onCache, hmiss]
      exact h
    · rw [Call.onCache, hhit]
      exact hc'
  · exact h
  · obtain rfl : throws = false := hcompletes
    exact h.insert key block charge
  · exact h.eraseTable tableNumber

/-- The members of a cache of any capacity represent the abstract cache behind the same calls. -/
theorem represents_afterCalls {capacity : ℕ} (hcapacity : capacity < 2 ^ 64) (calls : List Call)
    (hcompletes : ∀ call ∈ calls, call.Completes) :
    (afterCalls capacity calls).Represents (calls.foldl Call.onCache (.empty capacity)) := by
  induction calls using List.reverseRecOn with
  | nil => exact ⟨wellFormed_new hcapacity, rfl, rfl⟩
  | append_singleton calls call ih =>
    rw [afterCalls_concat, List.foldl_concat]
    exact (ih fun c hc => hcompletes c (by simp [hc])).call (hcompletes call (by simp))

/-- A node behind a call has the key and the block of one before it, or the call put it there and
the key was absent. -/
theorem WellFormed.mem_call (h : s.WellFormed) {c : Call} (hn : n ∈ (s.call c).lru) :
    (∃ m ∈ s.lru, m.key = n.key ∧ m.block = n.block) ∨
      ¬ s.Holds n.key ∧ ∃ charge, c = .insert n.key (some n.block) charge false := by
  rcases c with key | ⟨key, block, charge, throws⟩ | tableNumber
  · left
    rw [CacheState.call] at hn
    rcases h.lookup_cases key with ⟨-, heq⟩ | ⟨before, a, after, hlru, -, heq, -⟩
    · rw [heq] at hn
      exact ⟨n, hn, rfl, rfl⟩
    · rw [heq] at hn
      refine ⟨n, ?_, rfl, rfl⟩
      rw [hlru]
      exact List.perm_middle.symm.mem_iff.mp hn
  · rw [CacheState.call] at hn
    rcases h.insert_cases key block charge throws with
      ⟨-, heq⟩ | ⟨before, a, after, hlru, -, -, heq, -⟩ |
      ⟨b, s', hb, -, -, hnew, -, -, -, -, hpre, -, hlru, -, -⟩
    · rw [heq] at hn
      exact .inl ⟨n, hn, rfl, rfl⟩
    · rw [heq] at hn
      refine .inl ⟨n, ?_, rfl, rfl⟩
      rw [hlru]
      exact List.perm_middle.symm.mem_iff.mp hn
    -- behind the evictions: an insertion that throws leaves what they kept
    · rw [hlru] at hn
      cases throws with
      | true => exact .inl ⟨n, hpre.subset hn, rfl, rfl⟩
      | false =>
        rcases List.mem_cons.mp hn with rfl | hn
        · exact .inr ⟨fun ⟨a, ha, hkey⟩ => hnew a ha hkey, charge, by rw [hb]⟩
        · exact .inl ⟨n, hpre.subset hn, rfl, rfl⟩
  · left
    rw [CacheState.call, (h.eraseTable tableNumber).2.2] at hn
    exact ⟨n, (List.mem_filter.mp hn).1, rfl, rfl⟩

/-- Every node has the block its key was taken in with. -/
theorem insertedWith_of_mem {capacity : ℕ} (hcapacity : capacity < 2 ^ 64) (calls : List Call)
    (hn : n ∈ (afterCalls capacity calls).lru) : InsertedWith capacity calls n.key n.block := by
  induction calls using List.reverseRecOn generalizing n with
  | nil => cases hn
  | append_singleton calls c ih =>
    have hholds : (afterCalls capacity (calls ++ [c])).Holds n.key := ⟨n, hn, rfl⟩
    rw [afterCalls_concat] at hn
    rcases (wellFormed_afterCalls hcapacity calls).1.mem_call hn with
      ⟨m, hm, hkey, hblock⟩ | ⟨habsent, charge, rfl⟩
    -- the entry was there before this call: it is the same insertion, one call longer ago
    · have hbefore := ih hm
      rw [hkey, hblock] at hbefore
      obtain ⟨before, charge, since, rfl, habsent, hsince⟩ := hbefore
      refine ⟨before, charge, since ++ [c], by simp, habsent, fun done hdone => ?_⟩
      rcases List.prefix_concat_iff.mp hdone with rfl | hdone
      · simpa using hholds
      · exact hsince done hdone
    -- this call took the key in
    · refine ⟨calls, charge, [], rfl, habsent, fun done hdone => ?_⟩
      obtain rfl := List.prefix_nil.mp hdone
      exact hholds

/-! ## The order of use -/

/-- The entry of a key in front of the others. -/
def movedToFront (lru : List CacheNode) (key : BlockCacheKey) : List CacheNode :=
  lru.filter (fun n => decide (n.key = key)) ++ lru.filter (fun n => decide (n.key ≠ key))

theorem movedToFront_of_absent {lru : List CacheNode} {key : BlockCacheKey}
    (h : ∀ n ∈ lru, n.key ≠ key) : movedToFront lru key = lru := by
  rw [movedToFront, List.filter_eq_nil_iff.mpr (by simpa using h),
    List.filter_eq_self.mpr (by simpa using h), List.nil_append]

theorem WellFormed.movedToFront_around (h : s.WellFormed) (hlru : s.lru = before ++ n :: after) :
    movedToFront s.lru n.key = n :: (before ++ after) := by
  have hkeys := h.keys_nodup
  rw [hlru, List.map_append, List.map_cons, List.nodup_middle, List.nodup_cons] at hkeys
  have hother : ∀ a ∈ before ++ after, a.key ≠ n.key := fun a ha heq =>
    hkeys.1 (by rw [← List.map_append, ← heq]; exact List.mem_map_of_mem ha)
  have hsame : (before ++ after).filter (fun a => decide (a.key = n.key)) = [] :=
    List.filter_eq_nil_iff.mpr (by simpa using hother)
  have hrest : (before ++ after).filter (fun a => decide (a.key ≠ n.key)) = before ++ after :=
    List.filter_eq_self.mpr (by simpa using hother)
  rw [List.filter_append] at hsame hrest
  obtain ⟨hb, ha⟩ := List.append_eq_nil_iff.mp hsame
  rw [movedToFront, hlru, List.filter_append, List.filter_append, hb,
    List.filter_cons_of_pos (by simp), ha, List.filter_cons_of_neg (by simp), hrest]
  rfl

theorem WellFormed.lookup_lru (h : s.WellFormed) (key : BlockCacheKey) :
    (s.lookup key).2.lru = movedToFront s.lru key := by
  rcases h.lookup_cases key with ⟨habsent, heq⟩ | ⟨before, n, after, hlru, rfl, heq, -⟩
  · rw [heq, movedToFront_of_absent habsent]
  · rw [heq, h.movedToFront_around hlru]

/-- A block is returned exactly for the keys of the list. -/
theorem WellFormed.lookup_eq_some_iff (h : s.WellFormed) {key : BlockCacheKey}
    {block : List InternalEntry} :
    (s.lookup key).1 = some block ↔ ∃ n ∈ s.lru, n.key = key ∧ n.block = block := by
  rcases h.lookup_cases key with ⟨habsent, heq⟩ | ⟨before, n, after, hlru, rfl, heq, -⟩
  · rw [heq]
    constructor
    · intro hnone
      cases hnone
    · rintro ⟨n, hn, hkey, -⟩
      exact absurd hkey (habsent n hn)
  · have hn : n ∈ s.lru := by simp [hlru]
    rw [heq]
    constructor
    · intro hblock
      exact ⟨n, hn, rfl, Option.some.inj hblock⟩
    · rintro ⟨m, hm, hkey, rfl⟩
      rw [List.inj_on_of_nodup_map h.keys_nodup hm hn hkey]

/-- `Insert` of an absent key keeps a front part of the list that leaves room, and the entry behind
it would not fit as well. -/
theorem WellFormed.insert_absent (h : s.WellFormed) {key : BlockCacheKey} {charge : ℕ}
    (habsent : ¬ s.Holds key) (hcapacity : s.capacityBytes ≠ 0) (hfits : charge ≤ s.capacityBytes)
    (block : List InternalEntry) (throws : Bool) :
    ∃ kept evicted id, s.lru = kept ++ evicted ∧
      (s.insert key (some block) charge throws).lru =
        (if throws then kept else ⟨id, key, block, charge⟩ :: kept) ∧
      LruEntry.total (kept.map CacheNode.entry) + charge ≤ s.capacityBytes ∧
      ∀ n ∈ evicted.head?,
        s.capacityBytes < LruEntry.total ((kept ++ [n]).map CacheNode.entry) + charge := by
  rcases h.insert_cases key (some block) charge throws with
    ⟨hrefused, -⟩ | ⟨before, n, after, hlru, hkey, -⟩ |
    ⟨b, s', hb, -, -, -, -, hwell, -, hevict, ⟨evicted, hlru⟩, hroom, hinsert, -, -⟩
  · rcases hrefused with hnone | hzero | hbig
    · cases hnone
    · exact absurd hzero hcapacity
    · exact absurd hfits (not_le.mpr hbig)
  · exact absurd ⟨n, by simp [hlru], hkey⟩ habsent
  · obtain rfl := Option.some.inj hb
    refine ⟨s'.lru, evicted, s'.nextId, hlru.symm, hinsert, hwell.charge_eq ▸ hroom, fun n hn => ?_⟩
    -- the evictions go from the back of the list, and stop at the first room
    have htotal : LruEntry.total (s.lru.map CacheNode.entry).reverse ≤ s.capacityBytes := by
      rw [LruEntry.total_perm (List.reverse_perm _), ← h.charge_eq]
      exact h.charge_le
    obtain ⟨gone, hgone, hlast⟩ := @LruEntry.evict_minimal _ _ _ charge _ htotal
    rw [← hevict, ← hlru, List.map_append, List.reverse_append] at hgone
    have hgone : gone = (evicted.map CacheNode.entry).reverse := (List.append_cancel_right hgone).symm
    have hfull := hlast n.entry (by
      rw [hgone, List.getLast?_reverse, List.head?_map, Option.mem_def.mp hn]
      rfl)
    rw [← hevict] at hfull
    refine hfull.trans_le (Nat.add_le_add_right (LruEntry.total_perm ?_).le charge)
    rw [List.map_append, List.map_singleton]
    exact (List.reverse_perm _).cons _ |>.trans (List.perm_append_singleton _ _).symm

/-- `Insert` of a present key only moves it to the front. -/
theorem WellFormed.insert_present (h : s.WellFormed) {key : BlockCacheKey} {charge : ℕ}
    (hpresent : s.Holds key) (hfits : charge ≤ s.capacityBytes) (block : List InternalEntry)
    (throws : Bool) :
    (s.insert key (some block) charge throws).lru = movedToFront s.lru key := by
  obtain ⟨m, hm, hkey⟩ := hpresent
  rcases h.insert_cases key (some block) charge throws with
    ⟨hrefused, -⟩ | ⟨before, n, after, hlru, rfl, -, heq, -⟩ |
    ⟨b, s', -, -, -, hnew, -⟩
  · rcases hrefused with hnone | hzero | hbig
    · cases hnone
    · rw [h.disabled hzero] at hm
      cases hm
    · exact absurd hfits (not_le.mpr hbig)
  · rw [heq, h.movedToFront_around hlru]
  · exact absurd hkey (hnew m hm)

/-- What holds of the cache of some capacity behind a sequence of calls. -/
structure Kept (capacity : ℕ) (calls : List Call) (s : CacheState) : Prop where
  capacity_eq : s.capacityBytes = capacity
  /-- The index and the list hold the same keys, and each position is that of the key's entry. -/
  indexed : ∀ key id, s.index key = some id ↔ ∃ n ∈ s.lru, n.key = key ∧ n.id = id
  keys_nodup : (s.lru.map CacheNode.key).Nodup
  ids_nodup : (s.lru.map CacheNode.id).Nodup
  charge_eq : s.chargeBytes = (s.lru.map CacheNode.charge).sum
  charge_le : s.chargeBytes ≤ capacity
  /-- The unsigned difference does not wrap. -/
  headroom_eq : s.headroom = capacity - s.chargeBytes
  hit_iff : ∀ key, (s.lookup key).1.isSome ↔ s.Holds key
  hit : ∀ key block, (s.lookup key).1 = some block → InsertedWith capacity calls key block
  used : ∀ key, (s.lookup key).2.lru = movedToFront s.lru key
  reinserted : ∀ key block charge throws, s.Holds key → charge ≤ capacity →
    (s.insert key (some block) charge throws).lru = movedToFront s.lru key
  inserted : ∀ key block charge throws, ¬ s.Holds key → capacity ≠ 0 → charge ≤ capacity →
    ∃ kept evicted id, s.lru = kept ++ evicted ∧
      (s.insert key (some block) charge throws).lru =
        (if throws then kept else ⟨id, key, block, charge⟩ :: kept) ∧
      (kept.map CacheNode.charge).sum + charge ≤ capacity ∧
      ∀ n ∈ evicted.head?, capacity < ((kept ++ [n]).map CacheNode.charge).sum + charge
  refused : ∀ key block charge throws, capacity = 0 ∨ block = none ∨ capacity < charge →
    s.insert key block charge throws = s
  erased : ∀ tableNumber, (s.eraseTable tableNumber).lru =
    s.lru.filter fun n => decide (n.key.tableNumber ≠ tableNumber)

theorem total_entries (nodes : List CacheNode) :
    LruEntry.total (nodes.map CacheNode.entry) = (nodes.map CacheNode.charge).sum := by
  rw [LruEntry.total, List.map_map]
  rfl

/-- A cache of any capacity keeps its list, its index and its charge together through every sequence
of calls. -/
theorem block_cache_kept (capacity : ℕ) (hcapacity : capacity < 2 ^ 64) (calls : List Call) :
    Kept capacity calls (afterCalls capacity calls) := by
  obtain ⟨h, hcap⟩ := wellFormed_afterCalls hcapacity calls
  refine
    { capacity_eq := hcap
      indexed := h.indexed
      keys_nodup := h.keys_nodup
      ids_nodup := h.ids_nodup
      charge_eq := h.charge_eq.trans (total_entries _)
      charge_le := h.charge_le.trans_eq hcap
      headroom_eq := h.headroom_eq.trans (by rw [hcap])
      hit_iff := fun key => ?_
      hit := fun key block hblock => ?_
      used := h.lookup_lru
      reinserted := fun key block charge throws hpresent hfits =>
        h.insert_present hpresent (hcap.symm ▸ hfits) block throws
      inserted := fun key block charge throws habsent hzero hfits => ?_
      refused := fun key block charge throws hrefused => ?_
      erased := fun tableNumber => (h.eraseTable tableNumber).2.2 }
  · rw [Option.isSome_iff_exists]
    simp only [h.lookup_eq_some_iff]
    constructor
    · rintro ⟨block, n, hn, hkey, -⟩
      exact ⟨n, hn, hkey⟩
    · rintro ⟨n, hn, hkey⟩
      exact ⟨n.block, n, hn, hkey, rfl⟩
  · obtain ⟨n, hn, rfl, rfl⟩ := h.lookup_eq_some_iff.mp hblock
    exact insertedWith_of_mem hcapacity calls hn
  · simpa only [total_entries, hcap] using
      h.insert_absent habsent (hcap.symm ▸ hzero) (hcap.symm ▸ hfits) block throws
  -- a disabled cache, and a block larger than the whole cache
  · rcases block with _ | block
    · rfl
    · have hif : (afterCalls capacity calls).capacityBytes = 0 ∨
          (afterCalls capacity calls).capacityBytes < charge := by
        rw [hcap]
        simpa using hrefused
      rw [CacheState.insert, if_pos hif]

/-- Two blocks of ten bytes in a cache of twenty; the third evicts the first. -/
theorem block_cache_kept_evicting :
    Kept 20 [.insert ⟨1, 0⟩ (some []) 10 false, .insert ⟨1, 8⟩ (some []) 10 false]
        (afterCalls 20 [.insert ⟨1, 0⟩ (some []) 10 false, .insert ⟨1, 8⟩ (some []) 10 false]) ∧
      ((afterCalls 20 [.insert ⟨1, 0⟩ (some []) 10 false, .insert ⟨1, 8⟩ (some []) 10 false,
        .insert ⟨2, 0⟩ (some []) 10 false]).lru.map CacheNode.key) = [⟨2, 0⟩, ⟨1, 8⟩] :=
  ⟨block_cache_kept 20 (by decide) _, by decide +kernel⟩

end CacheState

end TinyLsm
