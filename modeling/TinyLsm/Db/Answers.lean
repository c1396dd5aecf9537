import TinyLsm.Db.CompactionRun
import TinyLsm.Sstable.RestartSearch

/-!
# What `Get` answers

`Get` considers the newest visible version of every layer, where the search of a table without a
cache misses some. In a layered handle that is the newest visible version of all that the searches
reach, and the answer depends on what is visible only.
-/

namespace TinyLsm

/-- The newest version of the key up to the sequence, if there is one. -/
def Found (es : List InternalEntry) (key : Bytes) (sequence : ℕ) : Option InternalEntry → Prop
  | some e => IsNewest es key sequence e
  | none => ∀ e ∈ es, e.userKey = key → sequence < e.sequence

/-- The end of `Get`. -/
def readResult : Option InternalEntry → Result Bytes
  | none => .error (.notFound "key is absent or deleted")
  | some e =>
    if e.type = .tombstone then .error (.notFound "key is absent or deleted") else .ok e.value

section
variable {es es' : List InternalEntry} {key value : Bytes} {q : ℕ} {newest : Option InternalEntry}

/-- One more layer is considered. -/
theorem Found.consider {r : Result InternalEntry} (hf : Found es key q newest)
    (hr : IsLookup es' key q r) :
    ∃ newest', Handle.consider newest r = .ok newest' ∧ Found (es ++ es') key q newest' := by
  rcases hr with ⟨e, rfl, he⟩ | ⟨⟨m, rfl⟩, hnone⟩
  · cases newest with
    | none =>
      refine ⟨some e, rfl, List.mem_append_right _ he.mem, he.key_eq, he.sequence_le,
        fun e' he' hkey hle => ?_⟩
      rcases List.mem_append.mp he' with he' | he'
      · exact absurd hle (hf e' he' hkey).not_ge
      · exact he.newest e' he' hkey hle
    | some a =>
      have ha : IsNewest es key q a := hf
      refine ⟨_, rfl, ?_⟩
      split
      · rename_i hlt
        refine ⟨List.mem_append_right _ he.mem, he.key_eq, he.sequence_le, fun e' he' hkey hle => ?_⟩
        rcases List.mem_append.mp he' with he' | he'
        · exact (ha.newest e' he' hkey hle).trans hlt.le
        · exact he.newest e' he' hkey hle
      · rename_i hlt
        refine ⟨List.mem_append_left _ ha.mem, ha.key_eq, ha.sequence_le, fun e' he' hkey hle => ?_⟩
        rcases List.mem_append.mp he' with he' | he'
        · exact ha.newest e' he' hkey hle
        · exact (he.newest e' he' hkey hle).trans (not_lt.mp hlt)
  · refine ⟨newest, rfl, ?_⟩
    cases newest with
    | none =>
      intro e he hkey
      exact (List.mem_append.mp he).elim (fun he => hf e he hkey) fun he => hnone e he hkey
    | some a =>
      have ha : IsNewest es key q a := hf
      refine ⟨List.mem_append_left _ ha.mem, ha.key_eq, ha.sequence_le, fun e' he' hkey hle => ?_⟩
      rcases List.mem_append.mp he' with he' | he'
      · exact ha.newest e' he' hkey hle
      · exact absurd hle (hnone e' he' hkey).not_ge

/-- The versions of other keys do not matter. -/
theorem Found.skip (hf : Found es key q newest) (hne : ∀ e ∈ es', e.userKey ≠ key) :
    Found (es ++ es') key q newest := by
  cases newest with
  | none =>
    intro e he hkey
    exact (List.mem_append.mp he).elim (fun he => hf e he hkey) fun he => absurd hkey (hne e he)
  | some a =>
    have ha : IsNewest es key q a := hf
    refine ⟨List.mem_append_left _ ha.mem, ha.key_eq, ha.sequence_le, fun e' he' hkey hle => ?_⟩
    rcases List.mem_append.mp he' with he' | he'
    · exact ha.newest e' he' hkey hle
    · exact absurd hkey (hne e' he')

theorem Found.congr (h : ∀ e, e ∈ es ↔ e ∈ es') (hf : Found es key q newest) :
    Found es' key q newest := by
  cases newest with
  | none => exact fun e he => hf e ((h e).mpr he)
  | some a => exact IsNewest.congr (fun e _ => h e) hf

instance symm_distinct : Std.Symm fun a b : InternalEntry =>
    ¬ (a.userKey = b.userKey ∧ a.sequence = b.sequence) :=
  ⟨fun _ _ hab hba => hab ⟨hba.1.symm, hba.2.symm⟩⟩

theorem Distinct.perm (hd : Distinct es) (hperm : es'.Perm es) : Distinct es' :=
  (hperm.pairwise_iff fun hab => symm_distinct.symm _ _ hab).mpr hd

theorem Distinct.eq_of_same (hd : Distinct es) {a b : InternalEntry} (ha : a ∈ es) (hb : b ∈ es)
    (hkey : a.userKey = b.userKey) (hsequence : a.sequence = b.sequence) : a = b := by
  by_contra hne
  exact List.Pairwise.forall hd ha hb hne ⟨hkey, hsequence⟩

/-- Where no version occurs twice, what is visible is the version that is found. -/
theorem Found.visibleValue_iff (hd : Distinct es) (hf : Found es key q newest) :
    VisibleValue es key q value ↔ readResult newest = .ok value := by
  cases newest with
  | none =>
    constructor
    · rintro ⟨e, ⟨hmem, hle, -⟩, hkey, -⟩
      exact absurd hle (hf e hmem hkey).not_ge
    · intro h
      cases h
  | some a =>
    have ha : IsNewest es key q a := hf
    have hunique : ∀ e, NewestUpTo es q e → e.userKey = key → e = a := by
      rintro e ⟨hmem, hle, hmax⟩ hkey
      refine hd.eq_of_same hmem ha.mem (hkey.trans ha.key_eq.symm)
        (le_antisymm (ha.newest e hmem hkey hle) ?_)
      exact hmax a ha.mem (ha.key_eq.trans hkey.symm) ha.sequence_le
    constructor
    · rintro ⟨e, hnewest, hkey, htype, rfl⟩
      rw [hunique e hnewest hkey] at htype ⊢
      simp [readResult, htype]
    · intro h
      simp only [readResult] at h
      split at h
      · cases h
      rename_i htype
      obtain rfl := Except.ok.inj h
      refine ⟨a, ⟨ha.mem, ha.sequence_le, fun e' he' hkey => ?_⟩, ha.key_eq, ?_, rfl⟩
      · exact ha.newest e' he' (hkey.trans ha.key_eq)
      · cases hta : a.type with
        | value => rfl
        | tombstone => exact absurd hta htype

theorem readResult_cases (newest : Option InternalEntry) :
    (∃ value, readResult newest = .ok value) ∨
      readResult newest = .error (.notFound "key is absent or deleted") := by
  cases newest with
  | none => exact .inr rfl
  | some e =>
    simp only [readResult]
    split
    · exact .inr rfl
    · exact .inl ⟨_, rfl⟩

/-- Results that are a value or one fixed error are equal where their values are. -/
theorem result_eq_iff {r r' : Result Bytes} {s : Status} (h : (∃ value, r = .ok value) ∨ r = .error s)
    (h' : (∃ value, r' = .ok value) ∨ r' = .error s) :
    r = r' ↔ ∀ value, r = .ok value ↔ r' = .ok value := by
  refine ⟨fun heq value => by rw [heq], fun hiff => ?_⟩
  rcases h with ⟨value, rfl⟩ | rfl
  · exact ((hiff value).mp rfl).symm
  · rcases h' with ⟨value, rfl⟩ | rfl
    · exact (hiff value).mpr rfl
    · rfl

/-- Lists in which the same is visible give the same answer. -/
theorem readResult_congr {newest newest' : Option InternalEntry} {q' : ℕ} (hd : Distinct es)
    (hd' : Distinct es') (hf : Found es key q newest) (hf' : Found es' key q' newest')
    (h : ∀ value, VisibleValue es key q value ↔ VisibleValue es' key q' value) :
    readResult newest = readResult newest' := by
  refine (result_eq_iff (readResult_cases newest) (readResult_cases newest')).mpr fun value => ?_
  rw [← hf.visibleValue_iff hd, ← hf'.visibleValue_iff hd', h]

end

/-! ## The layers in `Get` -/

section
variable {key : Bytes} {q : ℕ}

theorem considerMemory_found {memtables : List MemTable} (h : ∀ m ∈ memtables, m.Inv)
    {es : List InternalEntry} {newest : Option InternalEntry} (hf : Found es key q newest) :
    ∃ newest', Handle.considerMemory key q newest memtables = .ok newest' ∧
      Found (es ++ memtables.flatMap MemTable.contents) key q newest' := by
  induction memtables generalizing es newest with
  | nil => exact ⟨newest, rfl, by simpa using hf⟩
  | cons m memtables ih =>
    obtain ⟨newest₁, hconsider, hf₁⟩ :=
      hf.consider ((h m List.mem_cons_self).isLookup_get key q)
    obtain ⟨newest₂, hrest, hf₂⟩ := ih (fun m hm => h m (List.mem_cons_of_mem _ hm)) hf₁
    refine ⟨newest₂, ?_, ?_⟩
    · rw [Handle.considerMemory, hconsider]
      exact hrest
    · rwa [List.append_assoc, ← List.flatMap_cons] at hf₂

/-- The entries of a table that a lookup reaches; with a cache it decodes whole blocks. -/
def Table.searched (cached : Bool) (t : Table) : List InternalEntry :=
  if cached then t.entries else t.entries.filter fun e => ¬ e.Missed t.reader.restarts

theorem Table.searched_sublist (cached : Bool) (t : Table) :
    (t.searched cached).Sublist t.entries := by
  cases cached with
  | true => exact List.Sublist.refl _
  | false => exact List.filter_sublist

theorem SSTableReader.Valid.isLookup_get {t : Table} {bss : List (List InternalEntry)}
    (h : t.reader.Valid bss) (hentries : t.entries = bss.flatten) (cached : Bool) (key : Bytes)
    (q : ℕ) : IsLookup (t.searched cached) key q (t.reader.get cached key q) := by
  cases cached with
  | true =>
    rw [Table.searched, if_pos rfl, hentries]
    exact h.get_cached key q
  | false =>
    rw [Table.searched, if_neg (by decide), hentries]
    exact h.get_uncached key q

/-- A table that is left out holds no version of the key. -/
theorem considerTables_found {metas : List TableMeta} {tables : List Table}
    (h : List.Forall₂ TableMeta.Describes metas tables) (cached : Bool) {es : List InternalEntry}
    {newest : Option InternalEntry} (hf : Found es key q newest) :
    ∃ newest', Handle.considerTables cached key q newest metas tables = .ok newest' ∧
      Found (es ++ tables.flatMap (Table.searched cached)) key q newest' := by
  induction h generalizing es newest with
  | nil => exact ⟨newest, rfl, by simpa using hf⟩
  | @cons m t metas tables hdescribes _ ih =>
    obtain ⟨bss, hvalid, hentries, hspans⟩ := Layered.entries_of_describes hdescribes
    rw [List.flatMap_cons, ← List.append_assoc]
    by_cases hout : key < m.smallestKey ∨ m.largestKey < key
    · have hskip : ∀ e ∈ t.searched cached, e.userKey ≠ key := by
        rintro e he rfl
        have hspan := hspans e ((t.searched_sublist cached).subset he)
        rcases hout with hlt | hlt
        · exact hlt.not_ge hspan.smallest_le
        · exact hlt.not_ge hspan.le_largest
      rw [Handle.considerTables, if_pos hout]
      exact ih (hf.skip hskip)
    · obtain ⟨newest₁, hconsider, hf₁⟩ := hf.consider (hvalid.isLookup_get hentries cached key q)
      rw [Handle.considerTables, if_neg hout, hconsider]
      exact ih hf₁

end

/-- The versions that the lookups of `Get` reach. -/
def Handle.searched (o : Options) (h : Handle) : List InternalEntry :=
  h.tables.flatMap (Table.searched (o.blockCacheBytes ≠ 0)) ++
    h.memtables.flatMap MemTable.contents

theorem Handle.searched_sublist (o : Options) (h : Handle) :
    (h.searched o).Sublist h.versions :=
  (List.Sublist.flatMap_right _ fun t _ => t.searched_sublist _).append (List.Sublist.refl _)

theorem Handle.searched_of_cache {o : Options} (hcache : o.blockCacheBytes ≠ 0) (h : Handle) :
    h.searched o = h.versions := by
  have hall : Table.searched (o.blockCacheBytes ≠ 0) = Table.entries := by
    funext t
    rw [Table.searched, if_pos (decide_eq_true hcache)]
  rw [Handle.searched, hall, Handle.versions]

/-- `Get` answers with the newest visible version of all that its lookups reach. -/
theorem Layered.get_searched {o : Options} {h : Handle} {w : Worker} (hl : Layered o h w)
    (hopen : h.checkOpen.ok = true) (key : Bytes) {snapshot : Option Snapshot}
    (hown : ∀ s ∈ snapshot, s.own = true) :
    ∃ newest, Found (h.searched o) key (h.readSequence snapshot) newest ∧
      h.get o key snapshot = readResult newest := by
  have hnil : Found [] key (h.readSequence snapshot) none := by simp [Found]
  obtain ⟨newest₁, hmemory, hf₁⟩ := considerMemory_found hl.memtables_inv hnil
  obtain ⟨newest, htables, hf⟩ := considerTables_found hl.tables (o.blockCacheBytes ≠ 0) hf₁
  refine ⟨newest, hf.congr fun e => ?_, ?_⟩
  · simp only [List.nil_append, Handle.searched, List.mem_append]
    exact or_comm
  · rw [Handle.get, if_neg (by simp [hopen]), if_neg (Snapshot.not_foreign hown), hmemory]
    dsimp only
    rw [if_neg (not_not.mpr hl.tables.length_eq), htables]
    cases newest <;> rfl

/-- With a cache `Get` answers with the newest visible version of all layers. -/
theorem Layered.get {o : Options} {h : Handle} {w : Worker} (hl : Layered o h w)
    (hcache : o.blockCacheBytes ≠ 0) (hopen : h.checkOpen.ok = true) (key : Bytes)
    {snapshot : Option Snapshot} (hown : ∀ s ∈ snapshot, s.own = true) :
    ∃ newest, Found h.versions key (h.readSequence snapshot) newest ∧
      h.get o key snapshot = readResult newest := by
  rw [← Handle.searched_of_cache hcache]
  exact hl.get_searched hopen key hown

end TinyLsm
