import TinyLsm.Library.OrderedMap
import TinyLsm.Model.InternalEntry
import TinyLsm.Sstable.TableFile
import Mathlib.Data.List.Find
import Mathlib.Data.List.Induction
import Mathlib.Data.List.TakeWhile

/-!
# MemTable

`memtable/memtable.cpp`: a map from keys to their versions, newest first, with the accounted bytes.
`ApplyBatch` stages the final version lists of the touched keys and then stores them. The invariant
says that the flattened table is an ordered list of entries, so that lookups and scans are those of
that list.
-/

namespace TinyLsm

/-- What the build platform fixes: `sizeof(InternalEntry)`. It holds two strings and a sequence. -/
class EntrySize where
  sizeofInternalEntry : ℕ
  le_sizeof : 24 ≤ sizeofInternalEntry

/-- `sizeof(InternalEntry)` with two 32-byte strings. -/
@[reducible] def entrySize80 : EntrySize := ⟨80, by decide⟩

/-- `EntryBytes`. -/
def entryBytes [EntrySize] (e : InternalEntry) : ℕ :=
  EntrySize.sizeofInternalEntry + e.userKey.length + e.value.length

/-- `MemTable`. -/
structure MemTable where
  entries : List (Bytes × List InternalEntry)
  bytes : ℕ
deriving DecidableEq, Repr

namespace MemTable

/-- A new `MemTable`. -/
def empty : MemTable := ⟨[], 0⟩

/-- `MemTable::Empty`. -/
def isEmpty (m : MemTable) : Bool := m.entries = []

/-- All versions in the table, in key order and newest first. -/
def contents (m : MemTable) : List InternalEntry := m.entries.flatMap (·.2)

/-- The size and sequence checks of `ApplyBatch` behind `previousSequence`; `addedBytes` is counted
so far. -/
def checkBatch [EntrySize] : ℕ → ℕ → List InternalEntry → Result ℕ
  | _, addedBytes, [] => .ok addedBytes
  | previousSequence, addedBytes, e :: rest =>
    if e.sequence = 0 ∨ (previousSequence ≠ 0 ∧ e.sequence ≤ previousSequence) then
      .error (.corruption "memtable batch sequence did not increase")
    else if 2 ^ 64 - 1 - addedBytes < entryBytes e then
      .error (.resourceExhausted "memtable batch size overflow")
    else checkBatch e.sequence (addedBytes + entryBytes e) rest

/-- The `staged` map of `ApplyBatch`: the batch's versions of each key, oldest first. -/
def stage (es : List InternalEntry) : List (Bytes × List InternalEntry) :=
  es.foldl (fun m e => OrderedMap.set m e.userKey ((OrderedMap.find m e.userKey).getD [] ++ [e])) []

/-- The complete replacement versions of the staged keys. -/
def mergeStaged (entries : List (Bytes × List InternalEntry)) :
    List (Bytes × List InternalEntry) → Result (List (Bytes × List InternalEntry))
  | [] => .ok []
  | (key, versions) :: rest =>
    let existing := (OrderedMap.find entries key).getD []
    if ∃ old ∈ existing.head?, ∃ new ∈ versions.head?, new.sequence ≤ old.sequence then
      .error (.corruption "memtable batch sequence did not increase")
    else
      match mergeStaged entries rest with
      | .error s => .error s
      | .ok merged => .ok ((key, versions.reverse ++ existing) :: merged)

/-- `MemTable::ApplyBatch`. -/
def applyBatch [EntrySize] (m : MemTable) (es : List InternalEntry) : Result MemTable :=
  if es = [] then .ok m
  else
    match checkBatch 0 0 es with
    | .error s => .error s
    | .ok addedBytes =>
      if 2 ^ 64 - 1 - m.bytes < addedBytes then
        .error (.resourceExhausted "memtable batch size overflow")
      else
        match mergeStaged m.entries (stage es) with
        | .error s => .error s
        | .ok merged => .ok ⟨OrderedMap.setAll m.entries merged, m.bytes + addedBytes⟩

/-- `MemTable::Get`. -/
def get (m : MemTable) (key : Bytes) (sequence : ℕ) : Result InternalEntry :=
  match OrderedMap.find m.entries key with
  | none => .error (.notFound "key is absent")
  | some versions =>
    match versions.find? (·.sequence ≤ sequence) with
    | none => .error (.notFound "key has no visible version")
    | some e => .ok e

/-- Whether a key lies below the end of a range; the empty end is no bound. -/
def belowEnd (limit key : Bytes) : Bool := limit = [] ∨ key < limit

/-- `MemTable::Scan` over `[start, limit)`. -/
def scan (m : MemTable) (start limit : Bytes) : List InternalEntry :=
  ((m.entries.dropWhile (·.1 < start)).takeWhile (fun p => belowEnd limit p.1)).flatMap (·.2)

/-! ## Representation invariant -/

/-- The versions stored for a key carry it and are strictly newest first. -/
structure VersionsOk (key : Bytes) (versions : List InternalEntry) : Prop where
  nonempty : versions ≠ []
  key_eq : ∀ e ∈ versions, e.userKey = key
  newest_first : versions.Pairwise fun a b => b.sequence < a.sequence

/-- The representation invariant of a `MemTable`. -/
structure Inv (m : MemTable) : Prop where
  sorted : OrderedMap.Sorted m.entries
  versions : ∀ p ∈ m.entries, VersionsOk p.1 p.2

theorem inv_empty : Inv empty := ⟨List.Pairwise.nil, by simp [empty]⟩

variable {m : MemTable}

theorem VersionsOk.ordered {key : Bytes} {vs : List InternalEntry} (h : VersionsOk key vs) :
    Ordered vs :=
  h.newest_first.imp_of_mem fun ha hb hlt => .inr ⟨(h.key_eq _ ha).trans (h.key_eq _ hb).symm, hlt⟩

theorem Inv.ordered (h : Inv m) : Ordered m.contents := by
  rw [contents, List.flatMap, Ordered, List.pairwise_flatten]
  constructor
  · intro vs hvs
    obtain ⟨p, hp, rfl⟩ := List.mem_map.mp hvs
    exact (h.versions p hp).ordered
  · rw [List.pairwise_map]
    refine h.sorted.imp_of_mem fun {a b} ha hb hlt x hx y hy => .inl ?_
    rw [(h.versions a ha).key_eq x hx, (h.versions b hb).key_eq y hy]
    exact hlt

theorem Inv.mem_contents (h : Inv m) {e : InternalEntry} :
    e ∈ m.contents ↔ ∃ vs, OrderedMap.find m.entries e.userKey = some vs ∧ e ∈ vs := by
  simp only [contents, List.mem_flatMap]
  constructor
  · rintro ⟨⟨k, vs⟩, hp, he⟩
    obtain rfl := (h.versions _ hp).key_eq e he
    exact ⟨vs, h.sorted.find_eq_some_iff.mpr hp, he⟩
  · rintro ⟨vs, hfind, he⟩
    exact ⟨(e.userKey, vs), OrderedMap.find_mem hfind, he⟩

/-- Among versions of one key, visibility is a question of the sequence. -/
theorem find?_sequence_eq {vs : List InternalEntry} {key : Bytes} {sequence : ℕ}
    (h : ∀ e ∈ vs, e.userKey = key) :
    vs.find? (·.sequence ≤ sequence) = findVersion vs key sequence :=
  List.find?_congr fun e he => by simp [InternalEntry.Visible, h e he]

/-- `MemTable::Get` is the lookup in the flattened table. -/
theorem Inv.isLookup_get (h : Inv m) (key : Bytes) (sequence : ℕ) :
    IsLookup m.contents key sequence (m.get key sequence) := by
  rw [isLookup_iff h.ordered, get]
  cases hfind : OrderedMap.find m.entries key with
  | none =>
    refine .inr ⟨⟨_, rfl⟩, findVersion_eq_none_of_ne ?_⟩
    rintro e he rfl
    obtain ⟨vs, hvs, -⟩ := h.mem_contents.mp he
    rw [hfind] at hvs
    cases hvs
  | some vs =>
    have hok := h.versions (key, vs) (OrderedMap.find_mem hfind)
    -- the versions of the key are the entries of the key in the flattened table
    have hmem : ∀ e, e ∈ m.contents ∧ e.userKey = key ↔ e ∈ vs := by
      intro e
      constructor
      · rintro ⟨he, rfl⟩
        obtain ⟨vs', hvs', hev⟩ := h.mem_contents.mp he
        rw [hfind] at hvs'
        rwa [Option.some.inj hvs']
      · intro he
        obtain rfl := hok.key_eq e he
        exact ⟨h.mem_contents.mpr ⟨vs, hfind, he⟩, rfl⟩
    have hsearch : vs.find? (·.sequence ≤ sequence) = findVersion vs key sequence :=
      find?_sequence_eq hok.key_eq
    simp only
    cases hv : vs.find? (·.sequence ≤ sequence) with
    | none =>
      refine .inr ⟨⟨_, rfl⟩, findVersion_eq_none_iff.mpr ?_⟩
      rintro e he hkey
      rw [hsearch, findVersion_eq_none_iff] at hv
      exact hv e ((hmem e).mp ⟨he, hkey⟩) hkey
    | some e =>
      refine .inl ⟨e, rfl, ?_⟩
      rw [hsearch, hok.ordered.findVersion_eq_some_iff] at hv
      rw [h.ordered.findVersion_eq_some_iff]
      refine ⟨((hmem e).mpr hv.mem).1, hv.key_eq, hv.sequence_le, fun e' he' hkey hs => ?_⟩
      exact hv.newest e' ((hmem e').mp ⟨he', hkey⟩) hkey hs

/-! ## Scan -/

theorem scan_all (m : MemTable) : m.scan [] [] = m.contents := by
  have h1 : m.entries.dropWhile (fun p => decide (p.1 < ([] : Bytes))) = m.entries := by
    cases hm : m.entries with
    | nil => rfl
    | cons p ps => exact List.dropWhile_cons_of_neg (by simp)
  have h2 : m.entries.takeWhile (fun p => belowEnd [] p.1) = m.entries := by
    rw [List.takeWhile_eq_self_iff]
    simp [belowEnd]
  rw [scan, h1, h2, contents]

/-- A prefix test that only falls along a sorted map selects what it filters. -/
theorem dropWhile_eq_filter {α : Type*} {p : α → Bool} {l : List α}
    (h : l.Pairwise fun a b => p b = true → p a = true) :
    l.dropWhile p = l.filter (fun a => !p a) ∧ l.takeWhile p = l.filter p := by
  induction l with
  | nil => exact ⟨rfl, rfl⟩
  | cons a l ih =>
    obtain ⟨hall, hl⟩ := List.pairwise_cons.mp h
    obtain ⟨h1, h2⟩ := ih hl
    by_cases hp : p a = true
    · rw [List.dropWhile_cons_of_pos hp, List.takeWhile_cons_of_pos hp, h1, h2]
      simp [hp]
    · rw [List.dropWhile_cons_of_neg hp, List.takeWhile_cons_of_neg hp]
      have hnone : ∀ b ∈ l, p b = false := fun b hb => by
        by_contra hb'
        exact hp (hall b hb (by simpa using hb'))
      constructor
      · rw [List.filter_cons_of_pos (by simpa using hp), List.filter_eq_self.mpr]
        simpa using hnone
      · rw [List.filter_cons_of_neg hp, List.filter_eq_nil_iff.mpr]
        simpa using hnone

/-- Whether a key lies in `[start, limit)`. -/
def inRange (start limit key : Bytes) : Bool := decide (start ≤ key) && belowEnd limit key

/-- `MemTable::Scan` selects the entries of the range. -/
theorem Inv.scan_eq (h : Inv m) (start limit : Bytes) :
    m.scan start limit = m.contents.filter (fun e => inRange start limit e.userKey) := by
  have hlow : (m.entries.Pairwise fun a b => decide (b.1 < start) = true →
      decide (a.1 < start) = true) := h.sorted.imp fun {a b} hlt hb => by
    simp only [decide_eq_true_eq] at hb ⊢
    exact hlt.trans hb
  rw [scan, (dropWhile_eq_filter hlow).1]
  have hhigh : ((m.entries.filter fun a => !decide (a.1 < start)).Pairwise fun a b =>
      belowEnd limit b.1 = true → belowEnd limit a.1 = true) :=
    (h.sorted.filter _).imp fun {a b} hlt hb => by
      simp only [belowEnd, decide_eq_true_eq] at hb ⊢
      rcases hb with hb | hb
      · exact .inl hb
      · exact .inr (hlt.trans hb)
  rw [(dropWhile_eq_filter hhigh).2, List.filter_filter, contents, List.filter_flatMap]
  -- the versions of a key are all in the range or all outside
  have hversions := h.versions
  clear hlow hhigh h
  generalize m.entries = entries at hversions
  induction entries with
  | nil => rfl
  | cons p ps ih =>
    have hp := hversions p List.mem_cons_self
    have hrest := ih fun q hq => hversions q (List.mem_cons_of_mem _ hq)
    have hsame : p.2.filter (fun e => inRange start limit e.userKey) =
        if inRange start limit p.1 = true then p.2 else [] := by
      split
      · rename_i hin
        rw [List.filter_eq_self]
        intro e he
        rwa [hp.key_eq e he]
      · rename_i hin
        rw [List.filter_eq_nil_iff]
        intro e he
        rwa [hp.key_eq e he]
    rw [List.flatMap_cons, hsame, ← hrest, List.filter_cons]
    have htest : (belowEnd limit p.1 && !decide (p.1 < start)) = inRange start limit p.1 := by
      rw [inRange, Bool.and_comm, ← decide_not]
      simp only [not_lt]
    rw [htest]
    split <;> simp

/-! ## ApplyBatch -/

variable {es : List InternalEntry}

theorem stage_append_singleton (es : List InternalEntry) (e : InternalEntry) :
    stage (es ++ [e]) = OrderedMap.set (stage es) e.userKey
      ((OrderedMap.find (stage es) e.userKey).getD [] ++ [e]) := by
  rw [stage, List.foldl_append]
  rfl

theorem sorted_stage (es : List InternalEntry) : OrderedMap.Sorted (stage es) := by
  induction es using List.reverseRecOn with
  | nil => exact List.Pairwise.nil
  | append_singleton es e ih =>
    rw [stage_append_singleton]
    exact ih.set _ _

/-- The staged versions of a key are the batch's entries of that key. -/
theorem find_stage (es : List InternalEntry) (key : Bytes) :
    OrderedMap.find (stage es) key =
      if es.filter (fun e => decide (e.userKey = key)) = [] then none
      else some (es.filter (fun e => decide (e.userKey = key))) := by
  induction es using List.reverseRecOn with
  | nil => rfl
  | append_singleton es e ih =>
    rw [stage_append_singleton, OrderedMap.find_set, List.filter_append]
    by_cases hkey : e.userKey = key
    · subst hkey
      rw [if_pos rfl, ih]
      split
      · rename_i hnil
        simp [hnil]
      · simp
    · rw [if_neg hkey, ih]
      simp [hkey]

theorem mergeStaged_eq_ok {entries staged merged : List (Bytes × List InternalEntry)}
    (h : mergeStaged entries staged = .ok merged) :
    merged = staged.map (fun p => (p.1, p.2.reverse ++ (OrderedMap.find entries p.1).getD [])) ∧
    ∀ p ∈ staged, ∀ old ∈ ((OrderedMap.find entries p.1).getD []).head?, ∀ new ∈ p.2.head?,
      old.sequence < new.sequence := by
  induction staged generalizing merged with
  | nil =>
    obtain rfl := Except.ok.inj h
    exact ⟨rfl, by simp⟩
  | cons p staged ih =>
    obtain ⟨key, versions⟩ := p
    simp only [mergeStaged] at h
    split at h
    · cases h
    rename_i hcheck
    cases hrest : mergeStaged entries staged with
    | error s => rw [hrest] at h; cases h
    | ok rest =>
      rw [hrest] at h
      obtain rfl := Except.ok.inj h
      obtain ⟨rfl, hall⟩ := ih hrest
      refine ⟨rfl, List.forall_mem_cons.mpr ⟨fun old hold new hnew => ?_, hall⟩⟩
      by_contra hle
      exact hcheck ⟨old, hold, new, hnew, not_lt.mp hle⟩

theorem mergeStaged_ok {entries staged : List (Bytes × List InternalEntry)}
    (h : ∀ p ∈ staged, ∀ old ∈ ((OrderedMap.find entries p.1).getD []).head?, ∀ new ∈ p.2.head?,
      old.sequence < new.sequence) : ∃ merged, mergeStaged entries staged = .ok merged := by
  induction staged with
  | nil => exact ⟨[], rfl⟩
  | cons p staged ih =>
    obtain ⟨key, versions⟩ := p
    obtain ⟨hp, hrest⟩ := List.forall_mem_cons.mp h
    obtain ⟨merged, hmerged⟩ := ih hrest
    simp only [mergeStaged, hmerged]
    rw [if_neg]
    · exact ⟨_, rfl⟩
    · rintro ⟨old, hold, new, hnew, hle⟩
      exact absurd (hp old hold new hnew) (not_lt.mpr hle)

theorem find_map_snd {α β : Type*} (f : Bytes → α → β) (l : List (Bytes × α)) (key : Bytes) :
    OrderedMap.find (l.map fun p => (p.1, f p.1 p.2)) key =
      (OrderedMap.find l key).map (f key) := by
  induction l with
  | nil => rfl
  | cons p l ih =>
    obtain ⟨a, v⟩ := p
    simp only [List.map_cons, OrderedMap.find, ih]
    split
    · rename_i h
      subst h
      rfl
    · rfl

theorem checkBatch_eq_ok [EntrySize] {previous added total : ℕ}
    (h : checkBatch previous added es = .ok total) :
    (∀ e ∈ es, 0 < e.sequence ∧ (previous ≠ 0 → previous < e.sequence)) ∧
    es.Pairwise (fun a b => a.sequence < b.sequence) ∧
    total = added + (es.map entryBytes).sum := by
  induction es generalizing previous added with
  | nil =>
    obtain rfl := Except.ok.inj h
    exact ⟨by simp, List.Pairwise.nil, by simp⟩
  | cons e es ih =>
    simp only [checkBatch] at h
    split at h
    · cases h
    rename_i hseq
    split at h
    · cases h
    obtain ⟨hall, hpair, htotal⟩ := ih h
    simp only [not_or, not_and, not_le] at hseq
    have hpos : 0 < e.sequence := Nat.pos_of_ne_zero hseq.1
    refine ⟨List.forall_mem_cons.mpr ⟨⟨hpos, hseq.2⟩, fun e' he' => ?_⟩,
      List.Pairwise.cons (fun e' he' => (hall e' he').2 hseq.1) hpair, ?_⟩
    · obtain ⟨h1, h2⟩ := hall e' he'
      exact ⟨h1, fun hp => (hseq.2 hp).trans (h2 hseq.1)⟩
    · rw [htotal, List.map_cons, List.sum_cons, Nat.add_assoc]

/-- What a successful `ApplyBatch` stores: the versions of a touched key are those of the batch,
newest first, and then the old ones. -/
structure Stored [EntrySize] (m m' : MemTable) (es : List InternalEntry) : Prop where
  sorted : OrderedMap.Sorted m.entries → OrderedMap.Sorted m'.entries
  find_eq : ∀ key, OrderedMap.find m'.entries key =
    if es.filter (fun e => decide (e.userKey = key)) = [] then OrderedMap.find m.entries key
    else some ((es.filter (fun e => decide (e.userKey = key))).reverse ++
      (OrderedMap.find m.entries key).getD [])
  bytes_eq : m'.bytes = m.bytes + (es.map entryBytes).sum
  bytes_lt : es ≠ [] → m.bytes + (es.map entryBytes).sum < 2 ^ 64
  positive : ∀ e ∈ es, 0 < e.sequence
  increasing : es.Pairwise fun a b => a.sequence < b.sequence
  newer : ∀ key, ∀ new ∈ es.find? (fun e => decide (e.userKey = key)),
    ∀ old ∈ ((OrderedMap.find m.entries key).getD []).head?, old.sequence < new.sequence

theorem applyBatch_eq_ok [EntrySize] {m' : MemTable} (happly : applyBatch m es = .ok m') :
    m.Stored m' es := by
  unfold MemTable.applyBatch at happly
  split at happly
  · rename_i hnil
    obtain rfl := Except.ok.inj happly
    subst hnil
    exact ⟨id, by simp, by simp, by simp, by simp, List.Pairwise.nil, by simp⟩
  split at happly
  · cases happly
  rename_i added hcheck
  split at happly
  · cases happly
  rename_i hadded
  split at happly
  · cases happly
  rename_i merged hmerged
  obtain rfl := Except.ok.inj happly
  obtain ⟨hpos, hinc, hbytes⟩ := checkBatch_eq_ok hcheck
  obtain ⟨hmerge, hfront⟩ := mergeStaged_eq_ok hmerged
  rw [Nat.zero_add] at hbytes
  subst hbytes
  have hmergedSorted : OrderedMap.Sorted merged := by
    rw [hmerge, OrderedMap.Sorted, List.pairwise_map]
    exact sorted_stage es
  refine ⟨fun hm => hm.setAll merged, fun key => ?_, rfl, fun hne => ?_, fun e he => (hpos e he).1,
    hinc, fun key new hnew old hold => ?_⟩
  · rw [OrderedMap.find_setAll _ hmergedSorted, hmerge,
      find_map_snd (fun k (v : List InternalEntry) => v.reverse ++
        (OrderedMap.find m.entries k).getD []), find_stage]
    split <;> simp
  · -- an entry takes some bytes, so that the free space is not empty
    obtain ⟨e, rest, rfl⟩ := List.exists_cons_of_ne_nil hne
    have hsize : 24 ≤ entryBytes e := by
      have := EntrySize.le_sizeof
      unfold entryBytes
      omega
    rw [List.map_cons, List.sum_cons] at hadded ⊢
    omega
  · have hhead : new ∈ (es.filter fun e => decide (e.userKey = key)).head? := by
      rwa [List.head?_filter]
    have hne : es.filter (fun e => decide (e.userKey = key)) ≠ [] :=
      List.ne_nil_of_mem (List.mem_of_head? hhead)
    have hstaged : (key, es.filter (fun e => decide (e.userKey = key))) ∈ stage es := by
      apply OrderedMap.find_mem
      rw [find_stage, if_neg hne]
    exact hfront _ hstaged old hold new hhead

/-- The versions of a key stay in order. -/
theorem Stored.versionsOk [EntrySize] {m' : MemTable} (hs : m.Stored m' es) (h : Inv m) {key : Bytes}
    {vs : List InternalEntry} (hvs : OrderedMap.find m'.entries key = some vs) :
    VersionsOk key vs := by
  rw [hs.find_eq key] at hvs
  split at hvs
  · exact h.versions (key, vs) (OrderedMap.find_mem hvs)
  rename_i hne
  obtain rfl := Option.some.inj hvs
  have hstaged : ∀ e ∈ (es.filter fun e => decide (e.userKey = key)).reverse, e.userKey = key :=
    fun e he => by simpa using (List.mem_filter.mp (List.mem_reverse.mp he)).2
  have hnewest : (es.filter fun e => decide (e.userKey = key)).reverse.Pairwise
      fun a b => b.sequence < a.sequence := by
    rw [List.pairwise_reverse]
    exact hs.increasing.filter _
  cases hold : OrderedMap.find m.entries key with
  | none => exact ⟨by simp [hne], by simp, by simpa using hnewest⟩
  | some old =>
    have hok := h.versions (key, old) (OrderedMap.find_mem hold)
    simp only [Option.getD_some]
    refine ⟨by simp [hne], fun e he => ?_, ?_⟩
    · rcases List.mem_append.mp he with he | he
      · exact hstaged e he
      · exact hok.key_eq e he
    · -- every staged version is newer than the newest old one
      refine List.pairwise_append.mpr ⟨hnewest, hok.newest_first, fun new hnew o ho => ?_⟩
      obtain ⟨b, bs, hb⟩ := List.exists_cons_of_ne_nil hne
      obtain ⟨a, as, rfl⟩ := List.exists_cons_of_ne_nil hok.nonempty
      have hab : a.sequence < b.sequence :=
        hs.newer key b (by rw [← List.head?_filter, hb]; rfl) a (by simp [hold])
      have hbnew : b.sequence ≤ new.sequence := by
        have hincreasing := hs.increasing.filter fun e => decide (e.userKey = key)
        rw [hb] at hincreasing hnew
        rcases List.mem_cons.mp (List.mem_reverse.mp hnew) with rfl | hmem
        · exact le_rfl
        · exact ((List.pairwise_cons.mp hincreasing).1 new hmem).le
      have hao : o.sequence ≤ a.sequence := by
        rcases List.mem_cons.mp ho with rfl | hmem
        · exact le_rfl
        · exact ((List.pairwise_cons.mp hok.newest_first).1 o hmem).le
      omega

/-- A successful `ApplyBatch` keeps the invariant and adds exactly the batch. -/
theorem Inv.applyBatch [EntrySize] (h : Inv m) {m' : MemTable} (happly : applyBatch m es = .ok m') :
    Inv m' ∧ (∀ e, e ∈ m'.contents ↔ e ∈ m.contents ∨ e ∈ es) ∧
      m'.bytes = m.bytes + (es.map entryBytes).sum ∧
      (∀ e ∈ es, 0 < e.sequence) ∧ es.Pairwise (fun a b => a.sequence < b.sequence) := by
  have hs := applyBatch_eq_ok happly
  have hsorted := hs.sorted h.sorted
  have hinv : Inv m' := ⟨hsorted, fun p hp =>
    hs.versionsOk h (hsorted.find_eq_some_iff.mpr hp)⟩
  refine ⟨hinv, fun e => ?_, hs.bytes_eq, hs.positive, hs.increasing⟩
  rw [hinv.mem_contents, h.mem_contents, hs.find_eq]
  constructor
  · rintro ⟨vs, hvs, he⟩
    split at hvs
    · exact .inl ⟨vs, hvs, he⟩
    · obtain rfl := Option.some.inj hvs
      rcases List.mem_append.mp he with he | he
      · exact .inr (List.mem_filter.mp (List.mem_reverse.mp he)).1
      · left
        cases hf : OrderedMap.find m.entries e.userKey with
        | none => rw [hf] at he; cases he
        | some old => rw [hf] at he; exact ⟨old, rfl, he⟩
  · rintro (⟨vs, hvs, he⟩ | he)
    · rw [hvs]
      split
      · exact ⟨vs, rfl, he⟩
      · exact ⟨_, rfl, List.mem_append_right _ (by simpa using he)⟩
    · have hmem : e ∈ es.filter (fun e' => decide (e'.userKey = e.userKey)) := by simp [he]
      rw [if_neg (List.ne_nil_of_mem hmem)]
      exact ⟨_, rfl, List.mem_append_left _ (List.mem_reverse.mpr hmem)⟩

theorem checkBatch_error [EntrySize] {previous added : ℕ} {status : Status}
    (h : checkBatch previous added es = .error status) : status.ok = false := by
  induction es generalizing previous added with
  | nil => cases h
  | cons e es ih =>
    simp only [checkBatch] at h
    split at h
    · obtain rfl := Except.error.inj h
      rfl
    split at h
    · obtain rfl := Except.error.inj h
      rfl
    · exact ih h

theorem mergeStaged_error {entries staged : List (Bytes × List InternalEntry)} {status : Status}
    (h : mergeStaged entries staged = .error status) : status.ok = false := by
  induction staged with
  | nil => cases h
  | cons p staged ih =>
    simp only [mergeStaged] at h
    split at h
    · obtain rfl := Except.error.inj h
      rfl
    split at h
    · rename_i hrest
      obtain rfl := Except.error.inj h
      exact ih hrest
    · cases h

/-- An error of `ApplyBatch` is not an OK status. -/
theorem applyBatch_error [EntrySize] {status : Status}
    (h : applyBatch m es = .error status) : status.ok = false := by
  unfold applyBatch at h
  split at h
  · cases h
  split at h
  · rename_i hcheck
    obtain rfl := Except.error.inj h
    exact checkBatch_error hcheck
  split at h
  · obtain rfl := Except.error.inj h
    rfl
  split at h
  · rename_i hmerge
    obtain rfl := Except.error.inj h
    exact mergeStaged_error hmerge
  · cases h

theorem checkBatch_ok [EntrySize] {previous : ℕ} (added : ℕ)
    (hpos : ∀ e ∈ es, 0 < e.sequence ∧ (previous ≠ 0 → previous < e.sequence))
    (hinc : es.Pairwise (fun a b => a.sequence < b.sequence))
    (hbytes : added + (es.map entryBytes).sum < 2 ^ 64) :
    checkBatch previous added es = .ok (added + (es.map entryBytes).sum) := by
  induction es generalizing previous added with
  | nil => simp [checkBatch]
  | cons e es ih =>
    obtain ⟨he, hes⟩ := List.forall_mem_cons.mp hpos
    obtain ⟨hlt, hinc'⟩ := List.pairwise_cons.mp hinc
    rw [List.map_cons, List.sum_cons] at hbytes ⊢
    have hrec := ih (added + entryBytes e)
      (fun e' he' => ⟨(hes e' he').1, fun _ => hlt e' he'⟩) hinc' (by omega)
    simp only [checkBatch]
    rw [if_neg, if_neg (by omega), hrec, Nat.add_assoc]
    rintro (h0 | ⟨hp, hle⟩)
    · omega
    · have := he.2 hp
      omega

/-- The stored versions of a key, newest first. -/
def versionsOf (m : MemTable) (key : Bytes) : List InternalEntry :=
  (OrderedMap.find m.entries key).getD []

/-- The newest stored version of a key. -/
def newest? (m : MemTable) (key : Bytes) : Option InternalEntry := (m.versionsOf key).head?

/-- What `ApplyBatch` accepts. -/
structure Accepts [EntrySize] (m : MemTable) (es : List InternalEntry) : Prop where
  positive : ∀ e ∈ es, 0 < e.sequence
  increasing : es.Pairwise fun a b => a.sequence < b.sequence
  /-- The first new version of a key is newer than the stored ones. -/
  newer : ∀ key, ∀ new ∈ es.find? (fun e => decide (e.userKey = key)), ∀ old ∈ m.newest? key,
    old.sequence < new.sequence
  fits : m.bytes + (es.map entryBytes).sum < 2 ^ 64

/-- `ApplyBatch` succeeds on what it accepts. -/
theorem Accepts.applyBatch_ok [EntrySize] (ha : m.Accepts es) : ∃ m', m.applyBatch es = .ok m' := by
  have hfits := ha.fits
  unfold MemTable.applyBatch
  split
  · exact ⟨m, rfl⟩
  rw [checkBatch_ok 0 (fun e he => ⟨ha.positive e he, fun h0 => absurd rfl h0⟩) ha.increasing
    (by omega)]
  dsimp only
  rw [if_neg (by omega)]
  have hnewer : ∀ p ∈ stage es, ∀ old ∈ ((OrderedMap.find m.entries p.1).getD []).head?,
      ∀ new ∈ p.2.head?, old.sequence < new.sequence := by
    rintro ⟨key, vs⟩ hp old hold new hnew
    have hvs := (sorted_stage es).find_eq_some_iff.mpr hp
    rw [find_stage] at hvs
    split at hvs
    · cases hvs
    obtain rfl := Option.some.inj hvs
    rw [List.head?_filter] at hnew
    exact ha.newer key new hnew old hold
  obtain ⟨merged, hmerged⟩ := mergeStaged_ok hnewer
  rw [hmerged]
  exact ⟨_, rfl⟩

/-- `ApplyBatch` accepts newer sequences that fit the accounting. -/
theorem Inv.applyBatch_ok [EntrySize] (h : Inv m) (hpos : ∀ e ∈ es, 0 < e.sequence)
    (hinc : es.Pairwise (fun a b => a.sequence < b.sequence))
    (hnewer : ∀ a ∈ m.contents, ∀ e ∈ es, a.sequence < e.sequence)
    (hbytes : m.bytes + (es.map entryBytes).sum < 2 ^ 64) :
    ∃ m', MemTable.applyBatch m es = .ok m' := by
  refine Accepts.applyBatch_ok ⟨hpos, hinc, fun key new hnew old hold => ?_, hbytes⟩
  refine hnewer old ?_ new (List.mem_of_find?_eq_some hnew)
  cases hf : OrderedMap.find m.entries key with
  | none => simp [newest?, versionsOf, hf] at hold
  | some vs =>
    have hmem : old ∈ vs := List.mem_of_head? (by simpa [newest?, versionsOf, hf] using hold)
    obtain rfl := (h.versions (key, vs) (OrderedMap.find_mem hf)).key_eq old hmem
    exact h.mem_contents.mpr ⟨vs, hf, hmem⟩

end MemTable

end TinyLsm
