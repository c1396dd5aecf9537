import TinyLsm.Util.Status
import TinyLsm.Memtable.MemTable

/-!
# Internal iterators

The interface of `iterator/internal_iterator.h`, the captured-vector source and what it means for an
iterator to yield a list of entries. `Valid()` and `entry()` are one operation here: the entry the
iterator stands on, if it is valid.
-/

namespace TinyLsm

/-- `InternalIterator`. `remaining` bounds the number of `Next` calls until the iterator is invalid;
it only serves as the fuel of the loops that drain an iterator. -/
class InternalIterator (ι : Type) where
  entry? : ι → Option InternalEntry
  seek : ι → Bytes → Status × ι
  next : ι → Status × ι
  status : ι → Status
  remaining : ι → ℕ

namespace InternalIterator

variable {ι : Type} [InternalIterator ι]

/-- The check every combinator makes after it moved an input: the returned status, then the sticky
one. -/
def moved (result : Status × ι) : Except Status ι :=
  if ¬ result.1.ok then .error result.1
  else if ¬ (status result.2).ok then .error (status result.2)
  else .ok result.2

/-- The iterator stands on the first entry of the list, and following `Next` walks the rest of it
without failing. -/
def Yields : ι → List InternalEntry → Prop
  | it, [] => entry? it = none ∧ (status it).ok = true
  | it, e :: es => entry? it = some e ∧ (status it).ok = true ∧ es.length < remaining it ∧
    ∃ it', moved (next it) = .ok it' ∧ Yields it' es

theorem Yields.entry? {it : ι} {es : List InternalEntry} (h : Yields it es) :
    entry? it = es.head? := by
  cases es with
  | nil => exact h.1
  | cons e es => exact h.1

theorem Yields.status_ok {it : ι} {es : List InternalEntry} (h : Yields it es) :
    (status it).ok = true := by
  cases es with
  | nil => exact h.2
  | cons e es => exact h.2.1

theorem Yields.length_le {it : ι} {es : List InternalEntry} (h : Yields it es) :
    es.length ≤ remaining it := by
  cases es with
  | nil => exact Nat.zero_le _
  | cons e es => exact h.2.2.1

/-- The loop that copies an iterator out: while it is valid, take the entry and call `Next`. The
fuel bounds the number of entries. -/
def drain : ℕ → ι → Result (List InternalEntry)
  | 0, it => if ¬ (status it).ok then .error (status it) else .ok []
  | fuel + 1, it =>
    match entry? it with
    | none => if ¬ (status it).ok then .error (status it) else .ok []
    | some e =>
      let (s, it) := next it
      if ¬ s.ok then .error s
      else
        match drain fuel it with
        | .error s => .error s
        | .ok es => .ok (e :: es)

theorem moved_eq_ok {result : Status × ι} {it : ι} (h : moved result = .ok it) :
    result.1.ok = true ∧ result.2 = it ∧ (status it).ok = true := by
  unfold moved at h
  split at h
  · cases h
  · rename_i hs
    split at h
    · cases h
    · rename_i hs'
      obtain rfl := Except.ok.inj h
      exact ⟨by simpa using hs, rfl, by simpa using hs'⟩

theorem moved_eq_error {result : Status × ι} {s : Status} (h : moved result = .error s) :
    s.ok = false := by
  unfold moved at h
  split at h
  · rename_i hs
    rw [← Except.error.inj h]
    simpa using hs
  · split at h
    · rename_i hs
      rw [← Except.error.inj h]
      simpa using hs
    · cases h

/-- Draining an iterator returns the list it yields. -/
theorem Yields.drain : ∀ {fuel : ℕ} {it : ι} {es : List InternalEntry}, Yields it es →
    es.length ≤ fuel → drain fuel it = .ok es := by
  intro fuel
  induction fuel with
  | zero =>
    intro it es h hle
    obtain rfl := List.length_eq_zero_iff.mp (Nat.le_zero.mp hle)
    simp [InternalIterator.drain, h.status_ok]
  | succ fuel ih =>
    intro it es h hle
    cases es with
    | nil => simp [InternalIterator.drain, h.1, h.2]
    | cons e es =>
      obtain ⟨hentry, -, -, it', hmoved, hyields⟩ := h
      obtain ⟨hok, hit, -⟩ := moved_eq_ok hmoved
      have hrest := ih hyields (by simpa using hle)
      rw [← hit] at hrest
      simp [InternalIterator.drain, hentry, hok, hrest]

/-- Seeking succeeds and leaves an iterator over the list. -/
def SeekYields (it : ι) (target : Bytes) (es : List InternalEntry) : Prop :=
  ∃ it', moved (seek it target) = .ok it' ∧ Yields it' es

/-- A wrapper that passes the calls on. -/
structure Wraps {κ : Type} [InternalIterator κ] (f : ι → κ) : Prop where
  entry?_eq (it : ι) : entry? (f it) = entry? it
  seek_eq (it : ι) (target : Bytes) : seek (f it) target = (seek it target).map id f
  next_eq (it : ι) : next (f it) = (next it).map id f
  status_eq (it : ι) : status (f it) = status it
  remaining_eq (it : ι) : remaining (f it) = remaining it

section
variable {κ : Type} [InternalIterator κ] {f : ι → κ} {it : ι} {es : List InternalEntry}

theorem Wraps.moved_map (h : Wraps f) (result : Status × ι) :
    moved (result.map id f) = (moved result).map f := by
  obtain ⟨status, it⟩ := result
  simp only [moved, Prod.map_apply, id_eq, h.status_eq]
  split
  · rfl
  split <;> rfl

theorem Wraps.yields (h : Wraps f) (hy : Yields it es) : Yields (f it) es := by
  induction es generalizing it with
  | nil => exact ⟨(h.entry?_eq it).trans hy.1, by rw [h.status_eq]; exact hy.2⟩
  | cons e es ih =>
    obtain ⟨hentry, hstatus, hlt, it', hmoved, hrest⟩ := hy
    refine ⟨(h.entry?_eq it).trans hentry, by rw [h.status_eq]; exact hstatus,
      by rw [h.remaining_eq]; exact hlt, f it', ?_, ih hrest⟩
    rw [h.next_eq, h.moved_map, hmoved]
    rfl

theorem Wraps.seekYields (h : Wraps f) {target : Bytes} (hy : SeekYields it target es) :
    SeekYields (f it) target es := by
  obtain ⟨it', hmoved, hyields⟩ := hy
  refine ⟨f it', ?_, h.yields hyields⟩
  rw [h.seek_eq, h.moved_map, hmoved]
  rfl

end

end InternalIterator

/-- `VectorIterator`: `index_` is kept as the suffix of the entries it points at. -/
structure VectorIterator where
  entries : List InternalEntry
  limit : Bytes
  rest : List InternalEntry

namespace VectorIterator

/-- `VectorIterator::Seek`; `lower_bound` on the ordered entries. -/
def seek (it : VectorIterator) (target : Bytes) : VectorIterator :=
  { it with rest := it.entries.dropWhile (·.userKey < target) }

/-- `VectorIterator::Valid` and `entry`. -/
def entry? (it : VectorIterator) : Option InternalEntry :=
  it.rest.head?.filter fun e => MemTable.belowEnd it.limit e.userKey

/-- `VectorIterator::Next`. -/
def next (it : VectorIterator) : VectorIterator :=
  match it.entry? with
  | some _ => { it with rest := it.rest.tail }
  | none => it

instance : InternalIterator VectorIterator where
  entry? := entry?
  seek it target := (.okay, it.seek target)
  next it := (.okay, it.next)
  status _ := .okay
  remaining it := it.rest.length

end VectorIterator

/-- The entries are in non-decreasing `InternalLess` order, as `std::is_sorted` tests. -/
def IsSorted : List InternalEntry → Prop
  | [] => True
  | [_] => True
  | a :: b :: rest => ¬ InternalLess b a ∧ IsSorted (b :: rest)

/-- `IsSorted` is decided along the list. -/
def IsSorted.decide : (es : List InternalEntry) → Decidable (IsSorted es)
  | [] => .isTrue trivial
  | [_] => .isTrue trivial
  | a :: b :: rest =>
    match IsSorted.decide (b :: rest) with
    | .isTrue h => if hab : InternalLess b a then .isFalse fun h' => h'.1 hab else .isTrue ⟨hab, h⟩
    | .isFalse h => .isFalse fun h' => h h'.2

instance (es : List InternalEntry) : Decidable (IsSorted es) := IsSorted.decide es

/-- `NewVectorIterator`. -/
def newVectorIterator (entries : List InternalEntry) (start limit : Bytes) :
    Result VectorIterator :=
  if ¬ IsSorted entries then
    .error (.corruption "captured entries are not internally ordered")
  else .ok (VectorIterator.seek ⟨entries, limit, entries⟩ start)

open InternalIterator

theorem Ordered.isSorted {es : List InternalEntry} (h : Ordered es) : IsSorted es := by
  induction es with
  | nil => trivial
  | cons a es ih =>
    cases es with
    | nil => trivial
    | cons b es =>
      obtain ⟨hall, hrest⟩ := List.pairwise_cons.mp h
      exact ⟨(hall b List.mem_cons_self).asymm, ih hrest⟩

/-- In an ordered list a key range is a contiguous piece. -/
theorem Ordered.dropWhile_takeWhile {es : List InternalEntry} (h : Ordered es)
    (start limit : Bytes) :
    (es.dropWhile (fun e => decide (e.userKey < start))).takeWhile
        (fun e => MemTable.belowEnd limit e.userKey) =
      es.filter fun e => MemTable.inRange start limit e.userKey := by
  have hlow : es.Pairwise fun a b => decide (b.userKey < start) = true →
      decide (a.userKey < start) = true := h.imp fun hab hb => by
    simp only [decide_eq_true_eq] at hb ⊢
    exact hab.key_le.trans_lt hb
  have hhigh : (es.filter fun e => !decide (e.userKey < start)).Pairwise fun a b =>
      MemTable.belowEnd limit b.userKey = true → MemTable.belowEnd limit a.userKey = true :=
    (List.Pairwise.filter _ h).imp fun hab hb => by
      simp only [MemTable.belowEnd, decide_eq_true_eq] at hb ⊢
      exact hb.imp_right hab.key_le.trans_lt
  rw [(MemTable.dropWhile_eq_filter hlow).1, (MemTable.dropWhile_eq_filter hhigh).2,
    List.filter_filter]
  refine List.filter_congr fun e _ => ?_
  rw [MemTable.inRange, Bool.and_comm, ← decide_not]
  simp only [not_lt]

theorem VectorIterator.yields (entries : List InternalEntry) (limit : Bytes)
    (rest : List InternalEntry) :
    Yields (⟨entries, limit, rest⟩ : VectorIterator)
      (rest.takeWhile fun e => MemTable.belowEnd limit e.userKey) := by
  induction rest with
  | nil => exact ⟨rfl, rfl⟩
  | cons e rest ih =>
    by_cases hin : MemTable.belowEnd limit e.userKey = true
    · rw [List.takeWhile_cons, if_pos hin]
      have hentry : VectorIterator.entry? ⟨entries, limit, e :: rest⟩ = some e := by
        simp [VectorIterator.entry?, hin]
      refine ⟨hentry, rfl, ?_, ⟨entries, limit, rest⟩, ?_, ih⟩
      · exact Nat.lt_succ_of_le (List.Sublist.length_le (List.takeWhile_sublist _))
      · simp [moved, InternalIterator.next, VectorIterator.next, hentry, InternalIterator.status]
    · rw [List.takeWhile_cons, if_neg hin]
      refine ⟨?_, rfl⟩
      simp [InternalIterator.entry?, VectorIterator.entry?, hin]

/-- Seeking a captured vector of ordered entries walks the entries of the range. -/
theorem VectorIterator.seekYields (it : VectorIterator) (h : Ordered it.entries) (target : Bytes) :
    SeekYields it target (it.entries.filter fun e => MemTable.inRange target it.limit e.userKey) := by
  refine ⟨it.seek target, rfl, ?_⟩
  rw [← h.dropWhile_takeWhile]
  exact VectorIterator.yields _ _ _

end TinyLsm
