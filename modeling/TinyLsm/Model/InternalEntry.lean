import Mathlib.Data.List.Nodup
import TinyLsm.Util.Coding

/-!
# Internal entries

`model/internal_entry.h` and the order of `InternalLess`: keys ascending bytewise, and the versions
of one key from the newest sequence to the oldest. Both copies of `InternalLess` in the source
(`sstable_builder.cpp`, `internal_iterator.cpp`) are this relation.
-/

namespace TinyLsm

/-- `ValueType`: a live value or a deletion marker. -/
inductive ValueType where
  | value
  | tombstone
deriving DecidableEq, Repr

namespace ValueType

/-- The stored byte of a value type (`kValue = 1`, `kTombstone = 2`). -/
def toByte : ValueType → UInt8
  | value => 1
  | tombstone => 2

/-- The value type of a stored byte; every byte but 1 and 2 is invalid. -/
def ofByte? (byte : UInt8) : Option ValueType :=
  if byte = 1 then some value else if byte = 2 then some tombstone else none

@[simp] theorem ofByte?_toByte (t : ValueType) : ofByte? t.toByte = some t := by
  cases t <;> rfl

theorem toByte_of_ofByte? {byte : UInt8} {t : ValueType} (h : ofByte? byte = some t) :
    t.toByte = byte := by
  unfold ofByte? at h
  split at h
  · rename_i h1
    obtain rfl := Option.some.inj h
    rw [h1]
    rfl
  split at h
  · rename_i h2
    obtain rfl := Option.some.inj h
    rw [h2]
    rfl
  · cases h

end ValueType

/-- `InternalEntry`: one version of a key. -/
structure InternalEntry where
  userKey : Bytes
  sequence : ℕ
  type : ValueType
  value : Bytes
deriving DecidableEq, Repr

/-- `InternalLess`: key ascending, then sequence descending. -/
def InternalLess (left right : InternalEntry) : Prop :=
  left.userKey < right.userKey ∨
    (left.userKey = right.userKey ∧ right.sequence < left.sequence)

instance (left right : InternalEntry) : Decidable (InternalLess left right) :=
  inferInstanceAs (Decidable (_ ∨ _))

theorem InternalLess.irrefl (e : InternalEntry) : ¬ InternalLess e e := by
  rintro (h | h)
  · exact lt_irrefl _ h
  · exact lt_irrefl _ h.2

theorem InternalLess.trans {a b c : InternalEntry} (hab : InternalLess a b)
    (hbc : InternalLess b c) : InternalLess a c := by
  rcases hab with hab | ⟨hab, sab⟩ <;> rcases hbc with hbc | ⟨hbc, sbc⟩
  · exact .inl (hab.trans hbc)
  · exact .inl (hbc ▸ hab)
  · exact .inl (hab ▸ hbc)
  · exact .inr ⟨hab.trans hbc, sbc.trans sab⟩

theorem InternalLess.asymm {a b : InternalEntry} (hab : InternalLess a b) : ¬ InternalLess b a :=
  fun hba => InternalLess.irrefl a (hab.trans hba)

theorem InternalLess.key_le {a b : InternalEntry} (h : InternalLess a b) :
    a.userKey ≤ b.userKey := by
  rcases h with h | h
  · exact h.le
  · exact h.1.le

theorem InternalLess.sequence_lt {a b : InternalEntry} (h : InternalLess a b)
    (hkey : a.userKey = b.userKey) : b.sequence < a.sequence := by
  rcases h with h | h
  · exact absurd hkey h.ne
  · exact h.2

/-- Entries that are not ordered one way are ordered the other way or share key and sequence. -/
theorem InternalLess.total_of_ne {a b : InternalEntry}
    (h : ¬ (a.userKey = b.userKey ∧ a.sequence = b.sequence)) :
    InternalLess a b ∨ InternalLess b a := by
  rcases lt_trichotomy a.userKey b.userKey with hlt | heq | hgt
  · exact .inl (.inl hlt)
  · rcases lt_trichotomy a.sequence b.sequence with hlt | hs | hgt
    · exact .inr (.inr ⟨heq.symm, hlt⟩)
    · exact absurd ⟨heq, hs⟩ h
    · exact .inl (.inr ⟨heq, hgt⟩)
  · exact .inr (.inl hgt)

instance : Trans InternalLess InternalLess InternalLess := ⟨InternalLess.trans⟩

instance : Std.Irrefl InternalLess := ⟨InternalLess.irrefl⟩

/-- A list of entries in strict (key ascending, sequence descending) order. -/
def Ordered (entries : List InternalEntry) : Prop := entries.Pairwise InternalLess

instance (entries : List InternalEntry) : Decidable (Ordered entries) :=
  inferInstanceAs (Decidable (List.Pairwise _ _))

/-- Entries of an ordered list with one key and one sequence are the same entry. -/
theorem Ordered.eq_of_same {es : List InternalEntry} (h : Ordered es) {a b : InternalEntry}
    (ha : a ∈ es) (hb : b ∈ es) (hk : a.userKey = b.userKey) (hs : a.sequence = b.sequence) :
    a = b := by
  have hp := List.pairwise_iff_getElem.mp h
  obtain ⟨i, hi, rfl⟩ := List.mem_iff_getElem.mp ha
  obtain ⟨j, hj, rfl⟩ := List.mem_iff_getElem.mp hb
  rcases lt_trichotomy i j with hij | rfl | hij
  · have := (hp i j hi hj hij).sequence_lt hk
    omega
  · rfl
  · have := (hp j i hj hi hij).sequence_lt hk.symm
    omega

/-- Ordered lists of the same entries are equal. -/
theorem Ordered.ext {es es' : List InternalEntry} (h : Ordered es) (h' : Ordered es')
    (hmem : ∀ e, e ∈ es ↔ e ∈ es') : es = es' :=
  List.Perm.eq_of_pairwise (fun _ _ _ _ hab hba => absurd hba hab.asymm) h h'
    ((List.perm_ext_iff_of_nodup h.nodup h'.nodup).mpr hmem)

/-- The entry is a version of `key` that a read at `sequence` may see. -/
def InternalEntry.Visible (key : Bytes) (sequence : ℕ) (entry : InternalEntry) : Bool :=
  entry.userKey = key ∧ entry.sequence ≤ sequence

/-- The first listed version of `key` with a sequence at most `sequence`. In an ordered list this
is the newest such version. -/
def findVersion (entries : List InternalEntry) (key : Bytes) (sequence : ℕ) :
    Option InternalEntry :=
  entries.find? (InternalEntry.Visible key sequence)

@[simp] theorem InternalEntry.visible_iff {key : Bytes} {sequence : ℕ} {e : InternalEntry} :
    e.Visible key sequence = true ↔ e.userKey = key ∧ e.sequence ≤ sequence := by
  simp [InternalEntry.Visible]

/-- `e` is the version of `key` with the greatest sequence at most `sequence`. -/
structure IsNewest (entries : List InternalEntry) (key : Bytes) (sequence : ℕ)
    (e : InternalEntry) : Prop where
  mem : e ∈ entries
  key_eq : e.userKey = key
  sequence_le : e.sequence ≤ sequence
  newest : ∀ e' ∈ entries, e'.userKey = key → e'.sequence ≤ sequence → e'.sequence ≤ e.sequence

theorem findVersion_nil (key : Bytes) (sequence : ℕ) : findVersion [] key sequence = none := rfl

theorem findVersion_cons (e : InternalEntry) (es : List InternalEntry) (key : Bytes)
    (sequence : ℕ) : findVersion (e :: es) key sequence =
      if e.Visible key sequence then some e else findVersion es key sequence := by
  simp only [findVersion, List.find?_cons]
  cases e.Visible key sequence <;> rfl

theorem findVersion_append (as bs : List InternalEntry) (key : Bytes) (sequence : ℕ) :
    findVersion (as ++ bs) key sequence =
      (findVersion as key sequence).or (findVersion bs key sequence) := List.find?_append

theorem findVersion_eq_none_iff {es : List InternalEntry} {key : Bytes} {sequence : ℕ} :
    findVersion es key sequence = none ↔
      ∀ e ∈ es, e.userKey = key → sequence < e.sequence := by
  simp only [findVersion, List.find?_eq_none, InternalEntry.visible_iff, not_and, not_le]

theorem findVersion_eq_none_of_ne {es : List InternalEntry} {key : Bytes} {sequence : ℕ}
    (h : ∀ e ∈ es, e.userKey ≠ key) : findVersion es key sequence = none :=
  findVersion_eq_none_iff.mpr fun e he hkey => absurd hkey (h e he)

theorem findVersion_mem {es : List InternalEntry} {key : Bytes} {sequence : ℕ} {e : InternalEntry}
    (h : findVersion es key sequence = some e) :
    e ∈ es ∧ e.userKey = key ∧ e.sequence ≤ sequence := by
  have hv := List.find?_some h
  rw [InternalEntry.visible_iff] at hv
  exact ⟨List.mem_of_find?_eq_some h, hv⟩

/-- In an ordered list the first visible version is the newest one. -/
theorem Ordered.findVersion_eq_some_iff {es : List InternalEntry} (hord : Ordered es) {key : Bytes}
    {sequence : ℕ} {e : InternalEntry} :
    findVersion es key sequence = some e ↔ IsNewest es key sequence e := by
  induction es with
  | nil =>
    constructor
    · intro h; cases h
    · intro h; cases h.mem
  | cons a es ih =>
    obtain ⟨hless, hrest⟩ := List.pairwise_cons.mp hord
    rw [findVersion_cons]
    by_cases ha : a.Visible key sequence = true
    · rw [if_pos ha]
      rw [InternalEntry.visible_iff] at ha
      constructor
      · intro h
        obtain rfl : a = e := by simpa using h
        refine ⟨List.mem_cons_self, ha.1, ha.2, fun e' he' hkey _ => ?_⟩
        rcases List.mem_cons.mp he' with rfl | he'
        · exact le_rfl
        · exact ((hless e' he').sequence_lt (ha.1.trans hkey.symm)).le
      · intro h
        rcases List.mem_cons.mp h.mem with rfl | he
        · rfl
        · -- a later version of the key is older than the head
          have hlt := (hless e he).sequence_lt (ha.1.trans h.key_eq.symm)
          have := h.newest a List.mem_cons_self ha.1 ha.2
          omega
    · rw [if_neg ha, ih hrest]
      rw [InternalEntry.visible_iff] at ha
      constructor
      · intro h
        refine ⟨List.mem_cons_of_mem _ h.mem, h.key_eq, h.sequence_le, fun e' he' hkey hs => ?_⟩
        rcases List.mem_cons.mp he' with rfl | he'
        · exact absurd ⟨hkey, hs⟩ ha
        · exact h.newest e' he' hkey hs
      · intro h
        refine ⟨?_, h.key_eq, h.sequence_le, fun e' he' => h.newest e' (List.mem_cons_of_mem _ he')⟩
        rcases List.mem_cons.mp h.mem with rfl | he
        · exact absurd ⟨h.key_eq, h.sequence_le⟩ ha
        · exact he

end TinyLsm
