import TinyLsm.Library.Faults
import Mathlib.Order.Lattice
import Mathlib.Data.List.Lex

/-!
# Byte strings and fixed-width fields

Keys, values and file contents are byte strings. `BytewiseLess` (`util/bytewise_less.h`) is the
lexicographic order of unsigned bytes, which on `List UInt8` is `<`. The `PutFixed`/`GetFixed`
functions of `util/coding.cpp` are little-endian fields.
-/

/-- Bytes are ordered as the numbers they denote. -/
instance UInt8.linearOrder : LinearOrder UInt8 where
  le_refl a := by simp
  le_trans a b c := by simp only [UInt8.le_iff_toNat_le]; omega
  lt_iff_le_not_ge a b := by simp only [UInt8.le_iff_toNat_le, UInt8.lt_iff_toNat_lt]; omega
  le_antisymm a b := by
    simp only [UInt8.le_iff_toNat_le, ← UInt8.toNat_inj]
    omega
  le_total a b := by simp only [UInt8.le_iff_toNat_le]; omega
  toDecidableLE := inferInstance
  toDecidableEq := inferInstance
  toDecidableLT := inferInstance

namespace TinyLsm

/-- A `std::string` of bytes: a key, a value, or the contents of a file. -/
abbrev Bytes := List UInt8

/-- `PutFixed16`: the two bytes of a 16-bit field. -/
def putFixed16 (value : ℕ) : Bytes := LittleEndian.encode 2 value

/-- `PutFixed32`: the four bytes of a 32-bit field. -/
def putFixed32 (value : ℕ) : Bytes := LittleEndian.encode 4 value

/-- `PutFixed64`: the eight bytes of a 64-bit field. -/
def putFixed64 (value : ℕ) : Bytes := LittleEndian.encode 8 value

/-- `GetFixed16`: `none` when the field does not lie inside the span. -/
def getFixed16 (bytes : Bytes) (offset : ℕ) : Option ℕ := LittleEndian.readAt 2 bytes offset

/-- `GetFixed32`: `none` when the field does not lie inside the span. -/
def getFixed32 (bytes : Bytes) (offset : ℕ) : Option ℕ := LittleEndian.readAt 4 bytes offset

/-- `GetFixed64`: `none` when the field does not lie inside the span. -/
def getFixed64 (bytes : Bytes) (offset : ℕ) : Option ℕ := LittleEndian.readAt 8 bytes offset

/-- `FitsU32` (`sstable_builder.cpp`). -/
def fitsU32 (n : ℕ) : Bool := n < 2 ^ 32

@[simp] theorem length_putFixed16 (n : ℕ) : (putFixed16 n).length = 2 := LittleEndian.length_encode 2 n

@[simp] theorem length_putFixed32 (n : ℕ) : (putFixed32 n).length = 4 := LittleEndian.length_encode 4 n

@[simp] theorem length_putFixed64 (n : ℕ) : (putFixed64 n).length = 8 := LittleEndian.length_encode 8 n

theorem getFixed16_append (n : ℕ) (h : n < 2 ^ 16) (pre rest : Bytes) {off : ℕ}
    (hoff : off = pre.length) : getFixed16 (pre ++ (putFixed16 n ++ rest)) off = some n := by
  rw [hoff, getFixed16, putFixed16, LittleEndian.readAt_append_encode, Nat.mod_eq_of_lt (by omega)]

theorem getFixed32_append (n : ℕ) (h : n < 2 ^ 32) (pre rest : Bytes) {off : ℕ}
    (hoff : off = pre.length) : getFixed32 (pre ++ (putFixed32 n ++ rest)) off = some n := by
  rw [hoff, getFixed32, putFixed32, LittleEndian.readAt_append_encode, Nat.mod_eq_of_lt (by omega)]

theorem getFixed64_append (n : ℕ) (h : n < 2 ^ 64) (pre rest : Bytes) {off : ℕ}
    (hoff : off = pre.length) : getFixed64 (pre ++ (putFixed64 n ++ rest)) off = some n := by
  rw [hoff, getFixed64, putFixed64, LittleEndian.readAt_append_encode, Nat.mod_eq_of_lt (by omega)]

theorem getFixed32_zero (n : ℕ) (h : n < 2 ^ 32) (rest : Bytes) :
    getFixed32 (putFixed32 n ++ rest) 0 = some n := by
  rw [← List.nil_append (putFixed32 n ++ rest)]
  exact getFixed32_append n h [] rest rfl

theorem getFixed64_zero (n : ℕ) (h : n < 2 ^ 64) (rest : Bytes) :
    getFixed64 (putFixed64 n ++ rest) 0 = some n := by
  rw [← List.nil_append (putFixed64 n ++ rest)]
  exact getFixed64_append n h [] rest rfl

theorem getFixed32_append_right (pre rest : Bytes) (off : ℕ) :
    getFixed32 (pre ++ rest) (pre.length + off) = getFixed32 rest off :=
  LittleEndian.readAt_append_right 4 pre rest off

theorem getFixed64_append_right (pre rest : Bytes) (off : ℕ) :
    getFixed64 (pre ++ rest) (pre.length + off) = getFixed64 rest off :=
  LittleEndian.readAt_append_right 8 pre rest off

theorem getFixed32_drop (bytes : Bytes) (n off : ℕ) :
    getFixed32 (bytes.drop n) off = getFixed32 bytes (n + off) :=
  LittleEndian.readAt_drop (by decide) bytes n off

theorem getFixed64_drop (bytes : Bytes) (n off : ℕ) :
    getFixed64 (bytes.drop n) off = getFixed64 bytes (n + off) :=
  LittleEndian.readAt_drop (by decide) bytes n off

theorem drop_eq_putFixed16 {bytes : Bytes} {off : ℕ} (h : off + 2 ≤ bytes.length) :
    bytes.drop off = putFixed16 ((getFixed16 bytes off).getD 0) ++ bytes.drop (off + 2) :=
  LittleEndian.drop_eq_encode h

theorem drop_eq_putFixed32 {bytes : Bytes} {off : ℕ} (h : off + 4 ≤ bytes.length) :
    bytes.drop off = putFixed32 ((getFixed32 bytes off).getD 0) ++ bytes.drop (off + 4) :=
  LittleEndian.drop_eq_encode h

theorem drop_eq_putFixed64 {bytes : Bytes} {off : ℕ} (h : off + 8 ≤ bytes.length) :
    bytes.drop off = putFixed64 ((getFixed64 bytes off).getD 0) ++ bytes.drop (off + 8) :=
  LittleEndian.drop_eq_encode h

theorem drop_eq_getD_cons {bytes : Bytes} {off : ℕ} (h : off < bytes.length) :
    bytes.drop off = bytes.getD off 0 :: bytes.drop (off + 1) := by
  rw [List.drop_eq_getElem_cons h, List.getD_eq_getElem?_getD, List.getElem?_eq_getElem h,
    Option.getD_some]

/-! ## Fields read with machine integers -/

namespace Machine

variable {bytes : Bytes}

/-- `GetFixed16`. -/
def getFixed16 (bytes : Bytes) (offset : ℕ) : Faulting (Option ℕ) := Faulting.readAt 2 bytes offset

/-- `GetFixed32`. -/
def getFixed32 (bytes : Bytes) (offset : ℕ) : Faulting (Option ℕ) := Faulting.readAt 4 bytes offset

/-- `GetFixed64`. -/
def getFixed64 (bytes : Bytes) (offset : ℕ) : Faulting (Option ℕ) := Faulting.readAt 8 bytes offset

theorem getFixed16_eq (h : bytes.length < 2 ^ 64) (offset : ℕ) :
    getFixed16 bytes offset = .ok (TinyLsm.getFixed16 bytes offset) := Faulting.readAt_eq h 2 offset

theorem getFixed32_eq (h : bytes.length < 2 ^ 64) (offset : ℕ) :
    getFixed32 bytes offset = .ok (TinyLsm.getFixed32 bytes offset) := Faulting.readAt_eq h 4 offset

theorem getFixed64_eq (h : bytes.length < 2 ^ 64) (offset : ℕ) :
    getFixed64 bytes offset = .ok (TinyLsm.getFixed64 bytes offset) := Faulting.readAt_eq h 8 offset

theorem bindSome_getFixed32 {α : Type} (h : bytes.length < 2 ^ 64) (offset : ℕ)
    (f : ℕ → Faulting (Option α)) :
    Faulting.bindSome (getFixed32 bytes offset) f =
      if offset + 4 ≤ bytes.length then f ((TinyLsm.getFixed32 bytes offset).getD 0)
      else .ok none := Faulting.bindSome_readAt h 4 offset f

theorem bindSome_getFixed64 {α : Type} (h : bytes.length < 2 ^ 64) (offset : ℕ)
    (f : ℕ → Faulting (Option α)) :
    Faulting.bindSome (getFixed64 bytes offset) f =
      if offset + 8 ≤ bytes.length then f ((TinyLsm.getFixed64 bytes offset).getD 0)
      else .ok none := Faulting.bindSome_readAt h 8 offset f

end Machine

end TinyLsm
