import Mathlib.Algebra.Order.Ring.Nat
import Mathlib.Data.List.Basic

/-!
# File names

`db/filename.cpp`: the canonical names of the numbered files.
-/

namespace TinyLsm

/-- `NumberedFileType`. -/
inductive NumberedFileType where
  | wal
  | sstable
  | sstableTemp
deriving DecidableEq, Repr

/-- `Suffix`. -/
def NumberedFileType.suffix : NumberedFileType → String
  | wal => ".wal"
  | sstable => ".sst"
  | sstableTemp => ".sst.tmp"

/-- `NumberedFileName`. -/
structure NumberedFileName where
  number : ℕ
  type : NumberedFileType
deriving DecidableEq, Repr

/-- The text of a name of the directory, a character for each of its bytes. -/
def textOf (name : List UInt8) : String := String.ofList (name.map fun b => Char.ofNat b.toNat)

/-- `FormatNumberedFileName`: at least six digits. -/
def formatNumberedFileName (number : ℕ) (type : NumberedFileType) : String :=
  let digits := toString number
  String.ofList (List.replicate (6 - digits.length) '0') ++ digits ++ type.suffix

/-- `WalFileName`. -/
def walFileName (number : ℕ) : String := formatNumberedFileName number .wal

/-- `SstableFileName`. -/
def sstableFileName (number : ℕ) : String := formatNumberedFileName number .sstable

/-- `std::string_view::ends_with` -/
def endsWith (name suffix : String) : Bool := suffix.toList.isSuffixOf name.toList

/-- `std::from_chars` on a 64-bit number that is all of the text. -/
def fromChars (digits : List Char) : Option ℕ :=
  if digits = [] ∨ digits.all Char.isDigit = false then none
  else
    let number := digits.foldl (fun n c => 10 * n + (c.toNat - '0'.toNat)) 0
    if 2 ^ 64 ≤ number then none else some number

/-- The part of `ParseNumberedFileName` behind the choice of the type. -/
def parseNumbered (name : String) (type : NumberedFileType) : Option NumberedFileName :=
  match fromChars (name.toList.take (name.toList.length - type.suffix.toList.length)) with
  | none => none
  | some number =>
    if number = 0 then none
    else if formatNumberedFileName number type ≠ name then none
    else some ⟨number, type⟩

/-- `ParseNumberedFileName`. -/
def parseNumberedFileName (name : String) : Option NumberedFileName :=
  if endsWith name NumberedFileType.sstableTemp.suffix then parseNumbered name .sstableTemp
  else if endsWith name NumberedFileType.sstable.suffix then parseNumbered name .sstable
  else if endsWith name NumberedFileType.wal.suffix then parseNumbered name .wal
  else none

/-- What is parsed is a 64-bit number from one on, and the name is its canonical one. -/
theorem parseNumbered_canonical {name : String} {type : NumberedFileType}
    {parsed : NumberedFileName} (h : parseNumbered name type = some parsed) :
    0 < parsed.number ∧ parsed.number < 2 ^ 64 ∧
      formatNumberedFileName parsed.number parsed.type = name := by
  unfold parseNumbered at h
  split at h
  · cases h
  rename_i number hnumber
  split at h
  · cases h
  rename_i hzero
  split at h
  · cases h
  rename_i hformat
  obtain rfl := Option.some.inj h
  refine ⟨Nat.pos_of_ne_zero hzero, ?_, not_not.mp hformat⟩
  unfold fromChars at hnumber
  split at hnumber
  · cases hnumber
  simp only at hnumber
  split at hnumber
  · cases hnumber
  · rename_i hlt
    rw [← Option.some.inj hnumber]
    exact not_le.mp hlt

/-- Only canonical names are parsed. -/
theorem parseNumberedFileName_canonical {name : String} {parsed : NumberedFileName}
    (h : parseNumberedFileName name = some parsed) :
    0 < parsed.number ∧ parsed.number < 2 ^ 64 ∧
      formatNumberedFileName parsed.number parsed.type = name := by
  unfold parseNumberedFileName at h
  split at h
  · exact parseNumbered_canonical h
  split at h
  · exact parseNumbered_canonical h
  split at h
  · exact parseNumbered_canonical h
  · cases h

/-! ## Canonical names -/

theorem toList_formatNumberedFileName (number : ℕ) (type : NumberedFileType) :
    (formatNumberedFileName number type).toList =
      List.replicate (6 - (Nat.toDigits 10 number).length) '0' ++ Nat.toDigits 10 number ++
        type.suffix.toList := by
  have hdigits : (toString number).toList = Nat.toDigits 10 number := by
    rw [Nat.toString_eq_repr, Nat.toList_repr]
  simp only [formatNumberedFileName, String.toList_append, String.toList_ofList, hdigits,
    ← String.length_toList]

/-- Leading zeros do not change the number that is read. -/
theorem fromChars_digits {number : ℕ} (hlt : number < 2 ^ 64) (zeros : ℕ) :
    fromChars (List.replicate zeros '0' ++ Nat.toDigits 10 number) = some number := by
  have hdigit : (List.replicate zeros '0' ++ Nat.toDigits 10 number).all Char.isDigit = true := by
    rw [List.all_eq_true]
    intro c hc
    rcases List.mem_append.mp hc with hc | hc
    · rw [List.eq_of_mem_replicate hc]
      rfl
    · exact Nat.isDigit_of_mem_toDigits (by decide) (by decide) hc
  have hvalue : (List.replicate zeros '0' ++ Nat.toDigits 10 number).foldl
      (fun n c => 10 * n + (c.toNat - '0'.toNat)) 0 = number := by
    rw [← Nat.ofDigitChars_eq_foldl, Nat.ofDigitChars_append, Nat.ofDigitChars_replicate_zero,
      Nat.mul_zero, Nat.ofDigitChars_ten_toDigits]
  have hnonempty : List.replicate zeros '0' ++ Nat.toDigits 10 number ≠ [] := fun h =>
    Nat.toDigits_ne_nil (List.append_eq_nil_iff.mp h).2
  rw [fromChars, if_neg (by simp [hnonempty, hdigit])]
  simp only [hvalue]
  rw [if_neg (not_le.mpr hlt)]

/-- The last characters of the suffixes differ, although one is an extension of another. -/
theorem NumberedFileType.getLast_suffix_injective {type type' : NumberedFileType}
    (h : type.suffix.toList.getLast? = type'.suffix.toList.getLast?) : type = type' := by
  revert h
  cases type <;> cases type' <;> decide

theorem endsWith_formatNumberedFileName (number : ℕ) (type type' : NumberedFileType) :
    endsWith (formatNumberedFileName number type) type'.suffix = decide (type' = type) := by
  rw [Bool.eq_iff_iff, endsWith, List.isSuffixOf_iff_suffix, decide_eq_true_iff,
    toList_formatNumberedFileName]
  constructor
  · rintro ⟨start, hstart⟩
    have hlast := congrArg List.getLast? hstart
    have hne : ∀ t : NumberedFileType, t.suffix.toList ≠ [] := by
      intro t
      cases t <;> decide
    rw [List.getLast?_append_of_ne_nil _ (hne type'), List.getLast?_append_of_ne_nil _ (hne type)]
      at hlast
    exact NumberedFileType.getLast_suffix_injective hlast
  · rintro rfl
    exact List.suffix_append _ _

/-- A formatted number is read back. -/
theorem parse_formatNumberedFileName {number : ℕ} (hpos : 0 < number) (hlt : number < 2 ^ 64)
    (type : NumberedFileType) :
    parseNumberedFileName (formatNumberedFileName number type) = some ⟨number, type⟩ := by
  have hparse : parseNumbered (formatNumberedFileName number type) type = some ⟨number, type⟩ := by
    rw [parseNumbered, toList_formatNumberedFileName, List.length_append, Nat.add_sub_cancel,
      List.take_left' rfl, fromChars_digits hlt]
    simp only [hpos.ne', if_false, ne_eq, not_true_eq_false]
  simp only [parseNumberedFileName, endsWith_formatNumberedFileName, decide_eq_true_iff]
  cases type
  · simpa using hparse
  · simpa using hparse
  · simpa using hparse

/-! ## Bytes -/

theorem toNat_ofNat_byte (b : UInt8) : (Char.ofNat b.toNat).toNat = b.toNat := by
  have hlt := b.toNat_lt
  have hvalid : b.toNat.isValidChar := .inl (by omega)
  rw [Char.ofNat, dif_pos hvalid]
  rfl

theorem textOf_injective : Function.Injective textOf := by
  intro name name' h
  have hlist := String.ofList_injective h
  refine List.map_injective_iff.mpr (fun b b' hb => ?_) hlist
  have hnat := congrArg Char.toNat hb
  rw [toNat_ofNat_byte, toNat_ofNat_byte] at hnat
  exact UInt8.toNat_inj.mp hnat

/-- Texts of characters below 256 are those of names. -/
theorem exists_textOf {text : String} (h : ∀ c ∈ text.toList, c.toNat < 256) :
    ∃ name, textOf name = text := by
  refine ⟨text.toList.map fun c => UInt8.ofNat c.toNat, ?_⟩
  rw [textOf, List.map_map]
  have hid : text.toList.map ((fun b : UInt8 => Char.ofNat b.toNat) ∘ fun c => UInt8.ofNat c.toNat) =
      text.toList := by
    refine (List.map_congr_left fun c hc => ?_).trans (List.map_id _)
    simp [Nat.mod_eq_of_lt (h c hc)]
  rw [hid, String.ofList_toList]

/-- The names that are written are digits and a suffix. -/
theorem exists_textOf_formatNumberedFileName (number : ℕ) (type : NumberedFileType) :
    ∃ name, textOf name = formatNumberedFileName number type := by
  refine exists_textOf fun c hc => ?_
  have hdigit : ∀ d : Char, d.isDigit = true → d.toNat < 256 := by
    intro d hd
    have hle : d.toNat ≤ 57 := (Char.isDigit_iff_toNat.mp hd).2
    omega
  have hsuffix : ∀ t : NumberedFileType, t.suffix.toList.all (fun d => d.toNat < 256) = true := by
    intro t
    cases t <;> rfl
  rw [toList_formatNumberedFileName] at hc
  rcases List.mem_append.mp hc with hc | hc
  · rcases List.mem_append.mp hc with hc | hc
    · rw [List.eq_of_mem_replicate hc]
      decide
    · exact hdigit c (Nat.isDigit_of_mem_toDigits (by decide) (by decide) hc)
  · exact of_decide_eq_true (List.all_eq_true.mp (hsuffix type) c hc)

end TinyLsm
