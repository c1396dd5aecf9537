import Mathlib.Logic.Function.Iterate
import Mathlib.Tactic.Common

/-!
# Reflected cyclic redundancy checks

The bit-serial register of a reflected CRC over an arbitrary polynomial. When the polynomial has its
top coefficient, no step loses information: the register before it is determined by the register
after it. So two messages that lead to different registers keep different registers, whatever
follows.
-/

namespace ReflectedCrc

variable {w : ℕ}

/-- Shift one bit out and reduce. -/
def shiftBit (poly crc : BitVec w) : BitVec w :=
  (crc >>> 1) ^^^ (poly &&& (0#w - (crc &&& 1#w)))

/-- Add one byte to the low end of the register and shift `n` bits out. -/
def addByte (poly : BitVec w) (n : ℕ) (crc : BitVec w) (byte : BitVec 8) : BitVec w :=
  (shiftBit poly)^[n] (crc ^^^ byte.setWidth w)

theorem zero_sub_and_one (x : BitVec w) :
    0#w - (x &&& 1#w) = if x.getLsbD 0 then BitVec.allOnes w else 0#w := by
  rw [BitVec.and_one_eq_setWidth_ofBool_getLsbD]
  cases x.getLsbD 0 with
  | false => simp
  | true =>
    have h : BitVec.setWidth w (BitVec.ofBool true) = 1#w := by
      apply BitVec.eq_of_toNat_eq
      simp
    rw [h, BitVec.zero_sub, BitVec.neg_one_eq_allOnes, if_pos rfl]

theorem getLsbD_shiftBit (poly x : BitVec w) {i : ℕ} (hi : i < w) :
    (shiftBit poly x).getLsbD i = (x.getLsbD (1 + i) ^^ (poly.getLsbD i && x.getLsbD 0)) := by
  rw [shiftBit, zero_sub_and_one, BitVec.getLsbD_xor, BitVec.getLsbD_ushiftRight,
    BitVec.getLsbD_and]
  cases x.getLsbD 0 <;> simp [hi]

/-- The top bit after a step is the bit shifted out, and with it the register can be restored. -/
theorem shiftBit_injective {poly : BitVec w} (hpos : 0 < w) (htop : poly.getLsbD (w - 1) = true) :
    Function.Injective (shiftBit poly) := by
  intro x y hxy
  have hbit : ∀ i, i < w → (x.getLsbD (1 + i) ^^ (poly.getLsbD i && x.getLsbD 0)) =
      (y.getLsbD (1 + i) ^^ (poly.getLsbD i && y.getLsbD 0)) := fun i hi => by
    rw [← getLsbD_shiftBit poly x hi, ← getLsbD_shiftBit poly y hi, hxy]
  have hlow : x.getLsbD 0 = y.getLsbD 0 := by
    have := hbit (w - 1) (by omega)
    rw [BitVec.getLsbD_of_ge x _ (by omega), BitVec.getLsbD_of_ge y _ (by omega), htop] at this
    simpa using this
  apply BitVec.eq_of_getLsbD_eq
  intro i hi
  cases i with
  | zero => exact hlow
  | succ i =>
    have := hbit i (by omega)
    rw [hlow, Nat.add_comm 1 i] at this
    simpa using this

section
variable {poly : BitVec w} (hpos : 0 < w) (htop : poly.getLsbD (w - 1) = true) (n : ℕ)
include hpos htop

theorem addByte_injective_left (byte : BitVec 8) :
    Function.Injective fun crc => addByte poly n crc byte := by
  intro x y hxy
  have := (shiftBit_injective hpos htop).iterate n hxy
  exact (BitVec.xor_left_inj _).mp this

theorem addByte_injective_right (hw : 8 ≤ w) (crc : BitVec w) :
    Function.Injective (addByte poly n crc) := by
  intro a b hab
  have := (shiftBit_injective hpos htop).iterate n hab
  have hwide : a.setWidth w = b.setWidth w := (BitVec.xor_right_inj _).mp this
  apply BitVec.eq_of_getLsbD_eq
  intro i hi
  have hbit := congrArg (fun v => v.getLsbD i) hwide
  simpa [BitVec.getLsbD_setWidth, show i < w by omega] using hbit

/-- The register after a message determines the register before it. -/
theorem foldl_injective (data : List (BitVec 8)) :
    Function.Injective fun crc => data.foldl (addByte poly n) crc := by
  induction data with
  | nil => exact fun _ _ h => h
  | cons byte data ih => exact fun _ _ h => addByte_injective_left hpos htop n byte (ih h)

/-- Two messages that differ in exactly one byte lead to different registers. -/
theorem foldl_ne_of_byte (hw : 8 ≤ w) {before behind : List (BitVec 8)} {a b : BitVec 8}
    (hab : a ≠ b) (crc : BitVec w) :
    (before ++ a :: behind).foldl (addByte poly n) crc ≠
      (before ++ b :: behind).foldl (addByte poly n) crc := by
  intro h
  rw [List.foldl_append, List.foldl_append, List.foldl_cons, List.foldl_cons] at h
  exact hab (addByte_injective_right hpos htop n hw _ (foldl_injective hpos htop n behind h))

end

/-! ## Short messages

A message no longer than the register is added to it as one word, so that the register behind it
determines the message. -/

theorem shiftBit_xor (poly x y : BitVec w) :
    shiftBit poly (x ^^^ y) = shiftBit poly x ^^^ shiftBit poly y := by
  apply BitVec.eq_of_getLsbD_eq
  intro i hi
  rw [BitVec.getLsbD_xor, getLsbD_shiftBit poly _ hi, getLsbD_shiftBit poly _ hi,
    getLsbD_shiftBit poly _ hi, BitVec.getLsbD_xor, BitVec.getLsbD_xor]
  cases x.getLsbD (1 + i) <;> cases y.getLsbD (1 + i) <;> cases x.getLsbD 0 <;>
    cases y.getLsbD 0 <;> cases poly.getLsbD i <;> rfl

theorem iterate_shiftBit_xor (poly x y : BitVec w) (n : ℕ) :
    (shiftBit poly)^[n] (x ^^^ y) = (shiftBit poly)^[n] x ^^^ (shiftBit poly)^[n] y := by
  induction n generalizing x y with
  | zero => rfl
  | succ n ih => rw [Function.iterate_succ_apply, shiftBit_xor, ih]; rfl

/-- A bit that is zero is shifted out without reduction. -/
theorem shiftBit_shiftLeft (poly : BitVec w) {x : BitVec w} (htop : x.getLsbD (w - 1) = false) :
    shiftBit poly (x <<< 1) = x := by
  apply BitVec.eq_of_getLsbD_eq
  intro i hi
  rw [getLsbD_shiftBit poly _ hi]
  by_cases hlast : i = w - 1
  · subst hlast
    simp [htop, show ¬ 1 + (w - 1) < w by omega]
  · simp [show 1 + i < w by omega, BitVec.getLsbD_eq_getElem hi]

theorem iterate_shiftBit_shiftLeft (poly : BitVec w) (n : ℕ) {x : BitVec w}
    (htop : ∀ i, w ≤ i + n → x.getLsbD i = false) : (shiftBit poly)^[n] (x <<< n) = x := by
  induction n generalizing x with
  | zero => simp
  | succ n ih =>
    rw [Function.iterate_succ_apply, BitVec.shiftLeft_add, shiftBit_shiftLeft]
    · exact ih fun i hi => htop i (by omega)
    · rw [BitVec.getLsbD_shiftLeft]
      by_cases hn : w - 1 < n
      · simp [hn]
      · rw [htop (w - 1 - n) (by omega)]
        simp

/-- The word of a message, its first byte lowest. -/
def word (w : ℕ) : List (BitVec 8) → BitVec w
  | [] => 0#w
  | byte :: data => byte.setWidth w ^^^ (word w data <<< 8)

theorem getLsbD_word_of_le {data : List (BitVec 8)} {i : ℕ} (h : 8 * data.length ≤ i) :
    (word w data).getLsbD i = false := by
  induction data generalizing i with
  | nil => simp [word]
  | cons byte data ih =>
    rw [List.length_cons] at h
    rw [word, BitVec.getLsbD_xor, BitVec.getLsbD_shiftLeft, ih (by omega),
      BitVec.getLsbD_setWidth, BitVec.getLsbD_of_ge byte i (by omega)]
    simp

theorem foldl_addByte_eq_word (poly : BitVec w) (crc : BitVec w) (data : List (BitVec 8))
    (h : 8 * data.length ≤ w) :
    data.foldl (addByte poly 8) crc = (shiftBit poly)^[8 * data.length] (crc ^^^ word w data) := by
  induction data generalizing crc with
  | nil => simp [word]
  | cons byte data ih =>
    rw [List.length_cons] at h
    have hword : (shiftBit poly)^[8] (word w data <<< 8) = word w data :=
      iterate_shiftBit_shiftLeft poly 8 fun i hi => getLsbD_word_of_le (by omega)
    rw [List.foldl_cons, ih _ (by omega), addByte, ← hword, ← iterate_shiftBit_xor,
      ← Function.iterate_add_apply, List.length_cons, Nat.mul_succ, word, BitVec.xor_assoc]

theorem word_injective {data data' : List (BitVec 8)} (hlen : data.length = data'.length)
    (h : 8 * data.length ≤ w) (hword : word w data = word w data') : data = data' := by
  induction data generalizing data' with
  | nil => exact (List.length_eq_zero_iff.mp hlen.symm).symm
  | cons byte data ih =>
    cases data' with
    | nil => cases hlen
    | cons byte' data' =>
      simp only [List.length_cons, Nat.add_right_cancel_iff] at hlen h
      have hbit : ∀ i, i < w → (byte.getLsbD i ^^ (!decide (i < 8) && (word w data).getLsbD (i - 8))) =
          (byte'.getLsbD i ^^ (!decide (i < 8) && (word w data').getLsbD (i - 8))) := by
        intro i hi
        have := congrArg (fun v => v.getLsbD i) hword
        simpa only [word, BitVec.getLsbD_xor, BitVec.getLsbD_setWidth, BitVec.getLsbD_shiftLeft, hi,
          decide_true, Bool.true_and] using this
      obtain rfl : byte = byte' := by
        apply BitVec.eq_of_getLsbD_eq
        intro i hi
        simpa [hi] using hbit i (by omega)
      refine congrArg (List.cons byte) (ih hlen (by omega) ?_)
      apply BitVec.eq_of_getLsbD_eq
      intro i hi
      by_cases hshift : i + 8 < w
      · have hhigh : ¬ i + 8 < 8 := by omega
        simpa [hhigh] using hbit (i + 8) hshift
      · rw [getLsbD_word_of_le (by omega), getLsbD_word_of_le (by omega)]

/-- The register before and after a message no longer than it determine the message. -/
theorem foldl_injective_data {poly : BitVec w} (hpos : 0 < w) (htop : poly.getLsbD (w - 1) = true)
    {crc : BitVec w} {data data' : List (BitVec 8)} (hlen : data.length = data'.length)
    (h : 8 * data.length ≤ w)
    (hfold : data.foldl (addByte poly 8) crc = data'.foldl (addByte poly 8) crc) : data = data' := by
  rw [foldl_addByte_eq_word poly crc data h, foldl_addByte_eq_word poly crc data' (hlen ▸ h),
    ← hlen] at hfold
  have hxor := (shiftBit_injective hpos htop).iterate (8 * data.length) hfold
  exact word_injective hlen h ((BitVec.xor_right_inj _).mp hxor)

/-- Two messages that differ in a burst no longer than the register lead to different registers. -/
theorem foldl_ne_of_burst {poly : BitVec w} (hpos : 0 < w) (htop : poly.getLsbD (w - 1) = true)
    {before burst burst' behind : List (BitVec 8)} (hlen : burst.length = burst'.length)
    (h : 8 * burst.length ≤ w) (hne : burst ≠ burst') (crc : BitVec w) :
    (before ++ (burst ++ behind)).foldl (addByte poly 8) crc ≠
      (before ++ (burst' ++ behind)).foldl (addByte poly 8) crc := by
  intro heq
  rw [List.foldl_append, List.foldl_append, List.foldl_append, List.foldl_append] at heq
  -- the register behind the burst is determined by the one at the end
  have hburst := foldl_injective hpos htop 8 behind heq
  exact hne (foldl_injective_data hpos htop hlen h hburst)

end ReflectedCrc
