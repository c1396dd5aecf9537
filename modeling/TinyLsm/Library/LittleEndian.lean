import Mathlib.Algebra.Order.Ring.Nat
import Mathlib.Tactic.Ring
import Mathlib.Tactic.Linarith

/-!
# Little-endian fields in byte lists

`encode w n` writes the low `w` bytes of `n`, least significant first, and `decode` reads such a
field back. `readAt w bs off` reads a `w`-byte field at an offset of a longer list and fails when
the field does not fit. The reading lemmas say that a field is found again behind whatever was
written before it.
-/

namespace LittleEndian

/-- The low `w` bytes of `n`, least significant first. -/
def encode : ℕ → ℕ → List UInt8
  | 0, _ => []
  | w + 1, n => UInt8.ofNat n :: encode w (n / 256)

/-- The number whose little-endian bytes are the list. -/
def decode : List UInt8 → ℕ
  | [] => 0
  | b :: bs => b.toNat + 256 * decode bs

@[simp] theorem length_encode (w n : ℕ) : (encode w n).length = w := by
  induction w generalizing n with
  | zero => rfl
  | succ w ih => simp [encode, ih]

theorem encode_add (a b n : ℕ) :
    encode (a + b) n = encode a n ++ encode b (n / 256 ^ a) := by
  induction a generalizing n with
  | zero => simp [encode]
  | succ a ih =>
    rw [Nat.add_right_comm, encode, encode, ih, List.cons_append, Nat.div_div_eq_div_mul,
      Nat.pow_succ, Nat.mul_comm 256]

theorem decode_encode (w n : ℕ) : decode (encode w n) = n % 256 ^ w := by
  induction w generalizing n with
  | zero => simp [encode, decode, Nat.mod_one]
  | succ w ih =>
    have hbyte : (UInt8.ofNat n).toNat = n % 256 := by simp
    rw [encode, decode, ih, hbyte, pow_succ', Nat.mod_mul]

theorem decode_encode_of_lt {w n : ℕ} (h : n < 256 ^ w) : decode (encode w n) = n := by
  rw [decode_encode, Nat.mod_eq_of_lt h]

theorem decode_lt (bs : List UInt8) : decode bs < 256 ^ bs.length := by
  induction bs with
  | nil => simp [decode]
  | cons b bs ih =>
    have hb : b.toNat < 256 := b.toNat_lt
    rw [decode, List.length_cons, pow_succ']
    have hle : decode bs + 1 ≤ 256 ^ bs.length := ih
    nlinarith

/-- Writing back what was read gives the same bytes: a field has one encoding. -/
theorem encode_decode (bs : List UInt8) : encode bs.length (decode bs) = bs := by
  induction bs with
  | nil => rfl
  | cons b bs ih =>
    have hb : b.toNat < 256 := b.toNat_lt
    have hlow : UInt8.ofNat (b.toNat + 256 * decode bs) = b := by
      rw [← UInt8.toNat_inj]
      simp only [UInt8.toNat_ofNat']
      omega
    have hhigh : (b.toNat + 256 * decode bs) / 256 = decode bs := by omega
    rw [List.length_cons, decode, encode, hlow, hhigh, ih]

theorem encode_injective {w m n : ℕ} (hm : m < 256 ^ w) (hn : n < 256 ^ w)
    (h : encode w m = encode w n) : m = n := by
  rw [← decode_encode_of_lt hm, h, decode_encode_of_lt hn]

/-- The `w`-byte field of `bs` at offset `off`, when it lies inside the list. -/
def readAt (w : ℕ) (bs : List UInt8) (off : ℕ) : Option ℕ :=
  if off + w ≤ bs.length then some (decode ((bs.drop off).take w)) else none

theorem readAt_eq_none_iff {w : ℕ} {bs : List UInt8} {off : ℕ} :
    readAt w bs off = none ↔ bs.length < off + w := by
  unfold readAt
  split <;> simp <;> omega

theorem readAt_of_le {w : ℕ} {bs : List UInt8} {off : ℕ} (h : off + w ≤ bs.length) :
    readAt w bs off = some (decode ((bs.drop off).take w)) := if_pos h

/-- A field is read back behind any prefix and before any rest. -/
theorem readAt_append_encode (w n : ℕ) (pre rest : List UInt8) :
    readAt w (pre ++ (encode w n ++ rest)) pre.length = some (n % 256 ^ w) := by
  rw [readAt_of_le (by simp), List.drop_left, List.take_append_of_le_length (by simp),
    List.take_of_length_le (by simp), decode_encode]

/-- Reading at an offset past a prefix reads the rest at the remaining offset. -/
theorem readAt_append_right (w : ℕ) (pre rest : List UInt8) (off : ℕ) :
    readAt w (pre ++ rest) (pre.length + off) = readAt w rest off := by
  unfold readAt
  rw [List.drop_length_add_append, List.length_append, Nat.add_assoc]
  simp only [Nat.add_le_add_iff_left]

/-- A field that lies inside a prefix is not affected by what follows. -/
theorem readAt_append_left {w : ℕ} {pre : List UInt8} {off : ℕ} (h : off + w ≤ pre.length)
    (rest : List UInt8) : readAt w (pre ++ rest) off = readAt w pre off := by
  rw [readAt_of_le h, readAt_of_le (by simp; omega), List.drop_append_of_le_length (by omega),
    List.take_append_of_le_length (by simp; omega)]

theorem readAt_drop {w : ℕ} (h : 0 < w) (bs : List UInt8) (n off : ℕ) :
    readAt w (bs.drop n) off = readAt w bs (n + off) := by
  unfold readAt
  rw [List.drop_drop, List.length_drop]
  refine if_congr ?_ rfl rfl
  omega

/-- A field inside a list is the encoding of what it reads as. -/
theorem drop_eq_encode {w : ℕ} {bs : List UInt8} {off : ℕ} (h : off + w ≤ bs.length) :
    bs.drop off = encode w ((readAt w bs off).getD 0) ++ bs.drop (off + w) := by
  have hlen : ((bs.drop off).take w).length = w := by
    rw [List.length_take, List.length_drop]
    omega
  have hfield := encode_decode ((bs.drop off).take w)
  rw [hlen] at hfield
  rw [readAt_of_le h, Option.getD_some, hfield, ← List.drop_drop, List.take_append_drop]

theorem readAt_lt {w : ℕ} (bs : List UInt8) (off : ℕ) : (readAt w bs off).getD 0 < 256 ^ w := by
  unfold readAt
  split
  · refine (decode_lt _).trans_le (Nat.pow_le_pow_right (by decide) ?_)
    rw [List.length_take]
    exact Nat.min_le_left _ _
  · exact Nat.pow_pos (by decide)

/-- A changed byte outside a field does not change the field. -/
theorem readAt_set {w : ℕ} {bs : List UInt8} {off p : ℕ} (h : p < off ∨ off + w ≤ p) (v : UInt8) :
    readAt w (bs.set p v) off = readAt w bs off := by
  have hfield : ((bs.set p v).drop off).take w = (bs.drop off).take w := by
    refine List.ext_getElem? fun i => ?_
    simp only [List.getElem?_take, List.getElem?_drop]
    by_cases hi : i < w
    · rw [if_pos hi, if_pos hi, List.getElem?_set_ne (by omega)]
    · rw [if_neg hi, if_neg hi]
  simp only [readAt, List.length_set, hfield]

/-- A changed byte inside a field changes the field. -/
theorem readAt_set_ne {w : ℕ} {bs : List UInt8} {off p : ℕ} {v : UInt8} (hp : off ≤ p)
    (hw : p < off + w) (hlen : off + w ≤ bs.length) (hne : bs[p]? ≠ some v) :
    readAt w (bs.set p v) off ≠ readAt w bs off := by
  intro heq
  have hlen' : off + w ≤ (bs.set p v).length := by rwa [List.length_set]
  have h1 := drop_eq_encode hlen'
  have h2 := drop_eq_encode hlen
  rw [heq] at h1
  have htail : (bs.set p v).drop (off + w) = bs.drop (off + w) := by
    rw [List.drop_set_of_lt hw]
  rw [htail, ← h2] at h1
  have hbyte := congrArg (fun l => l[p - off]?) h1
  simp only [List.getElem?_drop] at hbyte
  rw [Nat.add_sub_cancel' hp, List.getElem?_set_self (by omega)] at hbyte
  exact hne hbyte.symm

end LittleEndian
