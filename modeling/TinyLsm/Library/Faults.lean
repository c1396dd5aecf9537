import Mathlib.Data.Nat.Bitwise
import TinyLsm.Library.LittleEndian

/-!
# Faulting computations

Programs over a byte buffer with machine integers. A read outside the buffer, an unsigned computation
that leaves its type and a loop that does not end are faults. A program that evaluates to `.ok` reads
only inside the buffer, never wraps and terminates.
-/

/-- What a program must not do. -/
inductive Fault where
  | outOfBounds
  | wrapped
  | outOfFuel
deriving DecidableEq, Repr

/-- A result, or the first fault. -/
abbrev Faulting (α : Type) := Except Fault α

namespace Faulting

variable {α β : Type} {w a b i : ℕ} {bytes : List α}

/-- Unsigned addition of a type of `w` bits. -/
def add (w a b : ℕ) : Faulting ℕ := if a + b < 2 ^ w then .ok (a + b) else .error .wrapped

/-- Unsigned subtraction. -/
def sub (a b : ℕ) : Faulting ℕ := if b ≤ a then .ok (a - b) else .error .wrapped

/-- Unsigned multiplication of a type of `w` bits. -/
def mul (w a b : ℕ) : Faulting ℕ := if a * b < 2 ^ w then .ok (a * b) else .error .wrapped

/-- A conversion to an unsigned type of `w` bits. -/
def narrow (w a : ℕ) : Faulting ℕ := if a < 2 ^ w then .ok a else .error .wrapped

/-- The element at an index. -/
def load (bytes : List α) (i : ℕ) : Faulting α :=
  match bytes[i]? with
  | some x => .ok x
  | none => .error .outOfBounds

/-- The elements from an offset on. -/
def slice (bytes : List α) (offset size : ℕ) : Faulting (List α) :=
  if offset + size ≤ bytes.length then .ok ((bytes.drop offset).take size)
  else .error .outOfBounds

/-- `a || b`, where `b` is not evaluated when `a` holds. -/
def orElse (a : Prop) [Decidable a] (b : Faulting Bool) : Faulting Bool :=
  if a then .ok true else b

/-- `a && b`, where `b` is not evaluated when `a` fails. -/
def andAlso (a : Prop) [Decidable a] (b : Faulting Bool) : Faulting Bool :=
  if a then b else .ok false

/-- Go on with a value that was read, and stop where there is none. -/
def bindSome (x : Faulting (Option α)) (f : α → Faulting (Option β)) : Faulting (Option β) :=
  x >>= fun value =>
    match value with
    | none => .ok none
    | some v => f v

theorem ok_bind (x : α) (f : α → Faulting β) : (Except.ok x : Faulting α) >>= f = f x := rfl

theorem add_of_lt (h : a + b < 2 ^ w) : add w a b = .ok (a + b) := if_pos h

theorem sub_of_le (h : b ≤ a) : sub a b = .ok (a - b) := if_pos h

theorem mul_of_lt (h : a * b < 2 ^ w) : mul w a b = .ok (a * b) := if_pos h

theorem narrow_of_lt (h : a < 2 ^ w) : narrow w a = .ok a := if_pos h

theorem load_of_lt (d : α) (h : i < bytes.length) : load bytes i = .ok (bytes.getD i d) := by
  rw [load, List.getElem?_eq_getElem h, List.getD_eq_getElem _ _ h]

theorem orElse_eq {p q : Prop} [Decidable p] [Decidable q] {b : Faulting Bool}
    (h : ¬ p → b = .ok (decide q)) : orElse p b = .ok (decide (p ∨ q)) := by
  unfold orElse
  split
  · rw [decide_eq_true (Or.inl ‹_›)]
  · rename_i hp
    rw [h hp]
    simp [hp]

theorem orElse_ok (p q : Prop) [Decidable p] [Decidable q] :
    orElse p (.ok (decide q)) = .ok (decide (p ∨ q)) := orElse_eq fun _ => rfl

theorem orElse_pure (p q : Prop) [Decidable p] [Decidable q] :
    orElse p (pure (decide q)) = .ok (decide (p ∨ q)) := orElse_eq fun _ => rfl

theorem andAlso_ok (p q : Prop) [Decidable p] [Decidable q] :
    andAlso p (.ok (decide q)) = .ok (decide (p ∧ q)) := by
  unfold andAlso
  split <;> simp [*]

/-- A return on a condition, and what follows when it does not hold. -/
theorem ite_pure {p : Prop} [Decidable p] {x y : α} {m : Faulting α} (h : ¬ p → m = .ok y) :
    (if p then pure x else m) = .ok (if p then x else y) := by
  split
  · rfl
  · exact h ‹_›

theorem slice_of_le (h : a + b ≤ bytes.length) :
    slice bytes a b = .ok ((bytes.drop a).take b) := if_pos h

/-! ## Integers in a buffer -/

/-- The loop that gathers a little-endian value: `remaining` bytes from index `i` on, behind
`value`. -/
def gather (bytes : List UInt8) (offset : ℕ) : ℕ → ℕ → ℕ → Faulting ℕ
  | 0, _, value => .ok value
  | remaining + 1, i, value => do
    let byte ← load bytes (← add 64 offset i)
    gather bytes offset remaining (i + 1) (value ||| byte.toNat <<< (8 * i))

/-- A little-endian value of `width` bytes, when the buffer holds it. -/
def readAt (width : ℕ) (bytes : List UInt8) (offset : ℕ) : Faulting (Option ℕ) :=
  if bytes.length < offset then .ok none
  else do
    if (← sub bytes.length offset) < width then return none
    return some (← gather bytes offset width 0 0)

theorem gather_eq {bytes : List UInt8} (hlen : bytes.length < 2 ^ 64) {offset : ℕ} :
    ∀ {remaining i value : ℕ}, offset + i + remaining ≤ bytes.length → value < 2 ^ (8 * i) →
      gather bytes offset remaining i value = .ok (value + 2 ^ (8 * i) *
        LittleEndian.decode ((bytes.drop (offset + i)).take remaining)) := by
  intro remaining
  induction remaining with
  | zero =>
    intro i value _ _
    simp [gather, LittleEndian.decode]
  | succ remaining ih =>
    intro i value hle hvalue
    have hlt : offset + i < bytes.length := by omega
    have hbyte : (bytes.getD (offset + i) 0).toNat < 256 := UInt8.toNat_lt _
    have hpow : 2 ^ (8 * (i + 1)) = 2 ^ (8 * i) * 256 := by rw [Nat.mul_succ, pow_add]; rfl
    have hor : value ||| (bytes.getD (offset + i) 0).toNat <<< (8 * i) =
        value + 2 ^ (8 * i) * (bytes.getD (offset + i) 0).toNat := by
      rw [Nat.lor_comm, ← Nat.shiftLeft_add_eq_or_of_lt hvalue, Nat.shiftLeft_eq]
      ring
    have hnext : value + 2 ^ (8 * i) * (bytes.getD (offset + i) 0).toNat < 2 ^ (8 * (i + 1)) := by
      have hmul : 2 ^ (8 * i) * ((bytes.getD (offset + i) 0).toNat + 1) ≤ 2 ^ (8 * i) * 256 :=
        Nat.mul_le_mul_left _ hbyte
      rw [hpow]
      rw [Nat.mul_add, Nat.mul_one] at hmul
      omega
    have hdrop : bytes.drop (offset + i) =
        bytes.getD (offset + i) 0 :: bytes.drop (offset + (i + 1)) := by
      rw [List.getD_eq_getElem _ _ hlt]
      exact List.drop_eq_getElem_cons hlt
    rw [gather, add_of_lt (by omega), ok_bind, load_of_lt 0 hlt, ok_bind, hor,
      ih (by omega) hnext, hdrop, List.take_succ_cons, LittleEndian.decode]
    congr 1
    rw [hpow]
    ring

/-- Reading an integer never faults, and reads what is stored. -/
theorem readAt_eq {bytes : List UInt8} (hlen : bytes.length < 2 ^ 64) (width offset : ℕ) :
    readAt width bytes offset = .ok (LittleEndian.readAt width bytes offset) := by
  unfold readAt
  split
  · rename_i hlt
    rw [LittleEndian.readAt_eq_none_iff.mpr (by omega)]
  · rename_i hle
    rw [sub_of_le (not_lt.mp hle), ok_bind]
    split
    · rw [LittleEndian.readAt_eq_none_iff.mpr (by omega)]
      rfl
    · rw [gather_eq hlen (by omega) (by simp), ok_bind, LittleEndian.readAt_of_le (by omega)]
      simp
      rfl

theorem bindSome_readAt {bytes : List UInt8} (hlen : bytes.length < 2 ^ 64) (width offset : ℕ)
    (f : ℕ → Faulting (Option α)) :
    bindSome (readAt width bytes offset) f =
      if offset + width ≤ bytes.length then f ((LittleEndian.readAt width bytes offset).getD 0)
      else .ok none := by
  rw [readAt_eq hlen, bindSome, ok_bind]
  split_ifs with hle
  · rw [LittleEndian.readAt_of_le hle]
    rfl
  · rw [LittleEndian.readAt_eq_none_iff.mpr (not_le.mp hle)]

end Faulting
