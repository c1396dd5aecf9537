import TinyLsm.Util.Coding

/-!
# Single-byte damage

The damage the corruption results speak of: one byte of a file is replaced by a different one.
-/

namespace TinyLsm

/-- One byte of `bytes` is replaced by a different one. -/
structure ByteChange (bytes : Bytes) (p : ℕ) (v : UInt8) : Prop where
  lt : p < bytes.length
  ne : bytes[p]? ≠ some v

namespace ByteChange

variable {as bs : Bytes} {p : ℕ} {v : UInt8}

theorem exists_old (h : ByteChange as p v) : ∃ a, as[p]? = some a ∧ a ≠ v := by
  obtain ⟨a, ha⟩ : ∃ a, as[p]? = some a := ⟨_, List.getElem?_eq_getElem h.lt⟩
  exact ⟨a, ha, fun heq => h.ne (heq ▸ ha)⟩

/-- A change of a concatenation is a change of one of the two parts. -/
theorem append (h : ByteChange (as ++ bs) p v) :
    (ByteChange as p v ∧ (as ++ bs).set p v = as.set p v ++ bs) ∨
      (ByteChange bs (p - as.length) v ∧ (as ++ bs).set p v = as ++ bs.set (p - as.length) v) := by
  obtain ⟨hlt, hne⟩ := h
  rw [List.length_append] at hlt
  rw [List.set_append]
  by_cases hp : p < as.length
  · rw [List.getElem?_append_left hp] at hne
    exact .inl ⟨⟨hp, hne⟩, if_pos hp⟩
  · rw [List.getElem?_append_right (by omega)] at hne
    exact .inr ⟨⟨by omega, hne⟩, if_neg hp⟩

end ByteChange

end TinyLsm
