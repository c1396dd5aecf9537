import TinyLsm.Util.Coding
import TinyLsm.Library.ReflectedCrc

/-!
# CRC32C

The bit-serial checksum of `util/crc32c.cpp` over the reflected Castagnoli polynomial.
-/

namespace TinyLsm

/-- One round of the inner loop of `ExtendCrc32c`: shift out a bit and reduce. -/
def crc32cBit (crc : BitVec 32) : BitVec 32 :=
  (crc >>> 1) ^^^ (0x82f63b78#32 &&& (0#32 - (crc &&& 1#32)))

/-- One byte of `ExtendCrc32c`: the byte is added and eight bits are shifted out. -/
def crc32cByte (crc : BitVec 32) (byte : UInt8) : BitVec 32 :=
  Nat.iterate crc32cBit 8 (crc ^^^ byte.toBitVec.setWidth 32)

/-- `ExtendCrc32c`. -/
def extendCrc32c (crc : BitVec 32) (data : Bytes) : BitVec 32 := data.foldl crc32cByte crc

/-- `Crc32c` of one span. -/
def crc32c (data : Bytes) : ℕ := (~~~ extendCrc32c 0xffffffff#32 data).toNat

/-- `Crc32c` of two spans, as used for the Manifest header and payload. -/
def crc32c₂ (first second : Bytes) : ℕ :=
  (~~~ extendCrc32c (extendCrc32c 0xffffffff#32 first) second).toNat

theorem crc32c_lt (data : Bytes) : crc32c data < 2 ^ 32 := BitVec.isLt _

theorem crc32c₂_lt (first second : Bytes) : crc32c₂ first second < 2 ^ 32 := BitVec.isLt _

example : crc32c [0x31, 0x32, 0x33, 0x34, 0x35, 0x36, 0x37, 0x38, 0x39] = 0xe3069283 := by decide +kernel

/-! ## One changed byte -/

theorem extendCrc32c_eq (crc : BitVec 32) (data : Bytes) :
    extendCrc32c crc data =
      (data.map UInt8.toBitVec).foldl (ReflectedCrc.addByte 0x82f63b78#32 8) crc := by
  rw [extendCrc32c, List.foldl_map]
  rfl

theorem extendCrc32c_append (crc : BitVec 32) (first second : Bytes) :
    extendCrc32c crc (first ++ second) = extendCrc32c (extendCrc32c crc first) second :=
  List.foldl_append

theorem crc32c₂_eq (first second : Bytes) : crc32c₂ first second = crc32c (first ++ second) := by
  rw [crc32c₂, crc32c, extendCrc32c_append]

/-- The register behind a message determines the register before it. -/
theorem extendCrc32c_injective (data : Bytes) :
    Function.Injective fun crc => extendCrc32c crc data := by
  intro crc crc' h
  simp only [extendCrc32c_eq] at h
  exact ReflectedCrc.foldl_injective (by decide) (by decide) 8 _ h

/-- A checksum that does not see the first part of the message means that this part leaves the
register as it was. -/
theorem extendCrc32c_of_crc32c_eq {first second : Bytes}
    (h : crc32c second = crc32c₂ first second) :
    extendCrc32c 0xffffffff#32 first = 0xffffffff#32 := by
  have hstate := BitVec.not_inj.mp (BitVec.eq_of_toNat_eq h)
  exact (extendCrc32c_injective second hstate).symm

/-- The register before and after four bytes determines them. -/
theorem extendCrc32c_putFixed32 {crc : BitVec 32} {n n' : ℕ}
    (h : extendCrc32c crc (putFixed32 n) = extendCrc32c crc (putFixed32 n')) :
    putFixed32 n = putFixed32 n' := by
  rw [extendCrc32c_eq, extendCrc32c_eq] at h
  have hdata := ReflectedCrc.foldl_injective_data (by decide) (by decide) (by simp) (by simp) h
  exact List.map_injective_iff.mpr (fun a b hab => UInt8.toBitVec_inj.mp hab) hdata

/-- The checksum of a message changes with any one of its bytes. -/
theorem crc32c_set_ne {data : Bytes} {p : ℕ} {a v : UInt8} (ha : data[p]? = some a) (hne : a ≠ v) :
    crc32c (data.set p v) ≠ crc32c data := by
  obtain ⟨hp, ha⟩ := List.getElem?_eq_some_iff.mp ha
  have hdata : data = data.take p ++ a :: data.drop (p + 1) := by
    rw [← ha, List.getElem_cons_drop, List.take_append_drop]
  have hset : data.set p v = data.take p ++ v :: data.drop (p + 1) := by
    rw [List.set_eq_take_append_cons_drop, if_pos hp]
  intro hcrc
  have hstate : extendCrc32c 0xffffffff#32 (data.set p v) = extendCrc32c 0xffffffff#32 data :=
    BitVec.not_inj.mp (BitVec.eq_of_toNat_eq hcrc)
  rw [extendCrc32c_eq, extendCrc32c_eq, hset] at hstate
  conv_rhs at hstate => rw [hdata]
  simp only [List.map_append, List.map_cons] at hstate
  exact ReflectedCrc.foldl_ne_of_byte (by decide) (by decide) 8 (by decide)
    (fun h => hne (UInt8.toBitVec_inj.mp h).symm) _ hstate

/-- The stored checksum of a section does not fit the section any more after one byte, of the
section or of the checksum, has changed. -/
theorem checksum_set_ne {body : Bytes} {p : ℕ} {a v : UInt8}
    (ha : (body ++ putFixed32 (crc32c body))[p]? = some a) (hne : a ≠ v) :
    crc32c (((body ++ putFixed32 (crc32c body)).set p v).take body.length) ≠
      (getFixed32 ((body ++ putFixed32 (crc32c body)).set p v) body.length).getD 0 := by
  rw [List.set_append]
  split
  · rename_i hp
    rw [List.getElem?_append_left hp] at ha
    have hread : getFixed32 (body.set p v ++ putFixed32 (crc32c body)) body.length =
        some (crc32c body) := by
      have := getFixed32_append (crc32c body) (crc32c_lt body) (body.set p v) []
        (by simp : body.length = (body.set p v).length)
      simpa using this
    rw [hread, List.take_left' (by simp)]
    exact crc32c_set_ne ha hne
  · rename_i hp
    rw [List.getElem?_append_right (by omega)] at ha
    set q := p - body.length with hq
    have hq4 : q < 4 := by
      have := (List.getElem?_eq_some_iff.mp ha).1
      simpa using this
    have hlen : ((putFixed32 (crc32c body)).set q v).length = 4 := by simp
    have hread : getFixed32 (body ++ (putFixed32 (crc32c body)).set q v) body.length =
        some (LittleEndian.decode ((putFixed32 (crc32c body)).set q v)) := by
      rw [getFixed32, LittleEndian.readAt_of_le (by simp), List.drop_left' rfl,
        List.take_of_length_le (by simp)]
    rw [hread, List.take_left' rfl, Option.getD_some]
    intro heq
    -- the four stored bytes are determined by the value they encode
    have hbytes := LittleEndian.encode_decode ((putFixed32 (crc32c body)).set q v)
    rw [hlen, ← heq] at hbytes
    have hat : (putFixed32 (crc32c body))[q]? = some v := by
      rw [show putFixed32 (crc32c body) = LittleEndian.encode 4 (crc32c body) from rfl, hbytes,
        List.getElem?_set_self (by simpa using hq4)]
    rw [ha] at hat
    exact hne (Option.some.inj hat)

/-! ## Bursts -/

/-- Messages that differ in the window only are equal before and behind it. -/
theorem eq_around_window {data data' : Bytes} {p width : ℕ}
    (hwindow : ∀ i, data[i]? ≠ data'[i]? → p ≤ i ∧ i < p + width) :
    data.take p = data'.take p ∧ data.drop (p + width) = data'.drop (p + width) := by
  have hsame : ∀ i, ¬ (p ≤ i ∧ i < p + width) → data[i]? = data'[i]? := fun i hi =>
    not_not.mp fun hne => hi (hwindow i hne)
  constructor
  · refine List.ext_getElem? fun i => ?_
    rw [List.getElem?_take, List.getElem?_take]
    split
    · exact hsame i (by omega)
    · rfl
  · refine List.ext_getElem? fun i => ?_
    rw [List.getElem?_drop, List.getElem?_drop]
    exact hsame _ (by omega)

/-- The window between the common parts. -/
theorem eq_take_window_drop (data : Bytes) (p width : ℕ) :
    data = data.take p ++ ((data.drop p).take width ++ data.drop (p + width)) := by
  rw [← List.drop_drop, List.take_append_drop, List.take_append_drop]

/-- A burst of at most four bytes changes the register. -/
theorem extendCrc32c_ne_of_burst {data data' : Bytes} {p : ℕ} (hlen : data.length = data'.length)
    (hne : data ≠ data') (hwindow : ∀ i, data[i]? ≠ data'[i]? → p ≤ i ∧ i < p + 4)
    (crc : BitVec 32) : extendCrc32c crc data ≠ extendCrc32c crc data' := by
  obtain ⟨hbefore, hbehind⟩ := eq_around_window hwindow
  have hdata := eq_take_window_drop data p 4
  have hdata' := eq_take_window_drop data' p 4
  rw [← hbefore, ← hbehind] at hdata'
  have hburst : (data.drop p).take 4 ≠ (data'.drop p).take 4 := by
    intro heq
    rw [← heq] at hdata'
    exact hne (hdata.trans hdata'.symm)
  have hlength : ((data.drop p).take 4).length = ((data'.drop p).take 4).length := by
    simp only [List.length_take, List.length_drop, hlen]
  rw [extendCrc32c_eq, extendCrc32c_eq, hdata, hdata']
  simp only [List.map_append]
  refine ReflectedCrc.foldl_ne_of_burst (by decide) (by decide) ?_ ?_ ?_ crc
  · rw [List.length_map, List.length_map, hlength]
  · rw [List.length_map, List.length_take]
    omega
  · intro heq
    exact hburst (List.map_injective_iff.mpr (fun a b hab => UInt8.toBitVec_inj.mp hab) heq)

/-- `Crc32c` tells messages of one length apart that differ within four consecutive bytes,
`ExtendCrc32c` loses nothing of the register, and two spans are checked like one. -/
theorem crc32c_detects_bursts :
    (∀ (data data' : Bytes) (p : ℕ), data.length = data'.length → data ≠ data' →
      (∀ i, data[i]? ≠ data'[i]? → p ≤ i ∧ i < p + 4) → crc32c data ≠ crc32c data') ∧
    (∀ data, Function.Injective fun crc => extendCrc32c crc data) ∧
    ∀ first second, crc32c₂ first second = crc32c (first ++ second) := by
  refine ⟨fun data data' p hlen hne hwindow hcrc => ?_, extendCrc32c_injective, crc32c₂_eq⟩
  have hstate := BitVec.not_inj.mp (BitVec.eq_of_toNat_eq hcrc)
  exact extendCrc32c_ne_of_burst hlen hne hwindow _ hstate

/-- Four changed bytes in the middle of a message. -/
theorem crc32c_detects_bursts_middle :
    crc32c [7, 1, 2, 3, 4, 9] ≠ crc32c [7, 5, 6, 8, 0, 9] := by
  refine crc32c_detects_bursts.1 _ _ 1 rfl (by decide) fun i hi => ?_
  by_contra hout
  have hcases : i = 0 ∨ i = 5 ∨ 6 ≤ i := by omega
  rcases hcases with rfl | rfl | hge
  · exact hi rfl
  · exact hi rfl
  · exact hi ((List.getElem?_eq_none hge).trans (List.getElem?_eq_none hge).symm)

end TinyLsm
