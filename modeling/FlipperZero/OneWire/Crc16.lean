import FlipperZero.OneWire.DeviceCrc

/-! # The check of 16 bits

The check takes a byte at a time. A table gives the parity of the byte that falls out of the
remainder, and two shifts give the rest of what the eight rounds of a serial check add to it.
-/

namespace FlipperZero.OneWire

open Lib

def oddParity : List (BitVec 8) := [0, 1, 1, 0, 1, 0, 0, 1, 1, 0, 0, 1, 0, 1, 1, 0]

/-- `maxim_crc16` of one byte. -/
def maximCrc16Byte (value : BitVec 8) (crc : BitVec 16) : BitVec 16 :=
  let value := value ^^^ crc.setWidth 8
  let crc := crc >>> 8
  let crc := if oddParity.getD (value &&& 0x0F).toNat 0 ^^^ oddParity.getD (value >>> 4).toNat 0 ≠ 0
    then crc ^^^ 0xC001 else crc
  let cdata := value.setWidth 16 <<< 6
  let crc := crc ^^^ cdata
  crc ^^^ cdata <<< 1

/-- The body of the loop of `maxim_crc16`. -/
def crc16Round (crc : BitVec 16) (byte : BitVec 8) : BitVec 16 :=
  let cdata := (byte.setWidth 16 ^^^ crc) &&& 0xFF
  let crc := crc >>> 8
  let crc := if oddParity.getD (cdata &&& 0x0F).toNat 0 ^^^ oddParity.getD (cdata >>> 4).toNat 0 ≠ 0
    then crc ^^^ 0xC001 else crc
  let cdata := cdata <<< 6
  let crc := crc ^^^ cdata
  let cdata := cdata <<< 1
  crc ^^^ cdata

/-- `maxim_crc16` of some bytes at an address, `none` where there are fewer. -/
def maximCrc16 (address : List (BitVec 8)) (length : BitVec 8) (init : BitVec 16) :
    Option (BitVec 16) :=
  (List.range length.toNat).foldlM (fun crc i => (address[i]?).map (crc16Round crc)) init

variable {crc init : BitVec 16} {byte : BitVec 8} {bytes : List (BitVec 8)} {k : ℕ}

theorem remainder_low (value : BitVec 8) :
    remainder 0xA001#16 (value.setWidth 16) (List.replicate 8 false) =
      (if oddParity.getD (value &&& 0x0F).toNat 0 ^^^ oddParity.getD (value >>> 4).toNat 0 ≠ 0
        then 0xC001#16 else 0#16) ^^^ value.setWidth 16 <<< 6 ^^^
        value.setWidth 16 <<< 6 <<< 1 := by
  revert value
  decide +kernel

theorem byteBits_eq : byteBits byte = (List.range 8).map (byte.setWidth 16).getLsbD := by
  apply List.map_congr_left
  intro i hi
  have hlt := List.mem_range.mp hi
  rw [BitVec.getLsbD_setWidth, decide_eq_true (by omega), Bool.true_and]

theorem xor_setWidth : crc ^^^ byte.setWidth 16 =
    (byte ^^^ crc.setWidth 8).setWidth 16 ^^^ crc >>> 8 <<< 8 := by
  apply BitVec.eq_of_getLsbD_eq
  intro i hi
  simp only [BitVec.getLsbD_xor, BitVec.getLsbD_setWidth, BitVec.getLsbD_shiftLeft,
    BitVec.getLsbD_ushiftRight, hi, decide_true, Bool.true_and]
  by_cases hlow : i < 8
  · simp [hlow, Bool.xor_comm]
  · simp [hlow, BitVec.getLsbD_of_ge byte i (by omega),
      Nat.add_sub_cancel' (Nat.le_of_not_lt hlow)]

theorem and_mask : (byte.setWidth 16 ^^^ crc) &&& 0xFF =
    (byte ^^^ crc.setWidth 8).setWidth 16 := by
  have hmask : (0xFF : BitVec 16) = (BitVec.allOnes 8).setWidth 16 := rfl
  rw [hmask]
  apply BitVec.eq_of_getLsbD_eq
  intro i hi
  simp only [BitVec.getLsbD_and, BitVec.getLsbD_xor, BitVec.getLsbD_setWidth,
    BitVec.getLsbD_allOnes, hi, decide_true, Bool.true_and]
  by_cases hlow : i < 8
  · simp [hlow]
  · simp [hlow, BitVec.getLsbD_of_ge byte i (by omega)]

theorem ushiftRight_shiftLeft_ushiftRight : crc >>> 8 <<< 8 >>> 8 = crc >>> 8 := by
  ext i hi
  by_cases hlow : 8 + i < 16
  · simp [hlow]
  · simp [hlow, BitVec.getLsbD_of_ge crc (8 + i) (by omega)]

theorem maximCrc16Byte_eq :
    maximCrc16Byte byte crc = remainder 0xA001#16 crc (byteBits byte) := by
  have hshifted : ∀ i < 8, (crc >>> 8 <<< 8).getLsbD i = false := by
    intro i hi
    simp [hi]
  have hgone : byte.setWidth 16 >>> 8 = 0#16 := by
    revert byte
    decide
  rw [byteBits_eq, remainder_bits, hgone, BitVec.xor_zero, xor_setWidth,
    remainder_replicate_xor hshifted, ushiftRight_shiftLeft_ushiftRight, remainder_low]
  simp only [maximCrc16Byte]
  split
  · ac_rfl
  · rw [BitVec.zero_xor]
    ac_rfl

theorem crc16Round_eq : crc16Round crc byte = maximCrc16Byte byte crc := by
  have htable : ∀ value : BitVec 8, (value.setWidth 16 &&& 0x0F).toNat = (value &&& 0x0F).toNat ∧
      (value.setWidth 16 >>> 4).toNat = (value >>> 4).toNat := by
    decide
  obtain ⟨hlow, hhigh⟩ := htable (byte ^^^ crc.setWidth 8)
  rw [crc16Round, and_mask]
  simp only [hlow, hhigh]
  rfl

theorem crc16_fold : bytes.foldl (fun crc value => maximCrc16Byte value crc) init =
    remainder 0xA001#16 init (romBits bytes) := by
  induction bytes generalizing init with
  | nil => rfl
  | cons byte bytes ih =>
    rw [List.foldl_cons, ih, maximCrc16Byte_eq, romBits_cons, remainder_append]

theorem crc16_rounds (hk : k ≤ bytes.length) :
    (List.range k).foldlM (fun crc i => (bytes[i]?).map (crc16Round crc)) init =
      some ((bytes.take k).foldl (fun crc value => maximCrc16Byte value crc) init) := by
  induction k with
  | zero => rfl
  | succ k ih =>
    have hlt : k < bytes.length := hk
    rw [List.range_succ, List.foldlM_append, ih (Nat.le_of_lt hlt),
      List.take_succ_eq_append_getElem hlt, List.foldl_append]
    simp only [List.foldlM_cons, List.foldlM_nil, List.foldl_cons, List.foldl_nil,
      Option.bind_eq_bind, Option.bind_some, List.getElem?_eq_getElem hlt, Option.map_some,
      crc16Round_eq]
    rfl

/-- The two functions and the serial check agree on any bytes. -/
theorem maximCrc16_agree (bytes : List (BitVec 8)) (init : BitVec 16)
    (hlength : bytes.length ≤ 255) :
    maximCrc16 bytes (.ofNat 8 bytes.length) init =
        some (bytes.foldl (fun crc value => maximCrc16Byte value crc) init) ∧
      bytes.foldl (fun crc value => maximCrc16Byte value crc) init =
        remainder 0xA001#16 init (romBits bytes) := by
  have hcount : (BitVec.ofNat 8 bytes.length).toNat = bytes.length := by
    rw [BitVec.toNat_ofNat]
    exact Nat.mod_eq_of_lt (by omega)
  constructor
  · rw [maximCrc16, hcount, crc16_rounds (Nat.le_refl _), List.take_length]
  · exact crc16_fold

/-- On the nine digits, whose check is known. -/
theorem maximCrc16_digits : [0x31#8, 0x32, 0x33, 0x34, 0x35, 0x36, 0x37, 0x38, 0x39].length ≤ 255 ∧
    maximCrc16 [0x31, 0x32, 0x33, 0x34, 0x35, 0x36, 0x37, 0x38, 0x39] 9 0 = some 0xBB3D := by
  obtain ⟨hagree, -⟩ :=
    maximCrc16_agree [0x31, 0x32, 0x33, 0x34, 0x35, 0x36, 0x37, 0x38, 0x39] 0 (by decide)
  constructor
  · decide
  · exact hagree.trans (congrArg some (by decide +kernel))

end FlipperZero.OneWire
