import FlipperZero.Firmware.KeyReader
import FlipperZero.Lib.Crc

/-! # The check of a OneWire ROM

A device makes the last byte of its ROM from the seven others. The bits of the bytes go through
the check from the least significant one, in the order of their transmission; few errors, and
errors close to each other in that order, make the check fail.
-/

namespace FlipperZero.OneWire

open Lib Firmware

/-- The ROM that the constructor of `OneWireDevice` stores. -/
def idStorage (id : Vector (BitVec 8) 7) : KeyData := id.push (maximCrc8 id.toList)

def byteBits (byte : BitVec 8) : List Bool := (List.range 8).map byte.getLsbD

/-- The bits of some bytes in the order of transmission. -/
def romBits (bytes : List (BitVec 8)) : List Bool := bytes.flatMap byteBits

def corrupt (rom error : KeyData) : KeyData := rom.zipWith (· ^^^ ·) error

/-- An error in up to three bits, or in bits that are among eight consecutive ones. -/
def Small (error : KeyData) : Prop :=
  (romBits error.toList).count true ≤ 3 ∨
    ∃ k, ∀ i, (romBits error.toList).getD i false = true → k ≤ i ∧ i < k + 8

variable {crc inputByte : BitVec 8} {bytes bytes' : List (BitVec 8)} {left : ℕ}

theorem mix_ne_zero : (crc ^^^ inputByte) &&& 1#8 ≠ 0 ↔
    (crc.getLsbD 0 ^^ inputByte.getLsbD 0) = true := by
  rw [BitVec.and_one_eq_setWidth_ofBool_getLsbD, BitVec.getLsbD_xor]
  cases crc.getLsbD 0 ^^ inputByte.getLsbD 0 <;> decide

theorem crcBits_eq : crcBits crc inputByte left =
    remainder 0x8C#8 crc ((List.range left).map inputByte.getLsbD) := by
  induction left generalizing crc inputByte with
  | zero => rfl
  | succ left ih =>
    have hbits : (List.range left).map (inputByte >>> 1).getLsbD =
        (List.range left).map (inputByte.getLsbD ∘ Nat.succ) := by
      apply List.map_congr_left
      intro i _
      rw [BitVec.getLsbD_ushiftRight, Nat.add_comm]
      rfl
    rw [crcBits, ih, hbits, List.range_succ_eq_map, List.map_cons, List.map_map, remainder_cons]
    simp only [feed, mix_ne_zero]

theorem romBits_cons {byte : BitVec 8} : romBits (byte :: bytes) = byteBits byte ++ romBits bytes :=
  List.flatMap_cons

theorem maximCrc8_eq : maximCrc8 bytes = remainder 0x8C#8 0#8 (romBits bytes) := by
  have hfold (crc : BitVec 8) : bytes.foldl (fun crc inputByte => crcBits crc inputByte 8) crc =
      remainder 0x8C#8 crc (romBits bytes) := by
    induction bytes generalizing crc with
    | nil => rfl
    | cons byte bytes ih =>
      rw [List.foldl_cons, ih, crcBits_eq, romBits_cons, remainder_append]
      rfl
  exact hfold 0

theorem length_romBits : (romBits bytes).length = 8 * bytes.length := by
  induction bytes with
  | nil => rfl
  | cons byte bytes ih =>
    rw [romBits_cons, List.length_append, ih, byteBits, List.length_map, List.length_range,
      List.length_cons]
    omega

theorem romBits_xor (h : bytes.length = bytes'.length) :
    romBits (List.zipWith (· ^^^ ·) bytes bytes') =
      List.zipWith (· ^^ ·) (romBits bytes) (romBits bytes') := by
  induction bytes generalizing bytes' with
  | nil =>
    obtain rfl := List.eq_nil_of_length_eq_zero h.symm
    rfl
  | cons byte bytes ih =>
    obtain ⟨byte', bytes', rfl⟩ := List.exists_cons_of_length_eq_add_one h.symm
    have hbyte : byteBits (byte ^^^ byte') =
        List.zipWith (· ^^ ·) (byteBits byte) (byteBits byte') := by
      simp only [byteBits, List.zipWith_map, List.zipWith_self]
      exact List.map_congr_left fun i _ => BitVec.getLsbD_xor
    rw [List.zipWith_cons_cons, romBits_cons, romBits_cons, romBits_cons, hbyte,
      List.zipWith_append (by simp [byteBits]), ih (by simpa using h)]

theorem mem_romBits_of_ne_zero {error : KeyData} (h : error ≠ .replicate 8 0) :
    true ∈ romBits error.toList := by
  by_contra hnot
  apply h
  apply Vector.ext
  intro i hi
  rw [Vector.getElem_replicate]
  apply BitVec.eq_of_getLsbD_eq
  intro j hj
  by_contra hbit
  apply hnot
  apply List.mem_flatMap.mpr
  refine ⟨error[i], ?_, List.mem_map.mpr ⟨j, List.mem_range.mpr hj, ?_⟩⟩
  · exact Vector.mem_toList_iff.mpr (Vector.getElem_mem hi)
  · simpa using hbit

theorem maximCrc8_corrupt {rom error : KeyData} :
    maximCrc8 (corrupt rom error).toList = maximCrc8 rom.toList ^^^ maximCrc8 error.toList := by
  have hlength : rom.toList.length = error.toList.length := by simp
  have hbits : (romBits rom.toList).length = (romBits error.toList).length := by
    rw [length_romBits, length_romBits, hlength]
  rw [maximCrc8_eq, maximCrc8_eq, maximCrc8_eq, ← remainder_xor hbits, corrupt,
    Vector.toList_zipWith, romBits_xor hlength, BitVec.xor_zero]

def parity (crc : BitVec 8) : Bool := (List.range 8).foldl (fun sum i => sum ^^ crc.getLsbD i) false

theorem parity_feed : ∀ crc b, parity (feed 0x8C#8 crc b) = (parity crc ^^ b) := by
  decide +kernel

theorem remainder_period : ∀ d < 64, 0 < d →
    remainder 0x8C#8 0x8C#8 (List.replicate d false) ≠ 0x8C#8 := by
  decide +kernel

theorem maximCrc8_ne_zero_of_small {error : KeyData} (hne : error ≠ .replicate 8 0)
    (h : Small error) : maximCrc8 error.toList ≠ 0 := by
  have hmem := mem_romBits_of_ne_zero hne
  have hpoly : (0x8C#8).msb = true := by decide
  rw [maximCrc8_eq]
  rcases h with hcount | ⟨k, hburst⟩
  · apply remainder_ne_zero_of_count hpoly parity_feed rfl _ hmem hcount
    intro d hd hlt
    apply remainder_period d _ hd
    rwa [length_romBits, Vector.length_toList] at hlt
  · exact remainder_ne_zero_of_burst hpoly hmem hburst

/-- The ROM of a device passes the check of the key reader, and a ROM that passes it no longer
does with a small error. -/
theorem rom_crc_detects :
    (∀ id, maximCrc8 (idStorage id).toList = 0) ∧
    ∀ rom error, maximCrc8 rom.toList = 0 → error ≠ .replicate 8 0 → Small error →
      maximCrc8 (corrupt rom error).toList ≠ 0 := by
  constructor
  · intro id
    have hlist : (idStorage id).toList = id.toList ++ [maximCrc8 id.toList] := Vector.toList_push
    have hbits : romBits (idStorage id).toList =
        romBits id.toList ++ byteBits (maximCrc8 id.toList) := by
      rw [hlist, romBits, List.flatMap_append, List.flatMap_singleton]
      rfl
    rw [maximCrc8_eq, hbits, remainder_append, ← maximCrc8_eq]
    exact remainder_self.trans (BitVec.ushiftRight_eq_zero le_rfl)
  · intro rom error hrom hne hsmall
    rw [maximCrc8_corrupt, hrom]
    exact (BitVec.zero_xor (x := maximCrc8 error.toList)).trans_ne (maximCrc8_ne_zero_of_small hne hsmall)

/-- A flipped bit in the serial number of a key. -/
theorem rom_crc_detects_flip :
    maximCrc8 (corrupt (idStorage #v[0x01, 2, 3, 4, 5, 6, 7]) #v[0, 0, 16, 0, 0, 0, 0, 0]).toList ≠ 0 :=
  rom_crc_detects.2 _ _ (rom_crc_detects.1 _) (by decide) (.inl (by decide))

end FlipperZero.OneWire
