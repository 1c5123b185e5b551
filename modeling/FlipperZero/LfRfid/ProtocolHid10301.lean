import FlipperZero.Lib.ShiftRegister
import Mathlib.Algebra.BigOperators.Intervals

/-! # The HID H10301 card data

A card sends 96 bits: a preamble of eight raw bits, and 44 bits that are each sent with their
complement behind them, the company code, the card format, three bytes and two parity bits.
`ProtocolHID10301` writes these bits into three words, checks them there, and reads the bytes back.
-/

namespace FlipperZero.LfRfid

open Lib Finset

namespace ProtocolHID10301

abbrev HID10301CardData := Vector (BitVec 32) 3

def word (cardData : HID10301CardData) (i : ℕ) : BitVec 32 := cardData[i]?.getD 0

def writeRawBit (bit : Bool) (position : ℕ) (cardData : HID10301CardData) : HID10301CardData :=
  let mask := 1#32 <<< (32 - position % 32 - 1)
  cardData.setIfInBounds (position / 32)
    (if bit then word cardData (position / 32) ||| mask
      else word cardData (position / 32) &&& ~~~mask)

def writeBit (bit : Bool) (position : ℕ) (cardData : HID10301CardData) : HID10301CardData :=
  writeRawBit (!bit) (position + 1) (writeRawBit bit position cardData)

def fcCn (d : Vector (BitVec 8) 3) : BitVec 24 := d[0] ++ d[1] ++ d[2]

def evenParitySum (fcCn : BitVec 24) : ℕ := ∑ i ∈ range 12, (fcCn.getLsbD (12 + i)).toNat

def oddParitySum (fcCn : BitVec 24) : ℕ := 1 + ∑ i ∈ range 12, (fcCn.getLsbD i).toNat

def preamble : List Bool := [false, false, false, true, true, true, false, true]

def companyCode : List Bool := [false, false, false, false, false, false, true]

def cardFormat : List Bool :=
  [false, false, false, false, false, false, false, false, false, false, true]

/-- The even parity bit, the data and the odd parity bit. -/
def dataBits (d : Vector (BitVec 8) 3) : List Bool :=
  decide (evenParitySum (fcCn d) % 2 = 1) :: (List.range 24).map (fcCn d).getMsbD ++
    [decide (oddParitySum (fcCn d) % 2 = 1)]

def pairedBits (d : Vector (BitVec 8) 3) : List Bool := companyCode ++ cardFormat ++ dataBits d

def encode (d : Vector (BitVec 8) 3) : HID10301CardData :=
  let raw := preamble.zipIdx.foldl (fun cardData p => writeRawBit p.1 p.2 cardData)
    (Vector.replicate 3 0)
  (pairedBits d).zipIdx.foldl (fun cardData p => writeBit p.1 (8 + 2 * p.2) cardData) raw

/-- The pairs of bits of word 1 from its bit 19 down, and of word 2. -/
def pairs (cardData : HID10301CardData) : List (BitVec 2) :=
  (List.range 10).map (fun i => (cardData[1] >>> (2 * (9 - i))).setWidth 2) ++
    (List.range 16).map fun i => (cardData[2] >>> (2 * (15 - i))).setWidth 2

def decodePair (result : BitVec 32) (pair : BitVec 2) : Option (BitVec 32) :=
  if pair = 0b01 then some (shiftIn result false)
  else if pair = 0b10 then some (shiftIn result true)
  else none

def decode (encodedData : HID10301CardData) : Vector (BitVec 8) 3 :=
  let result := (pairs encodedData).foldl (fun result pair => (decodePair result pair).getD result) 0
  #v[(result >>> 17).setWidth 8, (result >>> 9).setWidth 8, (result >>> 1).setWidth 8]

/-- The parity tests of `can_be_decoded`. -/
def parityTests (result : BitVec 32) : Bool :=
  decide ((∑ i ∈ range 13, (result.getLsbD i).toNat) % 2 = 1) &&
    decide ((∑ i ∈ range 13, (result.getLsbD (13 + i)).toNat) % 2 ≠ 1)

def canBeDecoded (encodedData : HID10301CardData) : Bool :=
  decide ((encodedData[0] >>> 24).setWidth 8 = 0x1D#8) &&
    decide ((encodedData[0] >>> 10) &&& 0x3FFF#32 = 0x1556#32) &&
    decide (((encodedData[0] &&& 0x3FF#32) <<< 12) ||| ((encodedData[1] >>> 20) &&& 0xFFF#32) =
      0x155556#32) &&
    match (pairs encodedData).foldlM decodePair 0 with
    | none => false
    | some result => parityTests result

def register (cardData : HID10301CardData) : BitVec 96 := cardData[0] ++ cardData[1] ++ cardData[2]

variable {cardData : HID10301CardData} {d : Vector (BitVec 8) 3} {bit : Bool} {n p : ℕ}

theorem word_eq {i : ℕ} (h : i < 3) : word cardData i = cardData[i] := by
  rw [word, Vector.getElem?_eq_getElem h, Option.getD_some]

theorem word_setIfInBounds {i j : ℕ} {w : BitVec 32} (hj : j < 3) :
    word (cardData.setIfInBounds i w) j = if i = j then w else word cardData j := by
  rw [word_eq hj, word_eq hj, Vector.getElem_setIfInBounds]

theorem getMsbD_register (hn : n < 96) :
    (register cardData).getMsbD n = (word cardData (n / 32)).getMsbD (n % 32) := by
  rw [word_eq (by omega), register, BitVec.getMsbD_append, BitVec.getMsbD_append]
  rcases (by omega : n / 32 = 0 ∨ n / 32 = 1 ∨ n / 32 = 2) with h | h | h
  · simp only [h]
    rw [if_neg (by omega), if_neg (by omega)]
    congr 1
    omega
  · simp only [h]
    rw [if_neg (by omega), if_pos (by omega)]
    congr 1
    omega
  · simp only [h]
    rw [if_pos (by omega)]
    congr 1
    omega

theorem getMsbD_mask {i j : ℕ} (hi : i < 32) :
    (1#32 <<< (32 - i - 1)).getMsbD j = decide (j = i) := by
  rw [BitVec.getMsbD_shiftLeft, BitVec.getMsbD_one, decide_eq_true (by decide : 0 < 32), Bool.and_true,
    decide_eq_decide]
  omega

theorem register_writeRawBit (hn : n < 96) :
    (register (writeRawBit bit p cardData)).getMsbD n =
      if n = p then bit else (register cardData).getMsbD n := by
  have hmod (m : ℕ) : m % 32 < 32 := Nat.mod_lt m (by decide)
  rw [getMsbD_register hn, getMsbD_register hn, writeRawBit, word_setIfInBounds (by omega)]
  by_cases hword : p / 32 = n / 32
  · rw [if_pos hword, hword]
    have hplace : n % 32 = p % 32 ↔ n = p := by omega
    cases bit with
    | true =>
      rw [if_pos rfl, BitVec.getMsbD_or, getMsbD_mask (hmod p)]
      by_cases h : n = p
      · rw [if_pos h, decide_eq_true (hplace.mpr h), Bool.or_true]
      · rw [if_neg h, decide_eq_false (mt hplace.mp h), Bool.or_false]
    | false =>
      rw [if_neg Bool.false_ne_true, BitVec.getMsbD_and, BitVec.getMsbD_not,
        getMsbD_mask (hmod p), decide_eq_true (hmod n), Bool.true_and]
      by_cases h : n = p
      · rw [if_pos h, decide_eq_true (hplace.mpr h), Bool.not_true, Bool.and_false]
      · rw [if_neg h, decide_eq_false (mt hplace.mp h), Bool.not_false, Bool.and_true]
  · rw [if_neg hword, if_neg (by omega)]

theorem register_writeRawBits {bits : List Bool} {i : ℕ} (hi : i + bits.length ≤ 96) (hn : n < 96) :
    (register ((bits.zipIdx i).foldl (fun c q => writeRawBit q.1 q.2 c) cardData)).getMsbD n =
      if i ≤ n ∧ n < i + bits.length then bits.getD (n - i) false
      else (register cardData).getMsbD n := by
  induction bits generalizing i cardData with
  | nil => rw [if_neg (by simp), List.zipIdx_nil, List.foldl_nil]
  | cons bit bits ih =>
    rw [List.length_cons] at hi ⊢
    rw [List.zipIdx_cons, List.foldl_cons, ih (by omega), register_writeRawBit hn]
    rcases Nat.lt_trichotomy n i with hlt | rfl | hgt
    · rw [if_neg (by omega), if_neg (by omega), if_neg (by omega)]
    · rw [if_neg (by omega), if_pos rfl, if_pos (by omega), Nat.sub_self]
      rfl
    · obtain ⟨m, rfl⟩ := Nat.exists_eq_add_of_lt hgt
      have hsub : i + m + 1 - (i + 1) = m := by omega
      have hsub' : i + m + 1 - i = m + 1 := by omega
      by_cases hlt : m < bits.length
      · rw [if_pos (by omega), if_pos (by omega), hsub, hsub']
        rfl
      · rw [if_neg (by omega), if_neg (by omega), if_neg (by omega)]

theorem register_writeBit (hn : n < 96) :
    (register (writeBit bit p cardData)).getMsbD n =
      if n = p then bit else if n = p + 1 then !bit else (register cardData).getMsbD n := by
  rw [writeBit, register_writeRawBit hn, register_writeRawBit hn]
  by_cases h : n = p
  · rw [if_neg (by omega), if_pos h, if_pos h]
  · rw [if_neg h, if_neg h]

/-- The bits that a list is sent as, each with its complement behind it. -/
def withComplement (bits : List Bool) (n : ℕ) : Bool :=
  if n % 2 = 0 then bits.getD (n / 2) false else !bits.getD (n / 2) false

theorem withComplement_cons_add_two (bit : Bool) (bits : List Bool) (m : ℕ) :
    withComplement (bit :: bits) (m + 2) = withComplement bits m := by
  have hmod : (m + 2) % 2 = m % 2 := Nat.add_mod_right m 2
  have hdiv : (m + 2) / 2 = m / 2 + 1 := Nat.add_div_right m (by decide)
  rw [withComplement, withComplement, hmod, hdiv, List.getD_cons_succ]

theorem register_writeBits {bits : List Bool} {i : ℕ} (hi : 8 + 2 * (i + bits.length) ≤ 96)
    (hn : n < 96) :
    (register ((bits.zipIdx i).foldl (fun c q => writeBit q.1 (8 + 2 * q.2) c) cardData)).getMsbD n =
      if 8 + 2 * i ≤ n ∧ n < 8 + 2 * (i + bits.length) then withComplement bits (n - (8 + 2 * i))
      else (register cardData).getMsbD n := by
  induction bits generalizing i cardData with
  | nil => rw [if_neg (by simp), List.zipIdx_nil, List.foldl_nil]
  | cons bit bits ih =>
    rw [List.length_cons] at hi ⊢
    rw [List.zipIdx_cons, List.foldl_cons, ih (by omega), register_writeBit hn]
    rcases Nat.lt_or_ge n (8 + 2 * i) with hlt | hge
    · rw [if_neg (by omega), if_neg (by omega), if_neg (by omega), if_neg (by omega)]
    · obtain ⟨m, rfl⟩ := Nat.exists_eq_add_of_le hge
      rcases m with _ | _ | m
      · rw [if_neg (by omega), if_pos (Nat.add_zero _), if_pos (by omega), Nat.add_sub_cancel_left]
        rfl
      · rw [if_neg (by omega), if_neg (by omega), if_pos rfl, if_pos (by omega),
          Nat.add_sub_cancel_left]
        rfl
      · have hsub : 8 + 2 * i + (m + 1 + 1) - (8 + 2 * (i + 1)) = m := by omega
        rw [hsub, Nat.add_sub_cancel_left, withComplement_cons_add_two]
        by_cases hlt : m < 2 * bits.length
        · rw [if_pos (by omega), if_pos (by omega)]
        · rw [if_neg (by omega), if_neg (by omega), if_neg (by omega), if_neg (by omega)]

theorem length_dataBits : (dataBits d).length = 26 := by
  simp [dataBits]

theorem length_pairedBits : (pairedBits d).length = 44 := by
  rw [pairedBits, List.length_append, length_dataBits]
  rfl

theorem register_encode (hn : n < 96) : (register (encode d)).getMsbD n =
    if n < 8 then preamble.getD n false else withComplement (pairedBits d) (n - 8) := by
  rw [encode, register_writeBits (by rw [length_pairedBits]) hn,
    register_writeRawBits (by decide) hn, length_pairedBits]
  by_cases h : n < 8
  · rw [if_neg (by omega), if_pos ⟨Nat.zero_le n, by simpa [preamble] using h⟩, if_pos h,
      Nat.sub_zero]
  · rw [if_pos (by omega), if_neg h]

theorem register_encode_pair {i : ℕ} (hi : i < 44) :
    (register (encode d)).getMsbD (8 + 2 * i) = (pairedBits d).getD i false ∧
      (register (encode d)).getMsbD (9 + 2 * i) = !(pairedBits d).getD i false := by
  have hsub : 8 + 2 * i - 8 = 2 * i := Nat.add_sub_cancel_left ..
  have hsub' : 9 + 2 * i - 8 = 2 * i + 1 := by omega
  have hmod : (2 * i + 1) % 2 = 1 := by omega
  have hdiv : (2 * i + 1) / 2 = i := by omega
  rw [register_encode (by omega), register_encode (by omega), if_neg (by omega), if_neg (by omega),
    hsub, hsub', withComplement, withComplement, if_pos (Nat.mul_mod_right 2 i),
    Nat.mul_div_cancel_left i (by decide), hmod, if_neg (by decide), hdiv]
  exact ⟨rfl, rfl⟩

def pairOf (bit : Bool) : BitVec 2 := if bit then 0b10 else 0b01

theorem decodePair_pairOf (result : BitVec 32) (bit : Bool) :
    decodePair result (pairOf bit) = some (shiftIn result bit) := by
  cases bit <;> rfl

theorem foldlM_decodePair (result : BitVec 32) (bits : List Bool) :
    (bits.map pairOf).foldlM decodePair result = some (shiftAll result bits) := by
  induction bits generalizing result with
  | nil => rfl
  | cons bit bits ih =>
    rw [List.map_cons, List.foldlM_cons, decodePair_pairOf]
    exact ih _

theorem foldl_decodePair (result : BitVec 32) (bits : List Bool) :
    (bits.map pairOf).foldl (fun result pair => (decodePair result pair).getD result) result =
      shiftAll result bits := by
  induction bits generalizing result with
  | nil => rfl
  | cons bit bits ih =>
    rw [List.map_cons, List.foldl_cons, decodePair_pairOf]
    exact ih _

theorem setWidth_eq_pairOf {w : BitVec 32} {j : ℕ} (hj : j < 16)
    (h : w.getMsbD (30 - 2 * j) = bit) (h' : w.getMsbD (31 - 2 * j) = !bit) :
    (w >>> (2 * j)).setWidth 2 = pairOf bit := by
  rw [BitVec.getMsbD_eq_getLsbD, decide_eq_true (by omega), Bool.true_and] at h h'
  have hhigh : 32 - 1 - (30 - 2 * j) = 2 * j + 1 := by omega
  have hlow : 32 - 1 - (31 - 2 * j) = 2 * j + 0 := by omega
  rw [hhigh] at h
  rw [hlow] at h'
  refine BitVec.eq_of_getLsbD_eq fun i hi => ?_
  rw [BitVec.getLsbD_setWidth, decide_eq_true hi, Bool.true_and, BitVec.getLsbD_ushiftRight]
  rcases i with _ | _ | i
  · rw [h']
    cases bit <;> rfl
  · rw [h]
    cases bit <;> rfl
  · omega

theorem getMsbD_word (hn : n < 96) {i j : ℕ} (hi : i < 3) (h : 32 * i + j = n) (hj : j < 32) :
    cardData[i].getMsbD j = (register cardData).getMsbD n := by
  have hdiv : n / 32 = i := by omega
  have hmod : n % 32 = j := by omega
  rw [getMsbD_register hn, hdiv, hmod, word_eq hi]

theorem register_injective {w w' : HID10301CardData} (h : register w = register w') : w = w' := by
  refine Vector.ext fun i hi => BitVec.eq_of_getMsbD_eq fun j hj => ?_
  rw [getMsbD_word (by omega) hi rfl hj, getMsbD_word (by omega) hi rfl hj, h]

theorem getD_pairedBits {i : ℕ} : (pairedBits d).getD (18 + i) false = (dataBits d).getD i false := by
  rw [pairedBits, List.getD_append_right _ _ _ _ (Nat.le_add_right 18 i)]
  congr 1
  exact Nat.add_sub_cancel_left 18 i

theorem pairs_encode : pairs (encode d) = (dataBits d).map pairOf := by
  refine List.ext_getElem (by simp [pairs, length_dataBits]) fun i hi hi' => ?_
  rw [List.length_map, length_dataBits] at hi'
  obtain ⟨hbit, hbit'⟩ := register_encode_pair (d := d) (i := 18 + i) (by omega)
  rw [getD_pairedBits, List.getD_eq_getElem _ _ (by rwa [length_dataBits])] at hbit hbit'
  rw [List.getElem_map]
  simp only [pairs]
  rcases Nat.lt_or_ge i 10 with hlt | hge
  · rw [List.getElem_append_left (by simpa using hlt), List.getElem_map, List.getElem_range]
    apply setWidth_eq_pairOf (by omega)
    · rw [getMsbD_word (n := 8 + 2 * (18 + i)) (by omega) (by decide) (by omega) (by omega), hbit]
    · rw [getMsbD_word (n := 9 + 2 * (18 + i)) (by omega) (by decide) (by omega) (by omega), hbit']
  · rw [List.getElem_append_right (by simpa using hge), List.getElem_map, List.getElem_range,
      List.length_map, List.length_range]
    apply setWidth_eq_pairOf (by omega)
    · rw [getMsbD_word (n := 8 + 2 * (18 + i)) (by omega) (by decide) (by omega) (by omega), hbit]
    · rw [getMsbD_word (n := 9 + 2 * (18 + i)) (by omega) (by decide) (by omega) (by omega), hbit']

section Result

/-- The 26 bits that are read from the card data of a payload. -/
def result (d : Vector (BitVec 8) 3) : BitVec 32 := shiftAll 0 (dataBits d)

theorem getLsbD_result {i : ℕ} (hi : i < 26) :
    (result d).getLsbD i = (dataBits d).getD (25 - i) false := by
  have hlsb : (result d).getLsbD i = _ :=
    getLsbD_shiftAll (by rwa [length_dataBits]) (by rw [length_dataBits]; decide)
  rw [hlsb, length_dataBits]

theorem getLsbD_result_zero :
    (result d).getLsbD 0 = decide (oddParitySum (fcCn d) % 2 = 1) := by
  rw [getLsbD_result (by decide), dataBits, List.getD_append_right _ _ _ _ (by simp)]
  simp

theorem getLsbD_result_succ {i : ℕ} (hi : i < 24) :
    (result d).getLsbD (i + 1) = (fcCn d).getLsbD i := by
  have hidx : 25 - (i + 1) = 23 - i + 1 := by omega
  have hback : 24 - 1 - (23 - i) = i := by omega
  rw [getLsbD_result (by omega), hidx, dataBits, List.getD_append _ _ _ _ (by simp; omega),
    List.getD_cons_succ, List.getD_eq_getElem _ _ (by simp; omega), List.getElem_map,
    List.getElem_range, BitVec.getMsbD_eq_getLsbD, hback, decide_eq_true (by omega), Bool.true_and]

theorem getLsbD_result_last :
    (result d).getLsbD 25 = decide (evenParitySum (fcCn d) % 2 = 1) := by
  rw [getLsbD_result (by decide), dataBits, Nat.sub_self, List.cons_append, List.getD_cons_zero]

theorem toNat_decide_odd (n : ℕ) : (decide (n % 2 = 1)).toNat = n % 2 := by
  rcases Nat.mod_two_eq_zero_or_one n with h | h
  · rw [h]
    rfl
  · rw [h]
    rfl

theorem parityTests_result : parityTests (result d) = true := by
  have hlow : ∑ i ∈ range 12, ((result d).getLsbD (i + 1)).toNat =
      ∑ i ∈ range 12, ((fcCn d).getLsbD i).toNat := by
    apply sum_congr rfl
    intro i hi
    rw [getLsbD_result_succ (by have := mem_range.mp hi; omega)]
  have hhigh : ∑ i ∈ range 12, ((result d).getLsbD (13 + i)).toNat = evenParitySum (fcCn d) := by
    apply sum_congr rfl
    intro i hi
    have hidx : 13 + i = 12 + i + 1 := by omega
    rw [hidx, getLsbD_result_succ (by have := mem_range.mp hi; omega)]
  have hodd : ∑ i ∈ range 13, ((result d).getLsbD i).toNat =
      ∑ i ∈ range 12, ((fcCn d).getLsbD i).toNat + oddParitySum (fcCn d) % 2 := by
    rw [sum_range_succ', hlow, getLsbD_result_zero, toNat_decide_odd]
  have heven : ∑ i ∈ range 13, ((result d).getLsbD (13 + i)).toNat =
      evenParitySum (fcCn d) + evenParitySum (fcCn d) % 2 := by
    rw [sum_range_succ, hhigh, getLsbD_result_last, toNat_decide_odd]
  unfold parityTests
  rw [hodd, heven, Bool.and_eq_true, decide_eq_true_eq, decide_eq_true_eq]
  unfold oddParitySum
  omega

theorem byte_result {j k : ℕ} {byte : BitVec 8} (hk : k = j + 1) (hj : j + 8 ≤ 24)
    (h : ∀ i < 8, (fcCn d).getLsbD (j + i) = byte.getLsbD i) :
    (result d >>> k).setWidth 8 = byte := by
  refine BitVec.eq_of_getLsbD_eq fun i hi => ?_
  have hidx : k + i = j + i + 1 := by omega
  rw [BitVec.getLsbD_setWidth, decide_eq_true hi, Bool.true_and, BitVec.getLsbD_ushiftRight, hidx,
    getLsbD_result_succ (by omega), h i hi]

theorem getLsbD_fcCn {i : ℕ} (hi : i < 8) : (fcCn d).getLsbD (0 + i) = d[2].getLsbD i ∧
    (fcCn d).getLsbD (8 + i) = d[1].getLsbD i ∧ (fcCn d).getLsbD (16 + i) = d[0].getLsbD i := by
  have hfirst : 16 + i - 8 - 8 = i := by omega
  unfold fcCn
  refine ⟨?_, ?_, ?_⟩
  · rw [BitVec.getLsbD_append, if_pos (by omega), Nat.zero_add]
  · rw [BitVec.getLsbD_append, if_neg (by omega), Nat.add_sub_cancel_left, BitVec.getLsbD_append,
      if_pos hi]
  · rw [BitVec.getLsbD_append, if_neg (by omega), BitVec.getLsbD_append, if_neg (by omega), hfirst]

theorem decode_encode (d : Vector (BitVec 8) 3) : decode (encode d) = d := by
  have hresult : (pairs (encode d)).foldl
      (fun result pair => (decodePair result pair).getD result) 0 = result d := by
    rw [pairs_encode, foldl_decodePair]
    rfl
  have hfirst : (result d >>> 17).setWidth 8 = d[0] :=
    byte_result rfl (by decide) fun i hi => (getLsbD_fcCn hi).2.2
  have hsecond : (result d >>> 9).setWidth 8 = d[1] :=
    byte_result rfl (by decide) fun i hi => (getLsbD_fcCn hi).2.1
  have hthird : (result d >>> 1).setWidth 8 = d[2] :=
    byte_result rfl (by decide) fun i hi => (getLsbD_fcCn hi).1
  simp only [decode, hresult, hfirst, hsecond, hthird]
  refine Vector.ext fun i hi => ?_
  rcases (by omega : i = 0 ∨ i = 1 ∨ i = 2) with rfl | rfl | rfl
  · rfl
  · rfl
  · rfl

/-- The first 44 bits are the same for all payloads. -/
def fixedBits : BitVec 44 := 0x1D#8 ++ 0x1556#14 ++ 0x155556#22

theorem withComplement_append {bits bits' : List Bool} {m : ℕ} (hm : m < 2 * bits.length) :
    withComplement (bits ++ bits') m = withComplement bits m := by
  rw [withComplement, withComplement, List.getD_append _ _ _ _ (by omega)]

theorem register_fixed (hn : n < 44) :
    (register (encode d)).getMsbD n = fixedBits.getMsbD n := by
  have hfixed : ∀ n < 44, (if n < 8 then preamble.getD n false
      else withComplement (companyCode ++ cardFormat) (n - 8)) = fixedBits.getMsbD n := by
    decide
  rw [register_encode (by omega), ← hfixed n hn, pairedBits]
  split
  · rfl
  · rw [withComplement_append (show n - 8 < 2 * 18 by omega)]

theorem first_word_encode : (encode d)[0] = 0x1D555955#32 := by
  refine BitVec.eq_of_getMsbD_eq fun i hi => ?_
  have hconst : ∀ i < 32, fixedBits.getMsbD i = (0x1D555955#32).getMsbD i := by decide
  rw [getMsbD_word (n := i) (by omega) (by decide) (by omega) hi, register_fixed (by omega),
    hconst i hi]

theorem second_word_encode : (encode d)[1] >>> 20 = 0x556#32 := by
  refine BitVec.eq_of_getMsbD_eq fun i hi => ?_
  have hconst : ∀ i < 32, (!decide (i < 20) && fixedBits.getMsbD (32 + (i - 20))) =
      (0x556#32).getMsbD i := by decide
  rw [BitVec.getMsbD_ushiftRight, decide_eq_true hi, Bool.true_and, ← hconst i hi,
    getMsbD_word (n := 32 + (i - 20)) (by omega) (by decide) rfl (by omega),
    register_fixed (by omega)]

theorem canBeDecoded_encode (d : Vector (BitVec 8) 3) : canBeDecoded (encode d) = true := by
  have hpairs : (pairs (encode d)).foldlM decodePair 0 = some (result d) := by
    rw [pairs_encode, foldlM_decodePair]
    rfl
  rw [canBeDecoded, first_word_encode, second_word_encode, hpairs]
  simp only [Bool.and_eq_true, decide_eq_true_eq]
  exact ⟨⟨⟨by decide, by decide⟩, by decide⟩, parityTests_result⟩

end Result

end ProtocolHID10301

open ProtocolHID10301

/-! The decoder takes the bits into the three words as into one register. -/

namespace DecoderHID26

def shiftWords (w : HID10301CardData) (data : Bool) : HID10301CardData :=
  #v[w[0] <<< 1 ||| (w[1] >>> 31 &&& 1#32), w[1] <<< 1 ||| (w[2] >>> 31 &&& 1#32),
    w[2] <<< 1 ||| (BitVec.ofBool data).setWidth 32]

end DecoderHID26

open DecoderHID26

theorem and_one_shiftRight (v : BitVec 32) :
    v >>> 31 &&& 1#32 = (BitVec.ofBool (v.getMsbD 0)).setWidth 32 := by
  rw [BitVec.and_one_eq_setWidth_ofBool_getLsbD, BitVec.getLsbD_ushiftRight,
    BitVec.getMsbD_eq_getLsbD, decide_eq_true (by decide), Bool.true_and]

theorem shiftWords_eq (w : HID10301CardData) (data : Bool) : shiftWords w data =
    #v[shiftIn w[0] (w[1].getMsbD 0), shiftIn w[1] (w[2].getMsbD 0), shiftIn w[2] data] := by
  unfold shiftWords shiftIn
  simp only [and_one_shiftRight]

theorem register_shiftWords (w : HID10301CardData) (data : Bool) :
    register (shiftWords w data) = shiftIn (register w) data := by
  refine BitVec.eq_of_getMsbD_eq fun i hi => ?_
  have hword {j k : ℕ} (hj : j < 3) (hk : k < 32) (hne : 32 * j + k + 1 ≠ 96) {carry : Bool}
      (hcarry : 32 * j + 32 < 96 → carry = (register w).getMsbD (32 * j + 32)) :
      (shiftIn w[j] carry).getMsbD k = (register w).getMsbD (32 * j + k + 1) := by
    rw [getMsbD_shiftIn hk]
    split
    · rw [hcarry (by omega)]
      congr 1
      omega
    · exact getMsbD_word (by omega) hj (by omega) (by omega)
  have hsecond : w[1].getMsbD 0 = (register w).getMsbD 32 :=
    getMsbD_word (by decide) (by decide) rfl (by decide)
  have hthird : w[2].getMsbD 0 = (register w).getMsbD 64 :=
    getMsbD_word (by decide) (by decide) rfl (by decide)
  rw [getMsbD_shiftIn hi, getMsbD_register hi, word_eq (by omega)]
  by_cases hlast : i + 1 = 96
  · obtain rfl : i = 95 := by omega
    simp only [shiftWords_eq]
    exact getMsbD_shiftIn (by decide) data
  · have hidx : 32 * (i / 32) + i % 32 + 1 = i + 1 := by omega
    have hin : i % 32 < 32 := Nat.mod_lt i (by decide)
    simp only [shiftWords_eq]
    rw [if_neg hlast, ← hidx]
    rcases (by omega : i / 32 = 0 ∨ i / 32 = 1 ∨ i / 32 = 2) with h | h | h
    · simp only [h]
      exact hword (by decide) hin (by omega) fun _ => hsecond
    · simp only [h]
      exact hword (by decide) hin (by omega) fun _ => hthird
    · simp only [h]
      exact hword (by decide) hin (by omega) fun hlt => absurd hlt (by decide)

end FlipperZero.LfRfid
