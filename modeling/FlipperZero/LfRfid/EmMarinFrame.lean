import FlipperZero.LfRfid.ProtocolEmMarin
import Mathlib.Tactic.IntervalCases

/-! # What the EM-Marin checks say about a word

Bits are numbered as they are sent. A word passes the checks when its header, its rows,
its columns and its stop bit are right; the bytes then determine the word.
-/

namespace FlipperZero.LfRfid

open Lib Finset ProtocolEMMarin

/-- A right frame, as a sequence of 64 bits. -/
structure EmFrame (f : ℕ → Bool) : Prop where
  header : ∀ n < 9, f n = true
  row : ∀ r < 10, (∑ c ∈ range 5, (f (9 + 5 * r + c)).toNat) % 2 = 0
  column : ∀ c < 4, (∑ r ∈ range 11, (f (9 + 5 * r + c)).toNat) % 2 = 0
  stop : f 63 = false

section Checks

variable {card : BitVec 64}

theorem getMsbD_headerMask : ∀ n < 64, headerMask.getMsbD n = decide (n < 9) := by decide

theorem getMsbD_headerAndStopMask :
    ∀ n < 64, headerAndStopMask.getMsbD n = decide (n < 9 ∨ n = 63) := by
  decide

theorem headerAndStop_iff :
    card &&& headerAndStopMask = headerMask ↔
      (∀ n < 9, card.getMsbD n = true) ∧ card.getMsbD 63 = false := by
  constructor
  · intro h
    have hbit : ∀ n < 64, (card.getMsbD n && decide (n < 9 ∨ n = 63)) = decide (n < 9) := by
      intro n hn
      rw [← getMsbD_headerAndStopMask n hn, ← getMsbD_headerMask n hn, ← h, BitVec.getMsbD_and]
    refine ⟨fun n hn => ?_, ?_⟩
    · have := hbit n (by omega)
      simpa [hn] using this
    · simpa using hbit 63 (by decide)
  · rintro ⟨hheader, hstop⟩
    refine BitVec.eq_of_getMsbD_eq fun n hn => ?_
    rw [BitVec.getMsbD_and, getMsbD_headerAndStopMask n hn, getMsbD_headerMask n hn]
    rcases Nat.lt_or_ge n 9 with h9 | h9
    · simp [hheader n h9, h9]
    · rcases Nat.lt_or_ge n 63 with h63 | h63
      · have hmask : decide (n < 9 ∨ n = 63) = false := decide_eq_false (by omega)
        rw [hmask, Bool.and_false, decide_eq_false (Nat.not_lt.mpr h9)]
      · obtain rfl : n = 63 := by omega
        simp [hstop]

theorem getLsbD_eq_getMsbD {i n : ℕ} (h : i + n = 63) : card.getLsbD i = card.getMsbD n := by
  have hidx : 64 - 1 - n = i := by omega
  rw [BitVec.getMsbD_eq_getLsbD, hidx, decide_eq_true (by omega), Bool.true_and]

theorem rowParity_eq {i : ℕ} (hi : i < 10) :
    ∑ j ∈ range 5, (card.getLsbD (50 - i * 5 + j)).toNat =
      ∑ c ∈ range 5, (card.getMsbD (9 + 5 * i + c)).toNat := by
  rw [← sum_range_reflect fun c => (card.getMsbD (9 + 5 * i + c)).toNat]
  refine sum_congr rfl fun j hj => congrArg Bool.toNat (getLsbD_eq_getMsbD ?_)
  have := mem_range.mp hj
  omega

theorem columnParity_eq {i : ℕ} (hi : i < 4) :
    ∑ j ∈ range 11, (card.getLsbD (4 - i + j * 5)).toNat =
      ∑ r ∈ range 11, (card.getMsbD (9 + 5 * r + i)).toNat := by
  rw [← sum_range_reflect fun r => (card.getMsbD (9 + 5 * r + i)).toNat]
  refine sum_congr rfl fun j hj => congrArg Bool.toNat (getLsbD_eq_getMsbD ?_)
  have := mem_range.mp hj
  omega

theorem canBeDecoded_iff : canBeDecoded card = true ↔ EmFrame card.getMsbD := by
  unfold canBeDecoded
  rw [Bool.and_eq_true, Bool.and_eq_true, decide_eq_true_eq, headerAndStop_iff, List.all_eq_true,
    List.all_eq_true]
  simp only [List.mem_range, decide_eq_true_eq]
  constructor
  · rintro ⟨⟨⟨hheader, hstop⟩, hrow⟩, hcol⟩
    refine ⟨hheader, fun r hr => ?_, fun c hc => ?_, hstop⟩
    · rw [← rowParity_eq hr]
      exact hrow r hr
    · rw [← columnParity_eq hc]
      exact hcol c hc
  · intro h
    exact ⟨⟨⟨h.header, h.stop⟩, fun i hi => (rowParity_eq hi).symm ▸ h.row i hi⟩,
      fun i hi => (columnParity_eq hi).symm ▸ h.column i hi⟩

end Checks

section Encode

variable (d : Vector (BitVec 8) 5)

def byteRows (data : BitVec 8) : List Bool := nibbleRow false data ++ nibbleRow true data

def bodyBits : List Bool := List.replicate 9 true ++ d.toList.flatMap byteRows

theorem length_byteRows (data : BitVec 8) : (byteRows data).length = 10 := rfl

theorem length_bodyBits : (bodyBits d).length = 59 := by
  rw [bodyBits, List.length_append, List.length_replicate,
    length_flatMap_block length_byteRows, Vector.length_toList]

theorem getD_bodyBits_header {n : ℕ} (hn : n < 9) : (bodyBits d).getD n false = true := by
  rw [bodyBits, List.getD_append _ _ _ _ (by simpa using hn)]
  rw [List.getD_replicate _ hn]

theorem getD_bodyBits {i j : ℕ} (hi : i < 5) (hj : j < 10) :
    (bodyBits d).getD (9 + 10 * i + j) false = (byteRows d[i]).getD j false := by
  have hlen : i < d.toList.length := by simpa using hi
  rw [bodyBits, List.getD_append_right _ _ _ _ (by simp; omega), List.length_replicate,
    (by omega : 9 + 10 * i + j - 9 = 10 * i + j), getD_flatMap_block length_byteRows hlen hj,
    Vector.getElem_toList]

theorem rows_eq (bytes : List (BitVec 8)) (card : BitVec 64) :
    bytes.foldl (fun cardData data => writeNibble true data (writeNibble false data cardData)) card =
      shiftAll card (bytes.flatMap byteRows) := by
  induction bytes generalizing card with
  | nil => rfl
  | cons data bytes ih =>
    rw [List.foldl_cons, ih, List.flatMap_cons, shiftAll_append, byteRows, shiftAll_append]
    rfl

def columnBit (c : ℕ) : Bool :=
  decide ((∑ r ∈ range 10, ((bodyBits d).getD (9 + 5 * r + c) false).toNat) % 2 = 1)

theorem columnParity_bodyBits {c : ℕ} (hc : c < 4) {bits : List Bool} (hlen : bits.length = c) :
    columnParity (shiftAll 0 (bodyBits d ++ bits)) = columnBit d c := by
  have hsum : ∑ i ∈ range 10,
      ((shiftAll (0 : BitVec 64) (bodyBits d ++ bits)).getLsbD ((i + 1) * 5 - 1)).toNat =
      ∑ r ∈ range 10, ((bodyBits d).getD (9 + 5 * r + c) false).toNat := by
    rw [← sum_range_reflect fun r => ((bodyBits d).getD (9 + 5 * r + c) false).toNat]
    refine sum_congr rfl fun i hi => ?_
    have hi' := mem_range.mp hi
    have hbody := length_bodyBits d
    have hall : (bodyBits d ++ bits).length = 59 + c := by
      rw [List.length_append, hbody, hlen]
    rw [getLsbD_shiftAll (by omega) (by omega), hall, List.getD_append _ _ _ _ (by omega)]
    congr 3
    omega
  rw [columnParity, hsum]
  rfl

def frameBits : List Bool := bodyBits d ++ (List.range 4).map (columnBit d) ++ [false]

theorem length_frameBits : (frameBits d).length = 64 := by
  rw [frameBits, List.length_append, List.length_append, length_bodyBits]
  rfl

theorem columns_eq {c : ℕ} (hc : c ≤ 4) :
    (List.range c).foldl (fun cardData _ => shiftIn cardData (columnParity cardData))
        (shiftAll (0 : BitVec 64) (bodyBits d)) =
      shiftAll 0 (bodyBits d ++ (List.range c).map (columnBit d)) := by
  induction c with
  | zero => simp
  | succ c ih =>
    rw [List.range_succ, List.foldl_append, ih (by omega), List.map_append, ← List.append_assoc,
      shiftAll_append _ (List.map _ [c])]
    exact congrArg (shiftIn _) (columnParity_bodyBits d (by omega) (by simp))

theorem encode_eq : encode d = shiftAll 0 (frameBits d) := by
  have hheader : (0b111111111 : BitVec 64) = shiftAll 0 (List.replicate 9 true) := by decide
  have hbody : d.toList.foldl
      (fun cardData data => writeNibble true data (writeNibble false data cardData))
      (0b111111111 : BitVec 64) = shiftAll 0 (bodyBits d) := by
    rw [rows_eq, hheader, ← shiftAll_append]
    rfl
  rw [frameBits, shiftAll_append, ← columns_eq d le_rfl, ← hbody]
  rfl

theorem getMsbD_encode {n : ℕ} (hn : n < 64) : (encode d).getMsbD n = (frameBits d).getD n false := by
  rw [encode_eq, getMsbD_shiftAll_of_le hn (length_frameBits d).ge, length_frameBits]
  simp

/-- Bit `c` of nibble `r` of the payload, both in the order they are sent. -/
def nibbleBit (r c : ℕ) : Bool :=
  (d.getD (r / 2) 0).getLsbD (if r % 2 = 0 then 7 - c else 3 - c)

/-- The parity bit of nibble `r`. -/
def oddNibble (r : ℕ) : Bool := decide ((∑ c ∈ range 4, (nibbleBit d r c).toNat) % 2 = 1)

theorem getD_byteRows (data : BitVec 8) : ∀ q < 2, ∀ c < 4,
    (byteRows data).getD (5 * q + c) false = data.getLsbD (if q = 0 then 7 - c else 3 - c) := by
  intro q hq c hc
  interval_cases q <;> interval_cases c <;> rfl

theorem getD_byteRows_parity (data : BitVec 8) : ∀ q < 2,
    (byteRows data).getD (5 * q + 4) false = decide ((∑ c ∈ range 4,
      (data.getLsbD (if q = 0 then 7 - c else 3 - c)).toNat) % 2 = 1) := by
  intro q hq
  interval_cases q <;> simp [byteRows, nibbleRow, sum_range_succ, add_assoc]

theorem encode_row {r j : ℕ} (hr : r < 10) (hj : j < 5) :
    (encode d).getMsbD (9 + 5 * r + j) = (byteRows (d.getD (r / 2) 0)).getD (5 * (r % 2) + j) false := by
  have hi : r / 2 < 5 := by omega
  have hidx : 9 + 5 * r + j = 9 + 10 * (r / 2) + (5 * (r % 2) + j) := by omega
  have hget : d.getD (r / 2) 0 = d[r / 2] := by simp [Vector.getD, hi]
  rw [getMsbD_encode d (by omega), hidx, frameBits, List.append_assoc,
    List.getD_append _ _ _ _ (by rw [length_bodyBits]; omega), getD_bodyBits d hi (by omega), hget]

theorem encode_nibble {r c : ℕ} (hr : r < 10) (hc : c < 4) :
    (encode d).getMsbD (9 + 5 * r + c) = nibbleBit d r c := by
  rw [encode_row d hr (by omega), getD_byteRows _ _ (Nat.mod_lt _ (by decide)) _ hc]
  rfl

theorem encode_parity {r : ℕ} (hr : r < 10) : (encode d).getMsbD (9 + 5 * r + 4) = oddNibble d r := by
  rw [encode_row d hr (by decide), getD_byteRows_parity _ _ (Nat.mod_lt _ (by decide))]
  rfl

theorem encode_header {n : ℕ} (hn : n < 9) : (encode d).getMsbD n = true := by
  rw [getMsbD_encode d (by omega), frameBits, List.append_assoc,
    List.getD_append _ _ _ _ (by rw [length_bodyBits]; omega), getD_bodyBits_header d hn]

theorem encode_body {n : ℕ} (hn : n < 59) : (encode d).getMsbD n = (bodyBits d).getD n false := by
  rw [getMsbD_encode d (by omega), frameBits, List.append_assoc,
    List.getD_append _ _ _ _ (by rw [length_bodyBits]; exact hn)]

theorem encode_column {c : ℕ} (hc : c < 4) : (encode d).getMsbD (59 + c) = columnBit d c := by
  have hlen := length_bodyBits d
  rw [getMsbD_encode d (by omega), frameBits, List.getD_append _ _ _ _ (by simp; omega),
    List.getD_append_right _ _ _ _ (by omega), hlen, Nat.add_sub_cancel_left,
    List.getD_eq_getElem?_getD, List.getElem?_map, List.getElem?_range hc, Option.map_some,
    Option.getD_some]

theorem encode_stop : (encode d).getMsbD 63 = false := by
  have hlen := length_bodyBits d
  rw [getMsbD_encode d (by decide), frameBits, List.getD_append_right _ _ _ _ (by simp; omega)]
  simp [hlen]

theorem even_add_parity (s : ℕ) : (s + (decide (s % 2 = 1)).toNat) % 2 = 0 := by
  rcases Nat.mod_two_eq_zero_or_one s with h | h
  · simp [h]
  · simp [h, Nat.add_mod]

theorem emFrame_encode : EmFrame (encode d).getMsbD where
  header n hn := encode_header d hn
  row r hr := by
    rw [sum_range_succ, encode_parity d hr,
      sum_congr rfl fun c hc => congrArg Bool.toNat (encode_nibble d hr (mem_range.mp hc))]
    exact even_add_parity _
  column c hc := by
    rw [sum_range_succ, (by rfl : 9 + 5 * 10 + c = 59 + c), encode_column d hc,
      sum_congr rfl fun r hr => congrArg Bool.toNat
        (encode_body d (by have := mem_range.mp hr; omega : 9 + 5 * r + c < 59))]
    exact even_add_parity _
  stop := encode_stop d

end Encode

theorem EmFrame.ext_nibbles {f g : ℕ → Bool} (hf : EmFrame f) (hg : EmFrame g)
    (h : ∀ r < 10, ∀ c < 4, f (9 + 5 * r + c) = g (9 + 5 * r + c)) : ∀ n < 64, f n = g n := by
  have hrow : ∀ r < 10, f (9 + 5 * r + 4) = g (9 + 5 * r + 4) := by
    intro r hr
    have hf' := hf.row r hr
    have hg' := hg.row r hr
    rw [sum_range_succ] at hf' hg'
    rw [sum_congr rfl fun c hc => congrArg Bool.toNat (h r hr c (mem_range.mp hc))] at hf'
    rcases hfr : f (9 + 5 * r + 4) <;> rcases hgr : g (9 + 5 * r + 4) <;>
      simp only [hfr, hgr, Bool.toNat_true, Bool.toNat_false] at hf' hg' <;> first | rfl | omega
  have hbody : ∀ r < 10, ∀ c < 5, f (9 + 5 * r + c) = g (9 + 5 * r + c) := by
    intro r hr c hc
    rcases Nat.lt_succ_iff_lt_or_eq.mp hc with hlt | rfl
    · exact h r hr c hlt
    · exact hrow r hr
  have hcol : ∀ c < 4, f (59 + c) = g (59 + c) := by
    intro c hc
    have hf' := hf.column c hc
    have hg' := hg.column c hc
    rw [sum_range_succ] at hf' hg'
    rw [sum_congr rfl fun r hr => congrArg Bool.toNat
      (h r (mem_range.mp hr) c hc)] at hf'
    have hidx : 9 + 5 * 10 + c = 59 + c := rfl
    rw [hidx] at hf' hg'
    rcases hfc : f (59 + c) <;> rcases hgc : g (59 + c) <;>
      simp only [hfc, hgc, Bool.toNat_true, Bool.toNat_false] at hf' hg' <;> first | rfl | omega
  intro n hn
  rcases Nat.lt_or_ge n 9 with h9 | h9
  · rw [hf.header n h9, hg.header n h9]
  rcases Nat.lt_or_ge n 59 with h59 | h59
  · have hidx : n = 9 + 5 * ((n - 9) / 5) + (n - 9) % 5 := by omega
    rw [hidx]
    exact hbody _ (by omega) _ (by omega)
  rcases Nat.lt_or_ge n 63 with h63 | h63
  · have hidx : n = 59 + (n - 59) := by omega
    rw [hidx]
    exact hcol _ (by omega)
  · obtain rfl : n = 63 := by omega
    rw [hf.stop, hg.stop]

section Decode

variable {card : BitVec 64}

theorem getLsbD_topNibble {j : ℕ} (hj : j < 8) :
    (topNibble card).getLsbD j = if j < 4 then card.getMsbD (3 - j) else false := by
  have hmsb := getMsbD_shiftAll (r := (0 : BitVec 8)) (n := 7 - j) (by omega)
    ((List.range 4).map card.getMsbD)
  have hidx : 8 - 1 - (7 - j) = j := by omega
  rw [BitVec.getMsbD_eq_getLsbD, hidx, decide_eq_true (by omega), Bool.true_and] at hmsb
  rw [topNibble, hmsb, List.length_map, List.length_range]
  by_cases h : j < 4
  · have hsub : 7 - j + 4 - 8 = 3 - j := by omega
    rw [if_neg (by omega), if_pos h, hsub, List.getD_eq_getElem?_getD, List.getElem?_map,
      List.getElem?_range (by omega)]
    rfl
  · rw [if_pos (by omega), if_neg h]
    exact BitVec.getMsbD_zero

/-- The byte that two rows at the top of the card data give. -/
def topByte (card : BitVec 64) : BitVec 8 := topNibble card <<< 4 ||| topNibble (card <<< 5)

theorem getLsbD_topByte {j : ℕ} (hj : j < 8) :
    (topByte card).getLsbD j = card.getMsbD (if 4 ≤ j then 7 - j else 8 - j) := by
  rw [topByte, BitVec.getLsbD_or, BitVec.getLsbD_shiftLeft, getLsbD_topNibble hj]
  by_cases h : 4 ≤ j
  · rw [getLsbD_topNibble (by omega), if_pos (by omega), if_neg (by omega), if_pos h]
    have hidx : 3 - (j - 4) = 7 - j := by omega
    simp [hidx, hj, Nat.not_lt.mpr h]
  · rw [if_pos (by omega), if_neg h, BitVec.getMsbD_shiftLeft]
    have hidx : 3 - j + 5 = 8 - j := by omega
    simp [hidx, Nat.lt_of_not_le h]

/-- The state of the decoding loop after both rows of `m` bytes. -/
def decodedRows (card : BitVec 64) (m : ℕ) : DecodeState :=
  ⟨card <<< (9 + 10 * m), 0, m,
    Vector.ofFn fun i : Fin 5 => if i < m then topByte (card <<< (9 + 10 * (i : ℕ))) else 0⟩

theorem decodeRow_pair {m : ℕ} (hm : m < 5) :
    decodeRow (decodeRow (decodedRows card m) (2 * m)) (2 * m + 1) = decodedRows card (m + 1) := by
  have heven : ¬2 * m % 2 = 1 := by omega
  have hodd : (2 * m + 1) % 2 = 1 := by omega
  have hshift : card <<< (9 + 10 * m) <<< 5 <<< 5 = card <<< (9 + 10 * (m + 1)) := by
    rw [← BitVec.shiftLeft_add, ← BitVec.shiftLeft_add]
    exact congrArg (card <<< ·) (by omega)
  simp only [decodeRow, decodedRows, if_neg heven, if_pos hodd, hshift]
  congr 1
  refine Vector.ext fun i hi => ?_
  rw [Vector.getElem_setIfInBounds, Vector.getElem_ofFn, Vector.getElem_ofFn]
  rcases Nat.lt_trichotomy i m with hlt | rfl | hgt
  · rw [if_neg (by omega), if_pos hlt, if_pos (by simpa using Nat.lt_succ_of_lt hlt)]
  · have hzero : ∀ v : Vector (BitVec 8) 5, v[i] = 0 → v.getD i 0 = 0 := fun v hv => by
      simpa [Vector.getD, hi] using hv
    rw [if_pos rfl, if_pos (Nat.lt_succ_self i), hzero _ (by simp), BitVec.shiftLeft_add]
    simp [topByte]
  · rw [if_neg (by omega), if_neg (by simp; omega), if_neg (by simp; omega)]

theorem decode_eq (card : BitVec 64) : decode card =
    Vector.ofFn fun i : Fin 5 => topByte (card <<< (9 + 10 * (i : ℕ))) := by
  have hrows : ∀ m ≤ 5, (List.range (2 * m)).foldl decodeRow
      ⟨card <<< 9, 0, 0, Vector.replicate 5 0⟩ = decodedRows card m := by
    intro m hm
    induction m with
    | zero => rfl
    | succ m ih =>
      have hrange : List.range (2 * (m + 1)) = List.range (2 * m) ++ [2 * m, 2 * m + 1] := by
        rw [(by ring : 2 * (m + 1) = 2 * m + 1 + 1), List.range_succ, List.range_succ,
          List.append_assoc]
        rfl
      rw [hrange, List.foldl_append, ih (by omega)]
      exact decodeRow_pair hm
  have hlast := congrArg DecodeState.decodedData (hrows 5 le_rfl)
  refine hlast.trans (Vector.ext fun i hi => ?_)
  simp [decodedRows]

theorem getLsbD_decode {m j : ℕ} (hm : m < 5) (hj : j < 8) :
    (decode card)[m].getLsbD j = card.getMsbD (9 + 10 * m + if 4 ≤ j then 7 - j else 8 - j) := by
  rw [decode_eq, Vector.getElem_ofFn, getLsbD_topByte hj, BitVec.getMsbD_shiftLeft, Nat.add_comm]

theorem nibbleBit_decode {r c : ℕ} (hr : r < 10) (hc : c < 4) :
    nibbleBit (decode card) r c = card.getMsbD (9 + 5 * r + c) := by
  have hget : (decode card).getD (r / 2) 0 = (decode card)[r / 2] := by
    simp [Vector.getD, (by omega : r / 2 < 5)]
  rw [nibbleBit, hget, getLsbD_decode (by omega) (by split <;> omega)]
  apply congrArg card.getMsbD
  split <;> split <;> omega

theorem payload_ext {d d' : Vector (BitVec 8) 5}
    (h : ∀ r < 10, ∀ c < 4, nibbleBit d r c = nibbleBit d' r c) : d = d' := by
  have hget : ∀ (v : Vector (BitVec 8) 5) (m : ℕ) (hm : m < 5), v.getD m 0 = v[m] :=
    fun v m hm => by simp [Vector.getD, hm]
  refine Vector.ext fun m hm => BitVec.eq_of_getLsbD_eq fun j hj => ?_
  rcases Nat.lt_or_ge j 4 with hlt | hge
  · have hbit := h (2 * m + 1) (by omega) (3 - j) (by omega)
    have hdiv : (2 * m + 1) / 2 = m := by omega
    have hidx : 3 - (3 - j) = j := by omega
    simpa only [nibbleBit, hdiv, hget _ m hm, if_neg (by omega : ¬(2 * m + 1) % 2 = 0), hidx] using hbit
  · have hbit := h (2 * m) (by omega) (7 - j) (by omega)
    have hdiv : 2 * m / 2 = m := by omega
    have hidx : 7 - (7 - j) = j := by omega
    simpa only [nibbleBit, hdiv, hget _ m hm, if_pos (by omega : 2 * m % 2 = 0), hidx] using hbit

theorem decode_encode (d : Vector (BitVec 8) 5) : decode (encode d) = d :=
  payload_ext fun _ hr _ hc => (nibbleBit_decode hr hc).trans (encode_nibble d hr hc)

theorem encode_decode (h : EmFrame card.getMsbD) : encode (decode card) = card :=
  BitVec.eq_of_getMsbD_eq fun n hn => (emFrame_encode _).ext_nibbles h
    (fun _ hr _ hc => (encode_nibble _ hr hc).trans (nibbleBit_decode hr hc)) n hn

/-- The accepted words are the encodings of payloads, and `decode` is inverse to `encode`. -/
theorem em_marin_codec : (∀ card, canBeDecoded card = true ↔ ∃ d, encode d = card) ∧
    (∀ d, decode (encode d) = d) ∧
    ∀ card, canBeDecoded card = true → encode (decode card) = card := by
  refine ⟨fun card => ?_, decode_encode, fun card h => encode_decode (canBeDecoded_iff.mp h)⟩
  constructor
  · intro h
    exact ⟨decode card, encode_decode (canBeDecoded_iff.mp h)⟩
  · rintro ⟨d, rfl⟩
    exact canBeDecoded_iff.mpr (emFrame_encode d)

end Decode

end FlipperZero.LfRfid
