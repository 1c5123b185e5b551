import FlipperZero.IButton.Cyfral
import Mathlib.Tactic.IntervalCases

/-! # What the Cyfral decoder reads

After a reset the decoder takes the first bit that ends for the last of a start nibble, and
the next 36 for eight nibbles and a stop nibble. Only the start nibble has three zeros in a
row, so only the frame itself ends in a stop nibble, and each attempt begins one bit later.
-/

namespace FlipperZero.IButton

open Lib KeyEmulator

namespace KeyEmulator

theorem length_cyfralPeriod (bit : Bool) : (cyfralPeriod bit).length = 2 := by
  cases bit <;> rfl

theorem length_cyfralNibble (value : BitVec 8) : (cyfralNibble value).length = 4 := by
  unfold cyfralNibble
  split_ifs <;> rfl

theorem cyfralNibble_zeros (value : BitVec 8) {i j : ℕ} (hij : i < j) (hj : j < 4)
    (hi : (cyfralNibble value).getD i false = false) :
    (cyfralNibble value).getD j false = true := by
  revert hi
  unfold cyfralNibble
  split_ifs <;> interval_cases j <;> interval_cases i <;> decide

variable (keyData : Vector (BitVec 8) 2)

/-- The value of data nibble `k`. -/
def cyfralValue (k : ℕ) : BitVec 8 :=
  (keyData.getD (1 - k / 4) 0 >>> ((3 - k % 4) * 2)) &&& 0b11

theorem cyfralBits_eq : cyfralBits keyData =
    [false, false, false, true] ++ (List.range 8).flatMap fun k =>
      cyfralNibble (cyfralValue keyData k) := by
  have hrange : List.range 8 = [0, 1, 2, 3, 4, 5, 6, 7] := rfl
  simp [cyfralBits, cyfralValue, hrange]

theorem length_cyfralBits : (cyfralBits keyData).length = 36 := by
  rw [cyfralBits_eq, List.length_append, length_flatMap_block fun k => length_cyfralNibble _]
  rfl

def cyfralBit (n : ℕ) : Bool := (cyfralBits keyData).getD (n % 36) false

theorem cyfralBit_start {n : ℕ} (hn : n % 36 < 4) : cyfralBit keyData n = decide (n % 36 = 3) := by
  rw [cyfralBit, cyfralBits_eq, List.getD_append _ _ _ _ hn]
  generalize n % 36 = m at hn
  interval_cases m <;> rfl

theorem cyfralBit_data {n k j : ℕ} (hk : k < 8) (hj : j < 4) (hn : n % 36 = 4 + 4 * k + j) :
    cyfralBit keyData n = (cyfralNibble (cyfralValue keyData k)).getD j false := by
  have hrange : k < (List.range 8).length := by simpa using hk
  rw [cyfralBit, hn, cyfralBits_eq, List.getD_append_right _ _ _ _ (by simp; omega)]
  have hidx : 4 + 4 * k + j - [false, false, false, true].length = 4 * k + j := by
    simp only [List.length_cons, List.length_nil]
    omega
  rw [hidx, getD_flatMap_block (fun k => length_cyfralNibble _) hrange hj, List.getElem_range]

theorem cyfralBit_zeros {n k i j : ℕ} (hk : k < 8) (hij : i < j) (hj : j < 4)
    (hn : n % 36 = 4 + 4 * k + i) (hzero : cyfralBit keyData n = false) :
    cyfralBit keyData (n + (j - i)) = true := by
  rw [cyfralBit_data keyData hk (lt_trans hij hj) hn] at hzero
  rw [cyfralBit_data keyData hk hj (by omega)]
  exact cyfralNibble_zeros _ hij hj hzero

theorem start_of_bits {n : ℕ} (h : bitsFrom (cyfralBit keyData) n 4 = [false, false, false, true]) :
    n % 36 = 0 := by
  have hbits : ∀ j (hj : j < 4), cyfralBit keyData (n + j) = decide (j = 3) := by
    intro j hj
    rw [← getD_bitsFrom (cyfralBit keyData) hj, h]
    interval_cases j <;> rfl
  by_contra hne
  rcases Nat.lt_or_ge (n % 36) 4 with hlt | hge
  · have hone := hbits (3 - n % 36) (by omega)
    rw [cyfralBit_start keyData (by omega), decide_eq_true (by omega),
      decide_eq_false (by omega)] at hone
    cases hone
  · rcases Nat.lt_or_ge (n % 4) 3 with hlt | hge'
    · have hone := cyfralBit_zeros keyData (k := (n % 36 - 4) / 4) (i := n % 4) (j := n % 4 + 1)
        (by omega) (by omega) (by omega) (by omega) (hbits 0 (by decide))
      rw [Nat.add_sub_cancel_left, hbits 1 (by decide)] at hone
      cases hone
    · rcases Nat.lt_or_ge (n % 36) 35 with hlt | hge
      · have hone := cyfralBit_zeros keyData (n := n + 1) (k := (n % 36 - 3) / 4) (i := 0) (j := 1)
          (by omega) (by omega) (by omega) (by omega) (hbits 1 (by decide))
        rw [Nat.sub_zero, Nat.add_assoc, hbits 2 (by decide)] at hone
        cases hone
      · have hone := hbits 3 (by decide)
        rw [cyfralBit_start keyData (by omega), decide_eq_false (by omega)] at hone
        cases hone

end KeyEmulator

namespace CyfralDecoder

/-- The key data and its validity after `k` nibbles of a stream. -/
def nibblesFrom (b : ℕ → Bool) (n : ℕ) : ℕ → BitVec 16 × Bool
  | 0 => (0, true)
  | k + 1 =>
    let (keyData, dataValid) := nibblesFrom b n k
    match nibbleIndex (shiftAll 0 (bitsFrom b (n + 4 * k) 4)) with
    | some value => (keyData <<< 2 ||| value, dataValid)
    | none => (keyData, false)

theorem takeBit_read {s : CyfralDecoder} (hs : s.state = .readNibble) (value : Bool) :
    s.takeBit value =
      let s := { s with readedNibble := shiftIn s.readedNibble value, bitIndex := s.bitIndex + 1 }
      let s := if s.bitIndex = 4 then s.takeNibble else s
      if s.index = 8 then { s with state := .readStopNibble } else s := by
  obtain ⟨_, _, _, _, _, _, _, _, _, _⟩ := s
  cases hs
  rfl

theorem takeBit_stopNibble {s : CyfralDecoder} (hs : s.state = .readStopNibble) (value : Bool) :
    s.takeBit value =
      let s := { s with
        readedNibble := shiftIn s.readedNibble value &&& 0x0F
        bitIndex := s.bitIndex + 1 }
      if s.bitIndex ≤ 3 then s
      else if s.bitIndex = 4 then
        if s.readedNibble = 0b0001 then
          if s.dataValid then { s with ready := true } else s.resetState
        else s.resetState
      else s.resetState := by
  obtain ⟨_, _, _, _, _, _, _, _, _, _⟩ := s
  cases hs
  rfl

/-- The decoder has the first `m` bits of an attempt that began with bit `n`. -/
structure Reading (b : ℕ → Bool) (n m : ℕ) (bitState : BitState) (s : CyfralDecoder) : Prop where
  ready : s.ready = false
  maxPeriod : s.maxPeriod = 230 * clocksInUs
  bitState : s.bitState = bitState
  state : s.state = if m < 32 then .readNibble else .readStopNibble
  index : s.index = m / 4
  bitIndex : s.bitIndex = m % 4
  nibble : s.readedNibble = shiftAll 0 (bitsFrom b (n + 4 * (m / 4)) (m % 4))
  data : (s.keyData, s.dataValid) = nibblesFrom b n (m / 4)

namespace Reading

variable {b : ℕ → Bool} {n m : ℕ} {s : CyfralDecoder} {bits : List Bool}
  {l : BitState}

theorem shift (h : Reading b n m l s) : shiftIn s.readedNibble (b (n + m)) =
    shiftAll 0 (bitsFrom b (n + 4 * (m / 4)) (m % 4 + 1)) := by
  have hidx : n + 4 * (m / 4) + m % 4 = n + m := by omega
  rw [bitsFrom_succ, shiftAll_append, ← h.nibble, hidx]
  rfl

theorem state_read (h : Reading b n m l s) (hm : m < 32) : s.state = .readNibble := by
  rw [h.state, if_pos hm]

theorem state_stop (h : Reading b n m l s) (hm : 32 ≤ m) : s.state = .readStopNibble := by
  rw [h.state, if_neg (Nat.not_lt.mpr hm)]

theorem takeBit_inner (h : Reading b n m l s) (hm : m < 32) (hbit : m % 4 < 3) :
    Reading b n (m + 1) l (s.takeBit (b (n + m))) := by
  have hdiv : (m + 1) / 4 = m / 4 := by omega
  have hmod : (m + 1) % 4 = m % 4 + 1 := by omega
  have htake : s.takeBit (b (n + m)) =
      { s with readedNibble := shiftIn s.readedNibble (b (n + m)), bitIndex := s.bitIndex + 1 } := by
    have hbit' : ¬s.bitIndex + 1 = 4 := by rw [h.bitIndex]; omega
    have hindex : ¬s.index = 8 := by rw [h.index]; omega
    rw [takeBit_read (h.state_read hm)]
    simp only [if_neg hbit', if_neg hindex]
  rw [htake]
  constructor
  · exact h.ready
  · exact h.maxPeriod
  · exact h.bitState
  · rw [if_pos (by omega)]
    exact h.state_read hm
  · simp only [h.index, hdiv]
  · simp only [h.bitIndex, hmod]
  · simp only [h.shift, hdiv, hmod]
  · simp only [h.data, hdiv]

theorem takeNibble (h : Reading b n m l s)
    (hnibble : bits = bitsFrom b (n + 4 * (m / 4)) 4) :
    { s with readedNibble := shiftAll 0 bits, bitIndex := 4 }.takeNibble =
      { s with
        readedNibble := 0
        bitIndex := 0
        index := s.index + 1
        keyData := (nibblesFrom b n (m / 4 + 1)).1
        dataValid := (nibblesFrom b n (m / 4 + 1)).2 } := by
  simp only [CyfralDecoder.takeNibble, nibblesFrom, ← h.data, ← hnibble]
  cases nibbleIndex (shiftAll 0 bits) <;> rfl

theorem takeBit_last (h : Reading b n m l s) (hm : m < 32) (hbit : m % 4 = 3) :
    Reading b n (m + 1) l (s.takeBit (b (n + m))) := by
  have hdiv : (m + 1) / 4 = m / 4 + 1 := by omega
  have hmod : (m + 1) % 4 = 0 := by omega
  have hbit' : s.bitIndex + 1 = 4 := by rw [h.bitIndex, hbit]
  have hnibble := h.shift
  rw [hbit] at hnibble
  have htake : s.takeBit (b (n + m)) =
      { s with
        readedNibble := 0
        bitIndex := 0
        index := s.index + 1
        state := if m + 1 < 32 then .readNibble else .readStopNibble
        keyData := (nibblesFrom b n (m / 4 + 1)).1
        dataValid := (nibblesFrom b n (m / 4 + 1)).2 } := by
    rw [takeBit_read (h.state_read hm)]
    simp only [hbit', hnibble, if_true, h.takeNibble rfl]
    by_cases hlast : m + 1 < 32
    · have hindex : ¬s.index + 1 = 8 := by rw [h.index]; omega
      simp only [if_pos hlast, if_neg hindex, h.state_read hm]
    · have hindex : s.index + 1 = 8 := by rw [h.index]; omega
      simp only [if_neg hlast, if_pos hindex]
  rw [htake]
  constructor
  · exact h.ready
  · exact h.maxPeriod
  · exact h.bitState
  · rfl
  · simp only [h.index, hdiv]
  · simp only [hmod]
  · simp only [hmod, bitsFrom, List.range_zero]
    rfl
  · simp only [hdiv]

theorem nibble_mask (h : bits.length ≤ 4) :
    shiftAll 0 bits &&& 0x0F = (shiftAll 0 bits : BitVec 8) := by
  refine BitVec.eq_of_getMsbD_eq fun i hi => ?_
  rw [BitVec.getMsbD_and]
  rcases Nat.lt_or_ge i 4 with hlt | hge
  · rw [getMsbD_shiftAll hi, if_pos (by omega)]
    simp
  · have hmask : (0x0F : BitVec 8).getMsbD i = true := by
      interval_cases i <;> rfl
    rw [hmask, Bool.and_true]

theorem takeBit_stop (h : Reading b n m l s) (hm : 32 ≤ m) (hm' : m < 35) :
    Reading b n (m + 1) l (s.takeBit (b (n + m))) := by
  have hdiv : (m + 1) / 4 = m / 4 := by omega
  have hmod : (m + 1) % 4 = m % 4 + 1 := by omega
  have hnibble := h.shift
  have htake : s.takeBit (b (n + m)) =
      { s with
        readedNibble := shiftAll 0 (bitsFrom b (n + 4 * (m / 4)) (m % 4 + 1))
        bitIndex := s.bitIndex + 1 } := by
    have hbit : s.bitIndex + 1 ≤ 3 := by rw [h.bitIndex]; omega
    rw [takeBit_stopNibble (h.state_stop hm)]
    simp only [if_pos hbit, h.shift]
    rw [nibble_mask (by rw [length_bitsFrom]; omega)]
  rw [htake]
  constructor
  · exact h.ready
  · exact h.maxPeriod
  · exact h.bitState
  · rw [if_neg (by omega)]
    exact h.state_stop hm
  · simp only [h.index, hdiv]
  · simp only [h.bitIndex, hmod]
  · simp only [hdiv, hmod]
  · simp only [h.data, hdiv]

theorem takeBit (h : Reading b n m l s) (hm : m + 1 < 36) :
    Reading b n (m + 1) l (s.takeBit (b (n + m))) := by
  rcases Nat.lt_or_ge m 32 with hlt | hge
  · rcases Nat.lt_or_ge (m % 4) 3 with hlt' | hge
    · exact h.takeBit_inner hlt hlt'
    · exact h.takeBit_last hlt (by omega)
  · exact h.takeBit_stop hge (by omega)

theorem start_iff (b : ℕ → Bool) (n : ℕ) : shiftAll (0 : BitVec 8) (bitsFrom b n 4) = 0b0001 ↔
    bitsFrom b n 4 = [false, false, false, true] := by
  simp only [bitsFrom, List.range_succ, List.range_zero, List.nil_append, List.cons_append,
    List.map_cons, List.map_nil]
  generalize b (n + 0) = b0
  generalize b (n + 1) = b1
  generalize b (n + 2) = b2
  generalize b (n + 3) = b3
  revert b0 b1 b2 b3
  decide

theorem takeBit_end (h : Reading b n 35 l s) : s.takeBit (b (n + 35)) =
    if bitsFrom b (n + 32) 4 = [false, false, false, true] then
      if s.dataValid then
        { s with ready := true, bitIndex := 4, readedNibble := shiftAll 0 (bitsFrom b (n + 32) 4) }
      else s.resetState
    else s.resetState := by
  have hbit : s.bitIndex + 1 = 4 := by rw [h.bitIndex]
  have hnibble : shiftIn s.readedNibble (b (n + 35)) = shiftAll 0 (bitsFrom b (n + 32) 4) := h.shift
  have hlen : ¬4 ≤ 3 := by decide
  rw [takeBit_stopNibble (h.state_stop (by decide))]
  simp only [hbit, hnibble, if_neg hlen, if_true]
  rw [nibble_mask (by rw [length_bitsFrom])]
  simp only [start_iff]
  rfl

end Reading

theorem nibbleIndex_cyfral {value : BitVec 8} (h : value &&& 0b11 = value) :
    nibbleIndex (shiftAll 0 (cyfralNibble value)) = some (value.setWidth 16) := by
  revert value
  decide

def keyWord (key : Vector (BitVec 8) 2) : BitVec 16 :=
  key[1].setWidth 16 <<< 8 ||| key[0].setWidth 16

theorem getLsbD_keyWord (key : Vector (BitVec 8) 2) {i : ℕ} (hi : i < 16) :
    (keyWord key).getLsbD i = (key.getD (i / 8) 0).getLsbD (i % 8) := by
  rw [keyWord, BitVec.getLsbD_or, BitVec.getLsbD_shiftLeft, BitVec.getLsbD_setWidth,
    BitVec.getLsbD_setWidth, decide_eq_true hi]
  rcases Nat.lt_or_ge i 8 with hlt | hge
  · have hdiv : i / 8 = 0 := by omega
    rw [hdiv, Nat.mod_eq_of_lt hlt]
    simp [hlt, Vector.getD]
  · have hdiv : i / 8 = 1 := by omega
    have hmod : i % 8 = i - 8 := by omega
    rw [hdiv, hmod, BitVec.getLsbD_of_ge key[0] i hge]
    have hlt : i - 8 < 16 := by omega
    simp [hge, hlt, Vector.getD]

theorem keyBytes_keyWord (key : Vector (BitVec 8) 2) : keyBytes (keyWord key) = key := by
  refine Vector.ext fun i hi => BitVec.eq_of_getLsbD_eq fun j hj => ?_
  have hword := getLsbD_keyWord key (i := 8 * i + j) (by omega)
  rw [(by omega : (8 * i + j) / 8 = i), (by omega : (8 * i + j) % 8 = j)] at hword
  have hget : key.getD i 0 = key[i] := by simp [Vector.getD, hi]
  rw [← hget, ← hword]
  interval_cases i
  · simp [keyBytes, hj]
  · simp [keyBytes, hj]

theorem setWidth_cyfralValue (key : Vector (BitVec 8) 2) {k : ℕ} (hk : k < 8) :
    (cyfralValue key k).setWidth 16 = (keyWord key >>> (14 - 2 * k)) &&& 0b11 := by
  refine BitVec.eq_of_getLsbD_eq fun i hi => ?_
  rw [cyfralValue, BitVec.getLsbD_setWidth, BitVec.getLsbD_and, BitVec.getLsbD_and,
    BitVec.getLsbD_ushiftRight, BitVec.getLsbD_ushiftRight]
  rcases Nat.lt_or_ge i 2 with hlt | hge
  · rw [getLsbD_keyWord key (by omega), (by omega : (14 - 2 * k + i) / 8 = 1 - k / 4),
      (by omega : (14 - 2 * k + i) % 8 = (3 - k % 4) * 2 + i)]
    interval_cases i <;> simp
  · have hmask : (0b11 : BitVec 16).getLsbD i = false := by interval_cases i <;> rfl
    have hmask' : (0b11 : BitVec 8).getLsbD i = false := by interval_cases i <;> rfl
    rw [hmask, hmask', Bool.and_false, Bool.and_false, Bool.and_false]

theorem shiftRight_two (w : BitVec 16) (k : ℕ) :
    (w >>> (k + 2)) <<< 2 ||| (w >>> k &&& 0b11) = w >>> k := by
  refine BitVec.eq_of_getLsbD_eq fun i hi => ?_
  rw [BitVec.getLsbD_or, BitVec.getLsbD_shiftLeft, BitVec.getLsbD_and, BitVec.getLsbD_ushiftRight,
    BitVec.getLsbD_ushiftRight]
  rcases Nat.lt_or_ge i 2 with hlt | hge
  · interval_cases i <;> simp
  · have hmask : (0b11 : BitVec 16).getLsbD i = false := by interval_cases i <;> rfl
    rw [hmask, (by omega : k + 2 + (i - 2) = k + i), decide_eq_true hi,
      decide_eq_false (Nat.not_lt.mpr hge), Bool.and_false, Bool.or_false]
    rfl

theorem nibblesFrom_cyfralBit (key : Vector (BitVec 8) 2) {n k : ℕ} (hn : n % 36 = 4)
    (hk : k ≤ 8) :
    nibblesFrom (cyfralBit key) n k = (keyWord key >>> (16 - 2 * k), true) := by
  induction k with
  | zero =>
    have hzero : keyWord key >>> 16 = 0 := by
      refine BitVec.eq_of_getLsbD_eq fun i hi => ?_
      simp
    rw [Nat.mul_zero, Nat.sub_zero, hzero]
    rfl
  | succ k ih =>
    have hbits : bitsFrom (cyfralBit key) (n + 4 * k) 4 = cyfralNibble (cyfralValue key k) := by
      have hdata : ∀ j < (cyfralNibble (cyfralValue key k)).length,
          cyfralBit key (n + 4 * k + j) = (cyfralNibble (cyfralValue key k)).getD j false := by
        intro j hj
        rw [length_cyfralNibble] at hj
        exact cyfralBit_data key hk hj (by omega)
      have hbits := bitsFrom_eq hdata
      rwa [length_cyfralNibble] at hbits
    have hvalue : cyfralValue key k &&& 0b11 = cyfralValue key k := by
      rw [cyfralValue, BitVec.and_assoc, BitVec.and_self]
    have hshift := shiftRight_two (keyWord key) (14 - 2 * k)
    rw [← setWidth_cyfralValue key hk, (by omega : 14 - 2 * k + 2 = 16 - 2 * k)] at hshift
    simp only [nibblesFrom, ih (by omega), hbits, nibbleIndex_cyfral hvalue, hshift]
    rw [(by omega : 16 - 2 * (k + 1) = 14 - 2 * k)]

end CyfralDecoder

section Waveform

variable (key : Vector (BitVec 8) 2)

theorem length_cyfralPeriods : (startCyfralEmulate key).periods.length = 72 := by
  change ((cyfralBits key).flatMap cyfralPeriod).length = 72
  rw [length_flatMap_block length_cyfralPeriod, length_cyfralBits]

theorem cyfral_level (p : ℕ) :
    rfidInLevel ((startCyfralEmulate key).after (72 + p)).pin = decide (p % 2 = 0) := by
  have hlen : ((cyfralBits key).flatMap cyfralPeriod).length = 72 := length_cyfralPeriods key
  have hpin : ((startCyfralEmulate key).after
      (((cyfralBits key).flatMap cyfralPeriod).length + p)).pin = _ :=
    PulseSequencer.after_pin (by omega) p
  rw [hlen, Nat.mod_mod_of_dvd p (by decide)] at hpin
  rw [hpin, rfidInLevel]
  rcases Nat.mod_two_eq_zero_or_one p with h | h
  · rw [h]; rfl
  · rw [h]; rfl

theorem cyfral_period (n : ℕ) {j : ℕ} (hj : j < 2) :
    ((startCyfralEmulate key).after (72 + (2 * n + j))).period =
      (cyfralPeriod (cyfralBit key n)).getD j 0 := by
  have hlen : ((cyfralBits key).flatMap cyfralPeriod).length = 72 := length_cyfralPeriods key
  have hperiod : ((startCyfralEmulate key).after (72 + (2 * n + j))).period = _ :=
    PulseSequencer.after_period (by omega)
  have hidx : (72 + (2 * n + j)) % 72 = 2 * (n % 36) + j := by omega
  have hlt : n % 36 < (cyfralBits key).length := by
    rw [length_cyfralBits]
    exact Nat.mod_lt _ (by decide)
  rw [hperiod, hlen, hidx, getD_flatMap_block length_cyfralPeriod hlt hj, cyfralBit,
    List.getD_eq_getElem _ _ hlt]

end Waveform

namespace CyfralDecoder

variable {s : CyfralDecoder} {time : ℕ}

theorem processFront_waiting (hready : s.ready = false) (hmax : s.maxPeriod = 230 * clocksInUs)
    (polarity : Bool) : s.processFront polarity time = match s.processBit polarity time with
      | (false, _, s) => s.resetState
      | (true, none, s) => s
      | (true, some value, s) => s.takeBit value := by
  obtain ⟨_, _, _, _, _, _, _, _, _, _⟩ := s
  cases hready
  cases hmax
  rfl

theorem processFront_ready (hready : s.ready = true) (hmax : s.maxPeriod = 230 * clocksInUs)
    (polarity : Bool) (time : ℕ) : s.processFront polarity time = s := by
  obtain ⟨_, _, _, _, _, _, _, _, _, _⟩ := s
  cases hready
  cases hmax
  rfl

theorem processFront_falling (hready : s.ready = false) (hmax : s.maxPeriod = 230 * clocksInUs)
    (hbit : s.bitState = .waitFrontHigh) :
    s.processFront false time = { s with periodTime := time, bitState := .waitFrontLow } := by
  rw [processFront_waiting hready hmax, processBit, hbit]
  rfl

theorem processFront_rising (hready : s.ready = false) (hmax : s.maxPeriod = 230 * clocksInUs)
    (hbit : s.bitState = .waitFrontLow)
    (hle : (s.periodTime + time) % 2 ^ 32 ≤ 230 * clocksInUs) :
    s.processFront true time =
      { s with
        periodTime := (s.periodTime + time) % 2 ^ 32
        bitState := .waitFrontHigh }.takeBit
        (!decide ((s.periodTime + time) % 2 ^ 32 / 2 > time)) := by
  rw [← hmax] at hle
  rw [processFront_waiting hready hmax, processBit, hbit]
  simp only [if_true, if_pos hle]

theorem processFront_long (hready : s.ready = false) (hmax : s.maxPeriod = 230 * clocksInUs)
    (hbit : s.bitState = .waitFrontLow)
    (hgt : ¬(s.periodTime + time) % 2 ^ 32 ≤ 230 * clocksInUs) :
    s.processFront true time = initial (230 * clocksInUs) := by
  have hgt' := hgt
  rw [← hmax] at hgt'
  rw [processFront_waiting hready hmax, processBit, hbit]
  simp only [if_true, if_neg hgt']
  exact congrArg initial hmax

theorem processFront_initial_falling {m : ℕ} (hm : m = 0 ∨ m = 230 * clocksInUs) :
    (initial m).processFront false time = initial (230 * clocksInUs) := by
  rcases hm with rfl | rfl <;> rfl

/-- The first bit that ends is taken for a one, and with the nibble of zeros before it for a
start nibble. -/
theorem processFront_initial_rising {m : ℕ} (hm : m = 0 ∨ m = 230 * clocksInUs) :
    (initial m).processFront true time =
      if time % 2 ^ 32 ≤ 230 * clocksInUs then
        { initial (230 * clocksInUs) with
          state := .readNibble, bitState := .waitFrontHigh, periodTime := time % 2 ^ 32 }
      else initial (230 * clocksInUs) := by
  have hmax : (initial m).processFront true time =
      (initial (230 * clocksInUs)).processFront true time := by
    rcases hm with rfl | rfl <;> rfl
  rw [hmax]
  by_cases hle : time % 2 ^ 32 ≤ 230 * clocksInUs
  · have hle' : (0 + time) % 2 ^ 32 ≤ 230 * clocksInUs := by rwa [Nat.zero_add]
    have hone : ¬time % 2 ^ 32 / 2 > time := by omega
    rw [if_pos hle, processFront_rising rfl rfl rfl hle']
    have hstart : shiftIn (0 : BitVec 8) true &&& 0x0F = 0b0001 := by decide
    simp only [initial, Nat.zero_add, decide_eq_false hone, takeBit, Bool.not_false, hstart, if_true]
  · rw [if_neg hle]
    exact processFront_long rfl rfl rfl (by simpa [initial] using hle)

theorem Reading.fields {b : ℕ → Bool} {n m : ℕ} {l : BitState} (h : Reading b n m l s)
    (bitState : BitState) (periodTime : ℕ) :
    Reading b n m bitState { s with bitState := bitState, periodTime := periodTime } :=
  ⟨h.ready, h.maxPeriod, rfl, h.state, h.index, h.bitIndex, h.nibble, h.data⟩

theorem Reading.start (b : ℕ → Bool) (n periodTime : ℕ) : Reading b n 0 .waitFrontHigh
    { initial (230 * clocksInUs) with
      state := .readNibble, bitState := .waitFrontHigh, periodTime := periodTime } :=
  ⟨rfl, rfl, rfl, rfl, rfl, rfl, rfl, rfl⟩

end CyfralDecoder

section Air

open CyfralDecoder

variable {key : Vector (BitVec 8) 2} {s : PulseAir CyfralDecoder} {n m p : ℕ}

def cyfralElapse (key : Vector (BitVec 8) 2) : PulseAir CyfralDecoder → PulseAir CyfralDecoder :=
  PulseAir.elapse (startCyfralEmulate key) reader

theorem cyfralElapse_eq (key : Vector (BitVec 8) 2) {d : CyfralDecoder} {n j t : ℕ} (hj : j < 2) :
    cyfralElapse key ⟨d, 72 + (2 * n + j), t⟩ =
      ⟨d.processFront (decide (j = 1)) t, 72 + (2 * n + j + 1),
        ((startCyfralEmulate key).after (72 + (2 * n + j + 1))).period⟩ := by
  have hlevel := cyfral_level key (2 * n + j)
  have hlevel' := cyfral_level key (2 * n + j + 1)
  have hnow : decide ((2 * n + j) % 2 = 0) = decide (j = 0) := decide_eq_decide.mpr (by omega)
  have hnext : decide ((2 * n + j + 1) % 2 = 0) = decide (j = 1) := decide_eq_decide.mpr (by omega)
  have hchange : decide (j = 1) ≠ decide (j = 0) := by interval_cases j <;> decide
  rw [hnow] at hlevel
  rw [hnext] at hlevel'
  simp only [cyfralElapse, PulseAir.elapse, Nat.add_assoc 72, hlevel, hlevel', if_neg hchange]
  rfl

/-- The decoder waits for the front to the low part of bit `n + m`. -/
structure AtHigh (key : Vector (BitVec 8) 2) (n m : ℕ) (s : PulseAir CyfralDecoder) : Prop where
  reading : Reading (cyfralBit key) n m .waitFrontHigh s.decoder
  position : s.position = 72 + (2 * (n + m) + 0)
  time : s.time = (cyfralPeriod (cyfralBit key (n + m))).getD 0 0

structure AtLow (key : Vector (BitVec 8) 2) (n m : ℕ) (s : PulseAir CyfralDecoder) : Prop where
  reading : Reading (cyfralBit key) n m .waitFrontLow s.decoder
  periodTime : s.decoder.periodTime = (cyfralPeriod (cyfralBit key (n + m))).getD 0 0
  position : s.position = 72 + (2 * (n + m) + 1)
  time : s.time = (cyfralPeriod (cyfralBit key (n + m))).getD 1 0

structure Fresh (p : ℕ) (s : PulseAir CyfralDecoder) : Prop where
  decoder : ∃ m, (m = 0 ∨ m = 230 * clocksInUs) ∧ s.decoder = initial m
  position : s.position = 72 + p

structure HasKey (key : Vector (BitVec 8) 2) (s : PulseAir CyfralDecoder) : Prop where
  ready : s.decoder.ready = true
  maxPeriod : s.decoder.maxPeriod = 230 * clocksInUs
  keyData : s.decoder.keyData = keyWord key
  position : 72 ≤ s.position

theorem AtHigh.elapse (h : AtHigh key n m s) : AtLow key n m (cyfralElapse key s) := by
  obtain ⟨d, _, _⟩ := s
  obtain ⟨hread, rfl, rfl⟩ := h
  rw [cyfralElapse_eq key (by decide), decide_eq_false (by decide),
    processFront_falling hread.ready hread.maxPeriod hread.bitState]
  exact ⟨hread.fields .waitFrontLow _, rfl, rfl, cyfral_period key (n + m) (by decide)⟩

theorem measured (bit : Bool) :
    ((cyfralPeriod bit).getD 0 0 + (cyfralPeriod bit).getD 1 0) % 2 ^ 32 ≤ 230 * clocksInUs ∧
    (!decide (((cyfralPeriod bit).getD 0 0 + (cyfralPeriod bit).getD 1 0) % 2 ^ 32 / 2 >
      (cyfralPeriod bit).getD 1 0)) = bit := by
  revert bit
  decide

theorem cyfralPeriod_le (bit : Bool) : (cyfralPeriod bit).getD 1 0 ≤ 230 * clocksInUs := by
  revert bit
  decide

theorem AtLow.processFront (h : AtLow key n m s) :
    ∃ t, s.decoder.processFront true s.time =
      { s.decoder with periodTime := t, bitState := .waitFrontHigh }.takeBit
        (cyfralBit key (n + m)) := by
  obtain ⟨hle, hbit⟩ := measured (cyfralBit key (n + m))
  rw [← h.periodTime, ← h.time] at hle hbit
  refine ⟨(s.decoder.periodTime + s.time) % 2 ^ 32, ?_⟩
  rw [processFront_rising h.reading.ready h.reading.maxPeriod h.reading.bitState hle, hbit]

theorem AtLow.elapse_eq (h : AtLow key n m s) : cyfralElapse key s =
    ⟨s.decoder.processFront true s.time, 72 + 2 * (n + m + 1),
      (cyfralPeriod (cyfralBit key (n + m + 1))).getD 0 0⟩ := by
  obtain ⟨d, p, t⟩ := s
  obtain rfl : p = _ := h.position
  have hperiod : ((startCyfralEmulate key).after (72 + 2 * (n + m + 1))).period = _ :=
    cyfral_period key (n + m + 1) (j := 0) (by decide)
  have hnext : 2 * (n + m) + 1 + 1 = 2 * (n + m + 1) := by ring
  rw [cyfralElapse_eq key (by decide), decide_eq_true rfl, hnext, hperiod]

theorem AtLow.elapse (h : AtLow key n m s) (hm : m + 1 < 36) :
    AtHigh key n (m + 1) (cyfralElapse key s) := by
  obtain ⟨t, hfront⟩ := h.processFront
  rw [h.elapse_eq, hfront]
  exact ⟨(h.reading.fields .waitFrontHigh t).takeBit hm, rfl, rfl⟩

theorem AtLow.hasKey (h : AtLow key n 35 s) (hn : n % 36 = 4) : HasKey key (cyfralElapse key s) := by
  obtain ⟨t, hfront⟩ := h.processFront
  have hread := h.reading.fields .waitFrontHigh t
  have hdata := hread.data
  rw [nibblesFrom_cyfralBit key hn (by decide), Prod.mk.injEq] at hdata
  have hstop : bitsFrom (cyfralBit key) (n + 32) 4 = [false, false, false, true] := by
    have hbits : ∀ j < [false, false, false, true].length, cyfralBit key (n + 32 + j) =
        [false, false, false, true].getD j false := by
      intro j hj
      have hj' : j < 4 := hj
      have hidx : (n + 32 + j) % 36 = j := by omega
      rw [cyfralBit_start key (by omega), hidx]
      interval_cases j <;> rfl
    exact bitsFrom_eq hbits
  rw [h.elapse_eq, hfront, hread.takeBit_end, if_pos hstop, if_pos hdata.2]
  exact ⟨rfl, hread.maxPeriod, hdata.1, Nat.le_add_right _ _⟩

theorem AtLow.reset (h : AtLow key n 35 s) (hn : n % 36 ≠ 4) :
    Fresh (2 * (n + 36)) (cyfralElapse key s) := by
  obtain ⟨t, hfront⟩ := h.processFront
  have hread := h.reading.fields .waitFrontHigh t
  have hstop : bitsFrom (cyfralBit key) (n + 32) 4 ≠ [false, false, false, true] := by
    intro hbits
    have hstart := start_of_bits key hbits
    omega
  rw [h.elapse_eq, hfront, hread.takeBit_end, if_neg hstop]
  exact ⟨⟨_, .inr hread.maxPeriod, rfl⟩, rfl⟩

theorem Fresh.elapse_high (key : Vector (BitVec 8) 2) (h : Fresh (2 * n) s) : Fresh (2 * n + 1) (cyfralElapse key s) ∧
    (cyfralElapse key s).time ≤ 230 * clocksInUs := by
  obtain ⟨d, p, t⟩ := s
  obtain ⟨⟨k, hk, rfl⟩, rfl⟩ := h
  have hperiod := cyfral_period key n (j := 1) (by decide)
  have helapse := cyfralElapse_eq key (d := initial k) (n := n) (t := t) (by decide : 0 < 2)
  rw [decide_eq_false (by decide), processFront_initial_falling hk, Nat.add_zero, hperiod] at helapse
  rw [helapse]
  refine ⟨⟨⟨_, .inr rfl, rfl⟩, rfl⟩, ?_⟩
  exact cyfralPeriod_le (cyfralBit key n)

theorem Fresh.elapse_low (key : Vector (BitVec 8) 2) (h : Fresh (2 * n + 1) s) :
    AtHigh key (n + 1) 0 (cyfralElapse key s) ∨
      230 * clocksInUs < s.time ∧ Fresh (2 * (n + 1)) (cyfralElapse key s) := by
  obtain ⟨d, p, t⟩ := s
  obtain ⟨⟨k, hk, rfl⟩, rfl⟩ := h
  have hperiod := cyfral_period key (n + 1) (j := 0) (by decide)
  have helapse := cyfralElapse_eq key (d := initial k) (n := n) (t := t) (by decide : 1 < 2)
  have hnext : 2 * n + 1 + 1 = 2 * (n + 1) + 0 := by ring
  rw [hnext, decide_eq_true rfl, processFront_initial_rising hk, hperiod] at helapse
  rw [helapse]
  by_cases hle : t % 2 ^ 32 ≤ 230 * clocksInUs
  · rw [if_pos hle]
    exact .inl ⟨Reading.start _ _ _, rfl, rfl⟩
  · rw [if_neg hle]
    exact .inr ⟨(Nat.lt_of_not_le hle).trans_le (Nat.mod_le t _), ⟨_, .inr rfl, rfl⟩, rfl⟩

inductive CyfralInv (key : Vector (BitVec 8) 2) (s : PulseAir CyfralDecoder) : Prop where
  | fresh {i : ℕ} (h : Fresh i s)
  | high {i j : ℕ} (hj : j < 36) (h : AtHigh key i j s)
  | low {i j : ℕ} (hj : j < 36) (h : AtLow key i j s)
  | hasKey (h : HasKey key s)

theorem HasKey.elapse (h : HasKey key s) : HasKey key (cyfralElapse key s) := by
  have hfront := processFront_ready h.ready h.maxPeriod
  simp only [cyfralElapse, PulseAir.elapse]
  split
  · exact ⟨h.ready, h.maxPeriod, h.keyData, Nat.le_succ_of_le h.position⟩
  · simp only [reader, hfront]
    exact ⟨h.ready, h.maxPeriod, h.keyData, Nat.le_succ_of_le h.position⟩

namespace CyfralInv

theorem ready_iff (h : CyfralInv key s) : s.decoder.ready = true ↔ HasKey key s := by
  constructor
  · intro hready
    rcases h with ⟨⟨_, _, hd⟩, _⟩ | ⟨_, h⟩ | ⟨_, h⟩ | h
    · rw [hd] at hready
      cases hready
    · cases h.reading.ready.symm.trans hready
    · cases h.reading.ready.symm.trans hready
    · exact h
  · exact HasKey.ready

theorem elapse (h : CyfralInv key s) : CyfralInv key (cyfralElapse key s) := by
  rcases h with @⟨i, h⟩ | @⟨i, j, hj, h⟩ | @⟨i, j, hj, h⟩ | h
  · rcases Nat.even_or_odd' i with ⟨n, rfl | rfl⟩
    · exact .fresh (h.elapse_high key).1
    · rcases h.elapse_low key with hhigh | ⟨-, hfresh⟩
      · exact .high (by decide) hhigh
      · exact .fresh hfresh
  · exact .low hj h.elapse
  · rcases Nat.lt_or_ge (j + 1) 36 with hlt | hge
    · exact .high hlt (h.elapse hlt)
    · obtain rfl : j = 35 := by omega
      by_cases hi : i % 36 = 4
      · exact .hasKey (h.hasKey hi)
      · exact .fresh (h.reset hi)
  · exact .hasKey h.elapse

theorem poll (h : CyfralInv key s) : CyfralInv key (s.poll reader) := by
  cases hready : s.decoder.ready with
  | false =>
    have hpoll : s.poll reader = s := by
      simp only [PulseAir.poll, reader, CyfralDecoder.read, hready, Bool.false_eq_true, if_false]
    rwa [hpoll]
  | true =>
    have hkey := h.ready_iff.mp hready
    refine .fresh (i := s.position - 72) ⟨⟨s.decoder.maxPeriod, .inr hkey.maxPeriod, ?_⟩, ?_⟩
    · simp only [PulseAir.poll, reader, CyfralDecoder.read, hready, if_true, resetState]
    · have hpos := hkey.position
      simp only [PulseAir.poll]
      omega

theorem read {v : Vector (BitVec 8) 2} (h : CyfralInv key s)
    (hv : (s.decoder.read).1 = some v) : v = key := by
  cases hready : s.decoder.ready with
  | false =>
    rw [CyfralDecoder.read, if_neg (by rw [hready]; decide)] at hv
    cases hv
  | true =>
    rw [CyfralDecoder.read, if_pos hready, (h.ready_iff.mp hready).keyData,
      keyBytes_keyWord] at hv
    exact (Option.some.inj hv).symm

end CyfralInv

theorem AtHigh.leads_low (h : AtHigh key n 0 s) (hm : m < 36) :
    Leads (cyfralElapse key) s (AtLow key n m) := by
  induction m with
  | zero => exact .step (.now h.elapse)
  | succ m ih =>
    refine (ih (by omega)).trans ?_
    rintro t ht
    exact .step (.step (.now (ht.elapse hm).elapse))

theorem AtHigh.leads_next (h : AtHigh key n 0 s) (hn : n % 36 ≠ 4) :
    Leads (cyfralElapse key) s (AtHigh key (n + 37) 0) := by
  refine (h.leads_low (by decide : 35 < 36)).trans ?_
  rintro t ht
  obtain ⟨hfresh, htime⟩ := (ht.reset hn).elapse_high key
  refine .step (.step (.step (.now ?_)))
  rcases hfresh.elapse_low key with hhigh | ⟨hgt, -⟩
  · exact hhigh
  · exact absurd hgt (Nat.not_lt.mpr htime)

theorem AtHigh.leads_ready (h : AtHigh key n 0 s) (hn : n % 36 = 4) :
    Leads (cyfralElapse key) s fun t =>
      t.position = 72 + 2 * (n + 36) ∧ t.decoder.ready = true := by
  refine (h.leads_low (by decide : 35 < 36)).trans ?_
  rintro t ht
  refine .step (.now ⟨?_, (ht.hasKey hn).ready⟩)
  rw [ht.elapse_eq]

theorem AtHigh.leads_key {k : ℕ} (h : AtHigh key n 0 s) (hk : (n + 37 * k) % 36 = 4) :
    Leads (cyfralElapse key) s fun t =>
      t.position ≤ 72 + 2 * (n + 37 * k + 36) ∧ t.decoder.ready = true := by
  induction k generalizing n s with
  | zero => exact (h.leads_ready hk).mono fun t ht => ⟨by omega, ht.2⟩
  | succ k ih =>
    by_cases hn : n % 36 = 4
    · exact (h.leads_ready hn).mono fun t ht => ⟨by omega, ht.2⟩
    · refine (h.leads_next hn).trans ?_
      rintro t ht
      refine (ih ht (by omega)).mono ?_
      rintro u ⟨hpos, hready⟩
      exact ⟨by omega, hready⟩

theorem Fresh.leads_high (key : Vector (BitVec 8) 2) (h : Fresh p s) : Leads (cyfralElapse key) s fun t =>
    ∃ n, 2 * n ≤ p + 3 ∧ AtHigh key n 0 t := by
  have heven : ∀ {n t}, Fresh (2 * n) t → Leads (cyfralElapse key) t (AtHigh key (n + 1) 0) := by
    intro n t ht
    obtain ⟨hfresh, htime⟩ := ht.elapse_high key
    refine .step (.step (.now ?_))
    rcases hfresh.elapse_low key with hhigh | ⟨hgt, -⟩
    · exact hhigh
    · exact absurd hgt (Nat.not_lt.mpr htime)
  rcases Nat.even_or_odd' p with ⟨n, rfl | rfl⟩
  · exact (heven h).mono fun t ht => ⟨n + 1, by omega, ht⟩
  · rcases h.elapse_low key with hhigh | ⟨-, hfresh⟩
    · exact .step (.now ⟨n + 1, by omega, hhigh⟩)
    · exact .step ((heven hfresh).mono fun t ht => ⟨n + 2, by omega, ht⟩)

end Air

end FlipperZero.IButton
