import FlipperZero.Lib.BitNumber
import FlipperZero.Lib.Machine
import Mathlib.Data.BitVec

/-! # Wiegand reception

Two interrupts shift the bits of a frame into two words, one place in advance. A poll that finds
nothing received for 25 ms takes the frame out of the words by its length.
-/

namespace FlipperZero.Accessor

open Lib

structure Wiegand where
  cardTempHigh : BitVec 32
  cardTemp : BitVec 32
  lastWiegand : BitVec 32
  code : BitVec 32
  codeHigh : BitVec 32
  bitCount : BitVec 32
  wiegandType : BitVec 32
deriving DecidableEq, Repr

def clocksInMs : ℕ := 64 * 1000

/-- What `available`, `getCode`, `getCodeHigh` and `getWiegandType` give. -/
structure Card where
  code : BitVec 32
  codeHigh : BitVec 32
  wiegandType : BitVec 32
deriving DecidableEq, Repr

def getCardId (codehigh codelow bitlength : BitVec 32) : BitVec 32 :=
  if bitlength = 26 then (codelow &&& 0x1FFFFFE) >>> 1
  else if bitlength = 24 then (codelow &&& 0x7FFFFE) >>> 1
  else if bitlength = 34 then (codehigh &&& 0x03) <<< 30 ||| codelow >>> 1
  else if bitlength = 32 then (codelow &&& 0x7FFFFFFE) >>> 1
  else codelow

def translateEnterEscapeKeyPress (originalKeyPress : BitVec 8) : BitVec 8 :=
  if originalKeyPress = 0x0b then 0x0d
  else if originalKeyPress = 0x0a then 0x1b
  else originalKeyPress

namespace Wiegand

variable (w : Wiegand)

def begin : Wiegand :=
  { w with
    lastWiegand := 0, cardTempHigh := 0, cardTemp := 0, code := 0, wiegandType := 0
    bitCount := 0 }

/-- The interrupt of a line, at a value of the cycle counter. -/
def read (bit : Bool) (cyccnt : BitVec 32) : Wiegand :=
  { w with
    bitCount := w.bitCount + 1
    cardTempHigh :=
      if (31#32).slt (w.bitCount + 1) then
        (w.cardTempHigh ||| (0x80000000 &&& w.cardTemp) >>> 31) <<< 1
      else w.cardTempHigh
    cardTemp := (if bit then w.cardTemp ||| 1 else w.cardTemp) <<< 1
    lastWiegand := cyccnt }

def readD0 : BitVec 32 → Wiegand := w.read false

def readD1 : BitVec 32 → Wiegand := w.read true

def clear : Wiegand := { w with bitCount := 0, cardTemp := 0, cardTempHigh := 0 }

/-- The lengths of frames, in the order of their test. -/
def lengths : List ℕ := [24, 26, 32, 34, 37, 40, 8, 4]

/-- `DoWiegandConversion` once nothing was received for 25 ms. -/
def convert (sysTick : BitVec 32) : Bool × Wiegand :=
  if w.bitCount ∈ lengths.map (BitVec.ofNat 32) then
    let cardTemp := w.cardTemp >>> 1
    let cardTempHigh :=
      if (32#32).slt w.bitCount then w.cardTempHigh >>> 1 else w.cardTempHigh
    let done := { w.clear with codeHigh := 0, wiegandType := w.bitCount }
    if w.bitCount = 8 then
      let highNibble : BitVec 8 := ((cardTemp &&& 0xf0) >>> 4).setWidth 8
      let lowNibble : BitVec 8 := (cardTemp &&& 0x0f).setWidth 8
      if lowNibble.setWidth 32 = ~~~highNibble.setWidth 32 &&& 0x0f then
        (true, { done with code := (translateEnterEscapeKeyPress lowNibble).setWidth 32 })
      else (false, { done with lastWiegand := sysTick })
    else if w.bitCount = 4 then
      let key : BitVec 8 := (cardTemp &&& 0x0f).setWidth 8
      (true, { done with code := (translateEnterEscapeKeyPress key).setWidth 32 })
    else if w.bitCount = 40 then
      (true, { done with code := cardTemp, codeHigh := cardTempHigh >>> 1 })
    else (true, { done with code := getCardId cardTempHigh cardTemp w.bitCount })
  else (false, { w.clear with lastWiegand := sysTick })

def doWiegandConversion (sysTick : BitVec 32) : Bool × Wiegand :=
  if BitVec.ofNat 32 (25 * clocksInMs) < sysTick - w.lastWiegand then w.convert sysTick
  else (false, w)

end Wiegand

def card (available : Bool × Wiegand) : Option Card :=
  if available.1 then
    some ⟨available.2.code, available.2.codeHigh, available.2.wiegandType⟩
  else none

@[simp] theorem card_true (w : Wiegand) :
    card (true, w) = some ⟨w.code, w.codeHigh, w.wiegandType⟩ := rfl

@[simp] theorem card_false (w : Wiegand) : card (false, w) = none := rfl

def result (frame : List Bool) : Option Card :=
  card ((frame.foldl (fun w bit => w.read bit 0) (Wiegand.begin ⟨0, 0, 0, 0, 0, 0, 0⟩)).convert 0)

section Words

variable {V : ℕ} {w : Wiegand} {frame : List Bool}

theorem two_mul_or {b : ℕ} (V : ℕ) (hb : b < 2) : 2 * V ||| b = b + 2 * V := by
  have h := Nat.shiftLeft_add_eq_or_of_lt (i := 1) hb V
  rw [Nat.shiftLeft_eq, pow_one] at h
  rw [Nat.mul_comm, ← h, Nat.add_comm]

theorem ofNat_shiftLeft_one (n : ℕ) : BitVec.ofNat 32 n <<< 1 = BitVec.ofNat 32 (2 * n) := by
  apply BitVec.eq_of_toNat_eq
  rw [BitVec.toNat_shiftLeft, BitVec.toNat_ofNat, BitVec.toNat_ofNat, Nat.shiftLeft_eq]
  omega

theorem shift_bit (V : ℕ) (bit : Bool) :
    (if bit then BitVec.ofNat 32 (2 * V) ||| 1 else BitVec.ofNat 32 (2 * V)) <<< 1 =
      BitVec.ofNat 32 (2 * (bit.toNat + 2 * V)) := by
  have hor : (if bit then BitVec.ofNat 32 (2 * V) ||| 1 else BitVec.ofNat 32 (2 * V)) =
      BitVec.ofNat 32 (bit.toNat + 2 * V) := by
    rw [← two_mul_or V (Bool.toNat_lt bit), BitVec.ofNat_or]
    cases bit <;> simp
  rw [hor, ofNat_shiftLeft_one]

theorem shift_high (V : ℕ) (bit : Bool) :
    (BitVec.ofNat 32 (2 * (V / 2 ^ 31)) |||
      (0x80000000 &&& BitVec.ofNat 32 (2 * V)) >>> 31) <<< 1 =
      BitVec.ofNat 32 (2 * ((bit.toNat + 2 * V) / 2 ^ 31)) := by
  have htop : (0x80000000 &&& BitVec.ofNat 32 (2 * V)) >>> 31 =
      BitVec.ofNat 32 (V / 2 ^ 30 % 2) := by
    have hone : (0x80000000 : BitVec 32).toNat / 2 ^ 31 = 1 := rfl
    apply BitVec.eq_of_toNat_eq
    rw [BitVec.toNat_ushiftRight, BitVec.toNat_and, Nat.shiftRight_and_distrib,
      BitVec.toNat_ofNat, BitVec.toNat_ofNat, Nat.shiftRight_eq_div_pow,
      Nat.shiftRight_eq_div_pow, Nat.and_comm, hone, Nat.and_one_is_mod]
    omega
  have hbit := Bool.toNat_lt bit
  have hnext : V / 2 ^ 30 % 2 + 2 * (V / 2 ^ 31) = (bit.toNat + 2 * V) / 2 ^ 31 := by omega
  rw [htop, ← BitVec.ofNat_or, two_mul_or _ (Nat.mod_lt _ Nat.two_pos), hnext,
    ofNat_shiftLeft_one]

theorem slt_ofNat {a n : ℕ} (ha : a < 2 ^ 31) (hn : n < 2 ^ 31) :
    (BitVec.ofNat 32 a).slt (BitVec.ofNat 32 n) = decide (a < n) := by
  have htoInt : ∀ {k : ℕ}, k < 2 ^ 31 → (BitVec.ofNat 32 k).toInt = k := by
    rintro k hk
    have hmod : k % 2 ^ 32 = k := Nat.mod_eq_of_lt (by omega)
    rw [BitVec.toInt_eq_toNat_of_lt (by rw [BitVec.toNat_ofNat]; omega), BitVec.toNat_ofNat, hmod]
  rw [BitVec.slt, htoInt ha, htoInt hn]
  exact decide_eq_decide.mpr Nat.cast_lt

structure Holds (w : Wiegand) (frame : List Bool) : Prop where
  bitCount : w.bitCount = BitVec.ofNat 32 frame.length
  cardTemp : w.cardTemp = BitVec.ofNat 32 (2 * bitNumber frame)
  cardTempHigh : w.cardTempHigh = BitVec.ofNat 32 (2 * (bitNumber frame / 2 ^ 31))

theorem Holds.read (h : Holds w frame) (hlength : frame.length + 1 < 2 ^ 31) (bit : Bool)
    (cyccnt : BitVec 32) : Holds (w.read bit cyccnt) (frame ++ [bit]) := by
  have hcount : w.bitCount + 1 = BitVec.ofNat 32 (frame.length + 1) := by
    rw [h.bitCount, BitVec.ofNat_add]
    rfl
  have hslt : (31#32).slt (w.bitCount + 1) = decide (31 < frame.length + 1) := by
    rw [hcount]
    exact slt_ofNat (by omega) hlength
  constructor
  · rw [List.length_append, List.length_singleton]
    exact hcount
  · rw [bitNumber_concat, ← shift_bit, ← h.cardTemp]
    rfl
  · simp only [Wiegand.read, hslt, bitNumber_concat, decide_eq_true_eq]
    split
    · rw [h.cardTempHigh, h.cardTemp, shift_high]
    · next hshort =>
      have hpow : 2 ^ (frame ++ [bit]).length ≤ 2 ^ 31 :=
        Nat.pow_le_pow_right Nat.two_pos (by simp; omega)
      have hlt := (bitNumber_lt (frame ++ [bit])).trans_le hpow
      rw [bitNumber_concat] at hlt
      rw [h.cardTempHigh, Nat.div_eq_of_lt hlt, Nat.div_eq_of_lt (by omega)]

theorem holds_begin (w : Wiegand) : Holds w.begin [] := ⟨rfl, rfl, rfl⟩

theorem holds_foldl (hw : Holds w []) (hlength : frame.length < 2 ^ 31) :
    Holds (frame.foldl (fun w bit => w.read bit 0) w) frame := by
  induction frame using List.reverseRecOn with
  | nil => exact hw
  | append_singleton frame bit ih =>
    rw [List.length_append, List.length_singleton] at hlength
    rw [List.foldl_append]
    exact (ih (by omega)).read hlength bit 0

theorem card_convert_congr {w' : Wiegand} (hcount : w.bitCount = w'.bitCount)
    (htemp : w.cardTemp = w'.cardTemp) (hhigh : w.cardTempHigh = w'.cardTempHigh)
    (sysTick sysTick' : BitVec 32) : card (w.convert sysTick) = card (w'.convert sysTick') := by
  simp only [Wiegand.convert, hcount, htemp, hhigh, Wiegand.clear, apply_ite card, card_true,
    card_false]

theorem Holds.card_convert (h : Holds w frame) (hlength : frame.length < 2 ^ 31)
    (sysTick : BitVec 32) : card (w.convert sysTick) = result frame := by
  have hresult := holds_foldl (holds_begin ⟨0, 0, 0, 0, 0, 0, 0⟩) hlength
  apply card_convert_congr
  · rw [h.bitCount, hresult.bitCount]
  · rw [h.cardTemp, hresult.cardTemp]
  · rw [h.cardTempHigh, hresult.cardTempHigh]

section Lengths

theorem ofNat_ushiftRight_one (n : ℕ) :
    BitVec.ofNat 32 (2 * n) >>> 1 = BitVec.ofNat 32 (n % 2 ^ 31) := by
  apply BitVec.eq_of_toNat_eq
  rw [BitVec.toNat_ushiftRight, BitVec.toNat_ofNat, BitVec.toNat_ofNat, Nat.shiftRight_eq_div_pow]
  omega

theorem inner_mask {k mask : ℕ} (hk : k < 32) (hmask : mask / 2 = 2 ^ k - 1) (n : ℕ)
    (hlt : mask < 2 ^ 32) :
    (BitVec.ofNat 32 n &&& BitVec.ofNat 32 mask) >>> 1 = BitVec.ofNat 32 (n / 2 % 2 ^ k) := by
  have hdvd : 2 ^ k ∣ 2 ^ 31 := Nat.pow_dvd_pow 2 (by omega)
  have hhalf : n % 2 ^ 32 / 2 = n / 2 % 2 ^ 31 := by omega
  have hpow : 2 ^ k < 2 ^ 32 := Nat.pow_lt_pow_right (by omega) hk
  have hlast : n / 2 % 2 ^ k < 2 ^ 32 := (Nat.mod_lt _ (Nat.two_pow_pos k)).trans hpow
  apply BitVec.eq_of_toNat_eq
  rw [BitVec.toNat_ushiftRight, BitVec.toNat_and, BitVec.toNat_ofNat, BitVec.toNat_ofNat,
    BitVec.toNat_ofNat, Nat.shiftRight_and_distrib, Nat.shiftRight_eq_div_pow,
    Nat.shiftRight_eq_div_pow, Nat.mod_eq_of_lt hlt, pow_one, hmask, Nat.and_two_pow_sub_one_eq_mod,
    hhalf, Nat.mod_mod_of_dvd _ hdvd, Nat.mod_eq_of_lt hlast]

theorem join_words (n : ℕ) :
    (BitVec.ofNat 32 (2 * (n / 2 ^ 31)) >>> 1 &&& 0x03) <<< 30 |||
      BitVec.ofNat 32 (2 * n) >>> 1 >>> 1 = BitVec.ofNat 32 (n % 2 ^ 33 / 2) := by
  have hthree : (0x03 : BitVec 32).toNat = 2 ^ 2 - 1 := rfl
  have hlow : n % 2 ^ 31 % 2 ^ 32 / 2 ^ 1 < 2 ^ 30 := by omega
  have hhigh : (n / 2 ^ 31 % 2 ^ 31 % 2 ^ 32 % 2 ^ 2) * 2 ^ 30 % 2 ^ 32 =
      (n / 2 ^ 31 % 4) * 2 ^ 30 := by omega
  rw [ofNat_ushiftRight_one, ofNat_ushiftRight_one]
  apply BitVec.eq_of_toNat_eq
  rw [BitVec.toNat_or, BitVec.toNat_shiftLeft, BitVec.toNat_and, BitVec.toNat_ushiftRight,
    BitVec.toNat_ofNat, BitVec.toNat_ofNat, BitVec.toNat_ofNat, hthree,
    Nat.and_two_pow_sub_one_eq_mod, Nat.shiftRight_eq_div_pow, Nat.shiftLeft_eq, hhigh,
    ← Nat.shiftLeft_eq, ← Nat.shiftLeft_add_eq_or_of_lt hlow, Nat.shiftLeft_eq]
  omega

theorem exists_holds (hlength : frame.length < 2 ^ 31) :
    ∃ w, Holds w frame ∧ result frame = card (w.convert 0) :=
  ⟨_, holds_foldl (holds_begin ⟨0, 0, 0, 0, 0, 0, 0⟩) hlength, rfl⟩

theorem result_eq {n : ℕ} (hn : frame.length = n) (hlength : n < 2 ^ 31) :
    result frame = card (Wiegand.convert
      ⟨BitVec.ofNat 32 (2 * (bitNumber frame / 2 ^ 31)), BitVec.ofNat 32 (2 * bitNumber frame),
        0, 0, 0, BitVec.ofNat 32 n, 0⟩ 0) := by
  obtain ⟨w, hw, hresult⟩ := @exists_holds frame (by omega)
  rw [hresult]
  exact card_convert_congr (hw.bitCount.trans (congrArg _ hn)) hw.cardTemp hw.cardTempHigh 0 0

theorem result_26 (h : frame.length = 26) :
    result frame = some ⟨BitVec.ofNat 32 (bitNumber frame.tail.dropLast), 0, 26⟩ := by
  have hmask := @inner_mask 24 0x1FFFFFE (by omega) rfl (bitNumber frame % 2 ^ 31) (by omega)
  have hinner : bitNumber frame.tail.dropLast = bitNumber frame % 2 ^ 31 / 2 % 2 ^ 24 := by
    rw [bitNumber_inner, h]
    omega
  rw [result_eq h (by omega), hinner, ← hmask, ← ofNat_ushiftRight_one]
  rfl

theorem result_34 (h : frame.length = 34) :
    result frame = some ⟨BitVec.ofNat 32 (bitNumber frame.tail.dropLast), 0, 34⟩ := by
  have hinner : bitNumber frame.tail.dropLast = bitNumber frame % 2 ^ 33 / 2 := by
    rw [bitNumber_inner, h]
  rw [result_eq h (by omega), hinner, ← join_words]
  rfl

theorem result_37 (h : frame.length = 37) :
    result frame = some ⟨BitVec.ofNat 32 (bitNumber frame % 2 ^ 31), 0, 37⟩ := by
  rw [result_eq h (by omega), ← ofNat_ushiftRight_one]
  rfl

theorem result_40 (h : frame.length = 40) :
    result frame = some ⟨BitVec.ofNat 32 (bitNumber frame % 2 ^ 31),
      BitVec.ofNat 32 (bitNumber frame / 2 ^ 32), 40⟩ := by
  have hlt := bitNumber_lt frame
  rw [h] at hlt
  have hhigh : BitVec.ofNat 32 (2 * (bitNumber frame / 2 ^ 31)) >>> 1 >>> 1 =
      BitVec.ofNat 32 (bitNumber frame / 2 ^ 32) := by
    rw [ofNat_ushiftRight_one]
    apply BitVec.eq_of_toNat_eq
    rw [BitVec.toNat_ushiftRight, BitVec.toNat_ofNat, BitVec.toNat_ofNat,
      Nat.shiftRight_eq_div_pow]
    omega
  rw [result_eq h (by omega), ← ofNat_ushiftRight_one, ← hhigh]
  rfl

theorem nibbles_iff {n : ℕ} (hn : n < 256) :
    ((BitVec.ofNat 32 n &&& 0x0f).setWidth 8).setWidth 32 =
        ~~~(((BitVec.ofNat 32 n &&& 0xf0) >>> 4).setWidth 8).setWidth 32 &&& (0x0f : BitVec 32) ↔
      n % 16 + n / 16 = 15 := by
  revert n
  decide +kernel

theorem isSome_result_8 (h : frame.length = 8) :
    (result frame).isSome ↔ frame.drop 4 = (frame.take 4).map not := by
  have hlt := bitNumber_lt frame
  rw [h] at hlt
  have hhigh : bitNumber (frame.take 4) = bitNumber frame / 2 ^ 4 := by
    rw [← bitNumber_take, h]
  have hlow : bitNumber (frame.drop 4) = bitNumber frame % 2 ^ 4 := by
    rw [← bitNumber_drop, h]
  have hnot := bitNumber_map_not (frame.take 4)
  have hlength : (frame.drop 4).length = ((frame.take 4).map not).length := by simp [h]
  have htake : (frame.take 4).length = 4 := by simp [h]
  rw [htake] at hnot
  have hresult : result frame = card (if
      ((BitVec.ofNat 32 (2 * bitNumber frame) >>> 1 &&& 0x0f).setWidth 8).setWidth 32 =
        ~~~(((BitVec.ofNat 32 (2 * bitNumber frame) >>> 1 &&& 0xf0) >>> 4).setWidth 8).setWidth 32
          &&& (0x0f : BitVec 32) then (true, _) else (false, _)) := result_eq h (by omega)
  rw [← bitNumber_inj hlength, hresult, apply_ite card, card_true, card_false,
    ofNat_ushiftRight_one, Nat.mod_eq_of_lt (by omega : bitNumber frame < 2 ^ 31), hlow]
  simp only [nibbles_iff hlt]
  split
  · next heq => exact iff_of_true rfl (by omega)
  · next hne => exact iff_of_false (by simp) (by omega)

theorem result_eq_none {n : ℕ} (hn : frame.length = n) (hlength : n < 2 ^ 31)
    (hnot : n ∉ Wiegand.lengths) : result frame = none := by
  have hmem : BitVec.ofNat 32 n ∉ Wiegand.lengths.map (BitVec.ofNat 32) := by
    intro hmem
    obtain ⟨k, hk, heq⟩ := List.mem_map.mp hmem
    have hle : ∀ k ∈ Wiegand.lengths, k < 2 ^ 31 := by decide
    have hkn := congrArg BitVec.toNat heq
    rw [BitVec.toNat_ofNat, BitVec.toNat_ofNat, Nat.mod_eq_of_lt (by have := hle k hk; omega),
      Nat.mod_eq_of_lt (by omega)] at hkn
    exact hnot (hkn ▸ hk)
  rw [result_eq hn hlength, Wiegand.convert, if_neg hmem]
  rfl

end Lengths

structure Correct (frame : List Bool) (card : Option Card) : Prop where
  spelled : frame.length = 26 ∨ frame.length = 34 →
    ∃ c, card = some c ∧ c.code.toNat = bitNumber frame.tail.dropLast
  /-- No frame with another bit between the first and the last gives the same. -/
  determined : frame.length = 37 ∨ frame.length = 40 →
    ∃ c, card = some c ∧ ∀ frame' c', frame'.length = frame.length → result frame' = some c' →
      c'.code = c.code → c'.codeHigh = c.codeHigh → frame'.tail.dropLast = frame.tail.dropLast
  keypad : frame.length = 8 → (card.isSome ↔ frame.drop 4 = (frame.take 4).map not)
  rejected : frame.length ∉ Wiegand.lengths → card = none

def flipped (frame : List Bool) (i : ℕ) : List Bool := frame.set i !(frame.getD i false)

theorem inner_flipped_ne {i : ℕ} (hi : i + 2 < frame.length) :
    (flipped frame (i + 1)).tail.dropLast ≠ frame.tail.dropLast := by
  intro h
  have hget := congrArg (fun l => l[i]?) h
  have hlt : i + 1 < frame.length := by omega
  have hbit : frame.getD (i + 1) false = frame[i + 1] := by simp [hlt]
  simp only [flipped, List.getElem?_dropLast, List.getElem?_tail, List.length_tail,
    List.length_set, List.getElem?_set_self hlt, List.getElem?_eq_getElem hlt,
    hbit, if_pos (show i < frame.length - 1 - 1 by omega), Option.some.injEq] at hget
  exact Bool.not_ne_self _ hget

theorem not_correct {i : ℕ} (hi : i + 2 < frame.length)
    (hlength : frame.length = 37 ∨ frame.length = 40)
    (hsame : result (flipped frame (i + 1)) = result frame) : ¬Correct frame (result frame) := by
  intro h
  obtain ⟨c, hc, hdetermined⟩ := h.determined hlength
  exact inner_flipped_ne hi (hdetermined _ c List.length_set (hsame.trans hc) rfl rfl)

theorem correct_iff (hlength : frame.length < 2 ^ 31) :
    Correct frame (result frame) ↔ frame.length ≠ 37 ∧ frame.length ≠ 40 := by
  constructor
  · intro h
    constructor
    · intro h37
      have hset : (flipped frame 1).length = 37 := List.length_set.trans h37
      have hlow : bitNumber (flipped frame 1) % 2 ^ 31 = bitNumber frame % 2 ^ 31 := by
        rw [← bitNumber_drop, ← bitNumber_drop, hset, h37, flipped, List.drop_set_of_lt (by omega)]
      refine not_correct (i := 0) (by omega) (.inl h37) ?_ h
      rw [result_37 hset, result_37 h37, hlow]
    · intro h40
      have hset : (flipped frame 8).length = 40 := List.length_set.trans h40
      have hlow : bitNumber (flipped frame 8) % 2 ^ 31 = bitNumber frame % 2 ^ 31 := by
        rw [← bitNumber_drop, ← bitNumber_drop, hset, h40, flipped, List.drop_set_of_lt (by omega)]
      have hhigh : bitNumber (flipped frame 8) / 2 ^ 32 = bitNumber frame / 2 ^ 32 := by
        rw [← bitNumber_take, ← bitNumber_take, hset, h40, flipped, List.take_set_of_le (by omega)]
      refine not_correct (i := 7) (by omega) (.inr h40) ?_ h
      rw [result_40 hset, result_40 h40, hlow, hhigh]
  · rintro ⟨h37, h40⟩
    have hinner : frame.length ≤ 34 → bitNumber frame.tail.dropLast % 2 ^ 32 =
        bitNumber frame.tail.dropLast := by
      intro hle
      have hpow : 2 ^ frame.tail.dropLast.length ≤ 2 ^ 32 :=
        Nat.pow_le_pow_right Nat.two_pos (by simp; omega)
      exact Nat.mod_eq_of_lt ((bitNumber_lt _).trans_le hpow)
    constructor
    · rintro (h | h)
      · exact ⟨_, result_26 h, (BitVec.toNat_ofNat _ _).trans (hinner (by omega))⟩
      · exact ⟨_, result_34 h, (BitVec.toNat_ofNat _ _).trans (hinner (by omega))⟩
    · rintro (h | h)
      · exact absurd h h37
      · exact absurd h h40
    · exact isSome_result_8
    · exact result_eq_none rfl hlength

theorem holds_convert (w : Wiegand) (sysTick : BitVec 32) : Holds (w.convert sysTick).2 [] := by
  simp only [Wiegand.convert]
  split_ifs <;> exact ⟨rfl, rfl, rfl⟩

theorem card_convert_nil (h : Holds w []) (sysTick : BitVec 32) :
    card (w.convert sysTick) = none := by
  rw [h.card_convert (by simp) sysTick]
  rfl

end Words

/-- A frame that was polled, and what the polls gave. -/
structure Reading where
  frame : List Bool
  card : Option Card
deriving DecidableEq, Repr

def silence : ℕ := 25 * clocksInMs

structure Receiver where
  wiegand : Wiegand
  time : ℕ
  lastBit : ℕ
  /-- The bits since the last frame that was polled after the silence. -/
  frame : List Bool
  /-- What the polls since the last bit gave. -/
  card : Option Card
  /-- There was a poll after the silence. -/
  polled : Bool
  /-- There was a poll at which the cycle counter showed the silence. -/
  counted : Bool
  readings : List Reading
deriving DecidableEq, Repr

inductive Label where
  | read (bit : Bool) (elapsed : ℕ)
  | available (elapsed : ℕ)
deriving DecidableEq, Repr

namespace Receiver

variable (s : Receiver)

def cyccnt (time : ℕ) : BitVec 32 := BitVec.ofNat 32 time

def read (bit : Bool) (time : ℕ) : Receiver :=
  let wiegand := if bit then s.wiegand.readD1 (cyccnt time) else s.wiegand.readD0 (cyccnt time)
  if s.polled then
    { wiegand := wiegand, time := time, lastBit := time, frame := [bit], card := none
      polled := false, counted := false, readings := s.readings ++ [⟨s.frame, s.card⟩] }
  else { s with wiegand := wiegand, time := time, lastBit := time, frame := s.frame ++ [bit] }

def available (time : ℕ) : Receiver :=
  let poll := s.wiegand.doWiegandConversion (cyccnt time)
  { s with
    wiegand := poll.2
    time := time
    card := if (Accessor.card poll).isSome then Accessor.card poll else s.card
    polled := s.polled || (s.frame ≠ [] && silence < time - s.lastBit)
    counted := s.counted || (s.frame ≠ [] && silence < (time - s.lastBit) % 2 ^ 32) }

def machine (before : Wiegand) (start : ℕ) : Machine Receiver Label where
  init := ⟨before.begin, start, start, [], none, false, false, []⟩
  next s
    | .read bit elapsed => some (s.read bit (s.time + elapsed))
    | .available elapsed => some (s.available (s.time + elapsed))

/-- One of the polls after a frame is not just after the cycle counter has come round, and the bits
of a frame can be counted. -/
def Keeps : Label → Prop
  | .read _ _ => (s.polled → s.counted) ∧ (s.polled = false → s.frame.length + 1 < 2 ^ 31)
  | .available _ => True

instance : ∀ l, Decidable (s.Keeps l)
  | .read _ _ => inferInstanceAs (Decidable ((_ → _) ∧ (_ → _)))
  | .available _ => inferInstanceAs (Decidable True)

structure Sound : Prop where
  holds : Holds s.wiegand (if s.counted then [] else s.frame)
  length : s.frame.length < 2 ^ 31
  last : s.counted = false → s.frame ≠ [] → s.wiegand.lastWiegand = cyccnt s.lastBit
  time : s.lastBit ≤ s.time
  card : s.card = if s.counted then result s.frame else none
  polled : s.counted → s.polled
  readings : ∀ r ∈ s.readings, r.frame.length < 2 ^ 31 ∧ r.card = result r.frame

variable {s} {s' : Receiver} {l : Label} {before : Wiegand} {start time : ℕ}

theorem Sound.read (h : s.Sound) (bit : Bool)
    (hpolled : s.polled → s.counted) (hlength : s.polled = false → s.frame.length + 1 < 2 ^ 31) :
    (s.read bit time).Sound := by
  have hread : (if bit then s.wiegand.readD1 (cyccnt time) else s.wiegand.readD0 (cyccnt time)) =
      s.wiegand.read bit (cyccnt time) := by cases bit <;> rfl
  simp only [Receiver.read, hread]
  split
  · next hp =>
    have hcounted := hpolled hp
    have hholds := h.holds
    rw [if_pos hcounted] at hholds
    constructor
    · exact hholds.read (by simp) bit _
    · simp
    · rintro - -
      rfl
    · exact Nat.le_refl _
    · rfl
    · rintro ⟨⟩
    · rintro r hr
      rcases List.mem_append.mp hr with hr | hr
      · exact h.readings r hr
      · obtain rfl := List.mem_singleton.mp hr
        exact ⟨h.length, h.card.trans (if_pos hcounted)⟩
  · next hp =>
    have hp : s.polled = false := Bool.eq_false_iff.mpr hp
    have hcounted : s.counted = false := by
      by_contra hc
      exact Bool.eq_false_iff.mp hp (h.polled (Bool.not_eq_false _ ▸ hc))
    have hholds := h.holds
    have hcard := h.card
    rw [hcounted] at hholds hcard
    constructor
    · simp only [hcounted]
      exact hholds.read (hlength hp) bit _
    · simpa using hlength hp
    · rintro - -
      rfl
    · exact Nat.le_refl _
    · simp only [hcounted, hcard]
      rfl
    · exact h.polled
    · exact h.readings

theorem poll_nil {w : Wiegand} (h : Holds w []) (sysTick : BitVec 32) :
    Accessor.card (w.doWiegandConversion sysTick) = none ∧
      Holds (w.doWiegandConversion sysTick).2 [] := by
  unfold Wiegand.doWiegandConversion
  split
  · exact ⟨card_convert_nil h sysTick, holds_convert w sysTick⟩
  · exact ⟨rfl, h⟩

theorem doWiegandConversion_eq {w : Wiegand} {lastBit : ℕ} (hlast : w.lastWiegand = cyccnt lastBit)
    (hle : lastBit ≤ time) : w.doWiegandConversion (cyccnt time) =
      if silence < (time - lastBit) % 2 ^ 32 then w.convert (cyccnt time) else (false, w) := by
  have hsub : (cyccnt time - cyccnt lastBit).toNat = (time - lastBit) % 2 ^ 32 := by
    rw [cyccnt, cyccnt, BitVec.toNat_sub, BitVec.toNat_ofNat, BitVec.toNat_ofNat]
    omega
  have hiff : BitVec.ofNat 32 (25 * clocksInMs) < cyccnt time - cyccnt lastBit ↔
      silence < (time - lastBit) % 2 ^ 32 := by
    rw [BitVec.lt_def, hsub]
    rfl
  rw [Wiegand.doWiegandConversion, hlast]
  exact if_congr hiff rfl rfl

theorem Sound.available_of_none {poll : Bool × Wiegand} (h : s.Sound) (htime : s.time ≤ time)
    (hpoll : s.wiegand.doWiegandConversion (cyccnt time) = poll)
    (hnone : Accessor.card poll = none)
    (hholds : Holds poll.2 (if s.counted then [] else s.frame))
    (hlast : s.counted = false → s.frame ≠ [] → poll.2 = s.wiegand)
    (hcounted : (s.available time).counted = s.counted) : (s.available time).Sound := by
  have hcard : (s.available time).card = s.card := by
    simp only [Receiver.available, hpoll, hnone]
    rfl
  constructor
  · rw [hcounted]
    simpa only [Receiver.available, hpoll] using hholds
  · exact h.length
  · rw [hcounted]
    rintro hc hframe
    simp only [Receiver.available, hpoll]
    rw [hlast hc hframe]
    exact h.last hc hframe
  · exact h.time.trans htime
  · rw [hcard, hcounted]
    exact h.card
  · rw [hcounted]
    rintro hc
    simp only [Receiver.available, h.polled hc, Bool.true_or]
  · exact h.readings

theorem Sound.available (h : s.Sound) (htime : s.time ≤ time) : (s.available time).Sound := by
  have hholds := h.holds
  by_cases hc : s.counted = true
  · rw [if_pos hc] at hholds
    obtain ⟨hnone, hnil⟩ := poll_nil hholds (cyccnt time)
    refine h.available_of_none htime rfl hnone ?_ ?_ ?_
    · rw [if_pos hc]
      exact hnil
    · rintro hfalse
      cases hc ▸ hfalse
    · simp only [Receiver.available, hc, Bool.true_or]
  by_cases hframe : s.frame = []
  · rw [if_neg hc, hframe] at hholds
    obtain ⟨hnone, hnil⟩ := poll_nil hholds (cyccnt time)
    refine h.available_of_none htime rfl hnone ?_ ?_ ?_
    · rw [if_neg hc, hframe]
      exact hnil
    · exact fun _ hne => absurd hframe hne
    · simp [Receiver.available, hframe]
  rw [if_neg hc] at hholds
  have hc : s.counted = false := Bool.eq_false_iff.mpr hc
  have hpoll := doWiegandConversion_eq (h.last hc hframe) (h.time.trans htime)
  split at hpoll
  · next hsilence =>
    have hresult := hholds.card_convert h.length (cyccnt time)
    have hcounted : (s.available time).counted = true := by
      simp only [Receiver.available, decide_eq_true hsilence, decide_eq_true hframe,
        Bool.and_self, Bool.or_true]
    have hreal : silence < time - s.lastBit := hsilence.trans_le (Nat.mod_le _ _)
    have hnone : s.card = none := h.card.trans (if_neg (Bool.eq_false_iff.mp hc))
    constructor
    · rw [if_pos hcounted]
      simp only [Receiver.available, hpoll]
      exact holds_convert s.wiegand (cyccnt time)
    · exact h.length
    · rintro hfalse
      cases hcounted ▸ hfalse
    · exact h.time.trans htime
    · rw [if_pos hcounted]
      simp only [Receiver.available, hpoll, hresult, hnone]
      cases result s.frame <;> rfl
    · rintro -
      simp only [Receiver.available, decide_eq_true hreal, decide_eq_true hframe, Bool.and_self,
        Bool.or_true]
    · exact h.readings
  · next hsilence =>
    refine h.available_of_none htime hpoll rfl ?_ (fun _ _ => rfl) ?_
    · exact h.holds
    · simp only [Receiver.available, decide_eq_false hsilence, Bool.and_false, Bool.or_false]

theorem sound_init : (machine before start).init.Sound := by
  constructor
  · exact holds_begin before
  · exact Nat.two_pow_pos 31
  · exact fun _ hne => absurd rfl hne
  · exact Nat.le_refl _
  · rfl
  · rintro ⟨⟩
  · rintro r ⟨⟩

theorem Sound.next (h : s.Sound) (hkeeps : s.Keeps l)
    (hs : (machine before start).next s l = some s') : s'.Sound := by
  cases l with
  | read bit elapsed =>
    obtain rfl := Option.some.inj hs
    exact h.read bit hkeeps.1 hkeeps.2
  | available elapsed =>
    obtain rfl := Option.some.inj hs
    exact h.available (Nat.le_add_right _ _)

end Receiver

/-- In every run whose polls are counted, each frame gives what it gives on its own, and this is
what is expected of it if and only if it has neither 37 nor 40 bits. -/
theorem wiegand_reception {before : Wiegand} {start : ℕ} {s : Receiver}
    (hreach : (Receiver.machine before start).ReachableWith Receiver.Keeps s) :
    (∀ r ∈ s.readings, r.card = result r.frame ∧
      (Correct r.frame r.card ↔ r.frame.length ≠ 37 ∧ r.frame.length ≠ 40)) ∧
      (s.counted = true → s.card = result s.frame) ∧ (s.counted = false → s.card = none) := by
  have hsound : s.Sound := hreach.invariant (P := Receiver.Sound) Receiver.sound_init
    fun _ _ _ h hkeeps hs => h.next hkeeps hs
  have hcard := hsound.card
  refine ⟨?_, ?_, ?_⟩
  · rintro r hr
    obtain ⟨hlength, hresult⟩ := hsound.readings r hr
    exact ⟨hresult, hresult ▸ correct_iff hlength⟩
  · rintro hcounted
    exact hcard.trans (if_pos hcounted)
  · rintro hcounted
    exact hcard.trans (if_neg (Bool.eq_false_iff.mp hcounted))

/-- A frame whose bits come 1 ms apart, and a poll 26 ms later. -/
def frameRun (frame : List Bool) : List Label :=
  frame.map (Label.read · clocksInMs) ++ [Label.available (26 * clocksInMs)]

/-- The star key of a keypad, after a frame of one bit. -/
theorem wiegand_reception_star : ∃ s : Receiver,
    s.readings = [⟨[true], none⟩, ⟨[true, false, true, true], some ⟨0x0d, 0, 4⟩⟩] ∧
      ∀ r ∈ s.readings, r.card = result r.frame ∧
        (Correct r.frame r.card ↔ r.frame.length ≠ 37 ∧ r.frame.length ≠ 40) := by
  have hrun : ∃ s : Receiver, (Receiver.machine ⟨0, 0, 0, 0, 0, 0, 0⟩ 0).execWith Receiver.Keeps
      (Receiver.machine ⟨0, 0, 0, 0, 0, 0, 0⟩ 0).init
        (frameRun [true] ++ frameRun [true, false, true, true] ++ [Label.read false clocksInMs]) =
          some s ∧
      s.readings = [⟨[true], none⟩, ⟨[true, false, true, true], some ⟨0x0d, 0, 4⟩⟩] :=
    ⟨_, rfl, rfl⟩
  obtain ⟨s, hs, hreadings⟩ := hrun
  have hreach := Machine.execWith_reachableWith .init hs
  exact ⟨s, hreadings, (wiegand_reception hreach).1⟩

/-- A frame of 37 bits. -/
theorem wiegand_reception_37 : ¬∀ s : Receiver,
    (Receiver.machine ⟨0, 0, 0, 0, 0, 0, 0⟩ 0).Reachable s →
      ∀ r ∈ s.readings, Correct r.frame r.card := by
  intro h
  have hrun : ∃ s : Receiver, (Receiver.machine ⟨0, 0, 0, 0, 0, 0, 0⟩ 0).exec
      (Receiver.machine ⟨0, 0, 0, 0, 0, 0, 0⟩ 0).init
        (frameRun (List.replicate 37 false) ++ [Label.read false clocksInMs]) = some s ∧
      s.readings = [⟨List.replicate 37 false, result (List.replicate 37 false)⟩] := ⟨_, rfl, rfl⟩
  obtain ⟨s, hs, hreadings⟩ := hrun
  have hcorrect := h s (Machine.exec_reachable .init hs) _ (hreadings ▸ List.mem_singleton_self _)
  exact absurd rfl ((correct_iff (by simp)).mp hcorrect).1

end FlipperZero.Accessor
