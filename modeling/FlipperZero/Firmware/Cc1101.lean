import Mathlib.Algebra.GroupWithZero.Nat
import Mathlib.Data.UInt

/-! # Tuning the radio

The driver scales a frequency in Hz by `0xFFFF` over the quartz, where the chip scales the written
register by the quartz over `2 ^ 16`. The offset is multiplied in 32 bits before it is divided.
-/

namespace FlipperZero.Firmware

/-- The registers that are written when the radio is tuned. -/
structure Cc1101 where
  freq2 : UInt8
  freq1 : UInt8
  freq0 : UInt8
  fsctrl0 : UInt8
deriving DecidableEq, Repr

namespace Cc1101

variable (device : Cc1101) (value : UInt32)

def getFrequencyStep : UInt32 := 26000000 / 0xFFFF

/-- `cc1101_set_frequency`, with the frequency that it returns; `none` where its check fails. -/
def setFrequency : Option (UInt32 × Cc1101) :=
  let realValue := value.toUInt64 * 0xFFFF / 26000000
  if realValue &&& 0xFFFFFF = realValue then
    let device := { device with freq2 := (realValue >>> 16 &&& 0xFF).toUInt8 }
    let device := { device with freq1 := (realValue >>> 8 &&& 0xFF).toUInt8 }
    let device := { device with freq0 := (realValue >>> 0 &&& 0xFF).toUInt8 }
    let realFrequency := realValue * 26000000 / 0xFFFF
    some (realFrequency.toUInt32, device)
  else none

/-- `cc1101_set_frequency_offset`; the product has 32 bits. -/
def setFrequencyOffset : Option (UInt32 × Cc1101) :=
  let realValue := (value * 0x4000 / 26000000).toUInt64
  if realValue &&& 0xFF = realValue then
    let device := { device with fsctrl0 := (realValue >>> 0 &&& 0xFF).toUInt8 }
    let realFrequency := realValue * 26000000 / 0x4000
    some (realFrequency.toUInt32, device)
  else none

def freq : ℕ := device.freq2.toNat * 2 ^ 16 + device.freq1.toNat * 2 ^ 8 + device.freq0.toNat

/-- The carrier of the chip, in parts of `2 ^ -16` Hz. -/
def carrier : ℕ := device.freq * 26000000

end Cc1101

/-- The request whose quotient `api_hal_subghz_set_frequency` takes. -/
def compensateRounding (value : UInt32) : UInt32 :=
  if value % Cc1101.getFrequencyStep > Cc1101.getFrequencyStep / 2 then
    value + Cc1101.getFrequencyStep
  else value

def apiHalSubghzSetFrequency (device : Cc1101) (value : UInt32) : Option (UInt32 × Cc1101) :=
  device.setFrequency (compensateRounding value)

def Within (bound a b : ℕ) : Prop := a ≤ b + bound ∧ b ≤ a + bound

/-- The returned frequency is the carrier up to one Hz, and the carrier is at most half a step and
one Hz away from the request, where the check of the request succeeds. -/
def FrequencyTuned (device : Cc1101) (value : UInt32) : Prop :=
  ∀ result, apiHalSubghzSetFrequency device value = some result →
    Within (2 ^ 16) (2 ^ 16 * result.1.toNat) result.2.carrier ∧
      Within (26000000 / 2 + 2 ^ 16) (2 ^ 16 * value.toNat) result.2.carrier

/-- The register is the exact quotient, and the returned offset less than a step away from the
request, where the check of the request succeeds. -/
def OffsetTuned (device : Cc1101) (value : UInt32) : Prop :=
  ∀ result, device.setFrequencyOffset value = some result →
    result.2.fsctrl0.toNat = value.toNat * 0x4000 / 26000000 ∧
      0x4000 * result.1.toNat < 0x4000 * value.toNat + 26000000 ∧
      0x4000 * value.toNat < 0x4000 * result.1.toNat + 26000000

def restOf (value : UInt32) : ℕ := value.toNat * 0xFFFF % 26000000

/-- The compensated request is small against what is left of it, and this makes up for its distance
from the request. -/
def FrequencyKept (value : UInt32) : Prop :=
  let w := compensateRounding value
  w.toNat + restOf w ≤ 2 ^ 16 * ((restOf w + 0xFFFE) / 0xFFFF + 1) ∧
    Within (26000000 / 2 + 2 ^ 16) (2 ^ 16 * value.toNat + restOf w) (0xFFFF * w.toNat)

/-- The product fits into 32 bits, and what it leaves is not the last part of a step. -/
def OffsetKept (value : UInt32) : Prop :=
  value.toNat < 2 ^ 18 ∧ value.toNat * 0x4000 % 26000000 ≤ 25985024

variable {device : Cc1101} {value : UInt32}

theorem toNat_byte (x : UInt64) : (x &&& 0xFF).toUInt8.toNat = x.toNat % 2 ^ 8 := by
  have hmask : (x &&& 0xFF).toNat = x.toNat % 2 ^ 8 := by
    rw [UInt64.toNat_and]
    exact Nat.and_two_pow_sub_one_eq_mod x.toNat 8
  rw [UInt64.toNat_toUInt8, hmask, Nat.mod_mod]

theorem toNat_shiftRight_zero (x : UInt64) : (x >>> 0).toNat = x.toNat := by
  rw [UInt64.toNat_shiftRight]
  exact Nat.shiftRight_zero

theorem toNat_bytes {x : UInt64} (h : x.toNat < 2 ^ 24) :
    (x >>> 16 &&& 0xFF).toUInt8.toNat * 2 ^ 16 + (x >>> 8 &&& 0xFF).toUInt8.toNat * 2 ^ 8 +
      (x >>> 0 &&& 0xFF).toUInt8.toNat = x.toNat := by
  have hhigh : (x >>> 16).toNat = x.toNat / 2 ^ 16 := by
    rw [UInt64.toNat_shiftRight]
    exact Nat.shiftRight_eq_div_pow _ 16
  have hmiddle : (x >>> 8).toNat = x.toNat / 2 ^ 8 := by
    rw [UInt64.toNat_shiftRight]
    exact Nat.shiftRight_eq_div_pow _ 8
  rw [toNat_byte, toNat_byte, toNat_byte, hhigh, hmiddle, toNat_shiftRight_zero]
  omega

theorem Cc1101.setFrequency_eq (device : Cc1101) (value : UInt32) :
    ∃ r d, device.setFrequency value = some (r, d) ∧
      r.toNat = value.toNat * 0xFFFF / 26000000 * 26000000 / 0xFFFF ∧
      d.freq = value.toNat * 0xFFFF / 26000000 := by
  have hlt := value.toNat_lt
  have hreal : (value.toUInt64 * 0xFFFF / 26000000).toNat = value.toNat * 0xFFFF / 26000000 := by
    have hfits : value.toNat * 0xFFFF % 2 ^ 64 = value.toNat * 0xFFFF := by omega
    rw [UInt64.toNat_div, UInt64.toNat_mul, UInt32.toNat_toUInt64]
    exact congrArg (· / 26000000) hfits
  have hsmall : (value.toUInt64 * 0xFFFF / 26000000).toNat < 2 ^ 24 := by omega
  refine ⟨_, _, if_pos ?_, ?_, ?_⟩
  · apply UInt64.toNat_inj.mp
    rw [UInt64.toNat_and]
    exact (Nat.and_two_pow_sub_one_eq_mod _ 24).trans (Nat.mod_eq_of_lt hsmall)
  · have hfits : value.toNat * 0xFFFF / 26000000 * 26000000 % 2 ^ 64 =
      value.toNat * 0xFFFF / 26000000 * 26000000 := by omega
    rw [UInt64.toNat_toUInt32, UInt64.toNat_div, UInt64.toNat_mul, hreal]
    simp only [UInt64.reduceToNat, hfits]
    omega
  · exact (toNat_bytes hsmall).trans hreal

theorem Cc1101.setFrequencyOffset_eq (device : Cc1101) (value : UInt32) :
    ∃ r d, device.setFrequencyOffset value = some (r, d) ∧
      r.toNat = value.toNat * 0x4000 % 2 ^ 32 / 26000000 * 26000000 / 0x4000 ∧
      d.fsctrl0.toNat = value.toNat * 0x4000 % 2 ^ 32 / 26000000 := by
  have hreal : (value * 0x4000 / 26000000).toUInt64.toNat =
      value.toNat * 0x4000 % 2 ^ 32 / 26000000 := by
    rw [UInt32.toNat_toUInt64, UInt32.toNat_div, UInt32.toNat_mul]
    rfl
  have hsmall : (value * 0x4000 / 26000000).toUInt64.toNat < 2 ^ 8 := by omega
  refine ⟨_, _, if_pos ?_, ?_, ?_⟩
  · apply UInt64.toNat_inj.mp
    rw [UInt64.toNat_and]
    exact (Nat.and_two_pow_sub_one_eq_mod _ 8).trans (Nat.mod_eq_of_lt hsmall)
  · have hfits : value.toNat * 0x4000 % 2 ^ 32 / 26000000 * 26000000 % 2 ^ 64 =
      value.toNat * 0x4000 % 2 ^ 32 / 26000000 * 26000000 := by omega
    rw [UInt64.toNat_toUInt32, UInt64.toNat_div, UInt64.toNat_mul, hreal]
    simp only [UInt64.reduceToNat, hfits]
    omega
  · rw [toNat_byte, toNat_shiftRight_zero, hreal]
    omega

theorem scaledBack (w : ℕ) : w * 0xFFFF / 26000000 * 26000000 / 0xFFFF =
    w - (w * 0xFFFF % 26000000 + 0xFFFE) / 0xFFFF := by
  have hdiv := Nat.div_add_mod (w * 0xFFFF) 26000000
  omega

theorem frequencyTuned_iff : FrequencyTuned device value ↔ FrequencyKept value := by
  obtain ⟨r, d, heq, hr, hd⟩ := device.setFrequency_eq (compensateRounding value)
  have htuned : FrequencyTuned device value ↔ Within (2 ^ 16) (2 ^ 16 * r.toNat) d.carrier ∧
      Within (26000000 / 2 + 2 ^ 16) (2 ^ 16 * value.toNat) d.carrier := by
    constructor
    · exact fun h => h (r, d) heq
    · rintro h result hresult
      obtain rfl := Option.some.inj (heq.symm.trans hresult)
      exact h
  rw [htuned, Cc1101.carrier, hd, hr, scaledBack]
  simp only [FrequencyKept, Within, restOf]
  have hdiv := Nat.div_add_mod ((compensateRounding value).toNat * 0xFFFF) 26000000
  have hrest := Nat.mod_lt ((compensateRounding value).toNat * 0xFFFF) (y := 26000000) (by decide)
  omega

theorem quotient_ne_of_le {v : ℕ} (h : 2 ^ 18 ≤ v) :
    v * 0x4000 % 2 ^ 32 / 26000000 ≠ v * 0x4000 / 26000000 := by
  intro heq
  have hle : v * 0x4000 / 26000000 ≤ 165 := by omega
  have hmod : v * 0x4000 % 2 ^ 32 = v * 0x4000 - 2 ^ 32 := by omega
  omega

theorem offsetScaledBack (v : ℕ) : v * 0x4000 / 26000000 * 26000000 / 0x4000 =
    v - (v * 0x4000 % 26000000 + 0x3FFF) / 0x4000 := by
  have hdiv := Nat.div_add_mod (v * 0x4000) 26000000
  omega

theorem offsetTuned_iff : OffsetTuned device value ↔ OffsetKept value := by
  obtain ⟨r, d, heq, hr, hd⟩ := device.setFrequencyOffset_eq value
  have htuned : OffsetTuned device value ↔
      d.fsctrl0.toNat = value.toNat * 0x4000 / 26000000 ∧
        0x4000 * r.toNat < 0x4000 * value.toNat + 26000000 ∧
        0x4000 * value.toNat < 0x4000 * r.toNat + 26000000 := by
    constructor
    · exact fun h => h (r, d) heq
    · rintro h result hresult
      obtain rfl := Option.some.inj (heq.symm.trans hresult)
      exact h
  rw [htuned, hd, hr, OffsetKept]
  by_cases hfits : value.toNat < 2 ^ 18
  · rw [Nat.mod_eq_of_lt (by omega), offsetScaledBack]
    have hrest := Nat.mod_lt (value.toNat * 0x4000) (y := 26000000) (by decide)
    have hle : value.toNat * 0x4000 % 26000000 ≤ value.toNat * 0x4000 := Nat.mod_le _ _
    omega
  · have hne := quotient_ne_of_le (Nat.le_of_not_lt hfits)
    constructor
    · exact fun h => absurd h.1 hne
    · exact fun h => absurd h.1 hfits

/-- The carrier and the returned frequency are right exactly for the requests of `FrequencyKept`,
and the offset for those of `OffsetKept`. -/
theorem cc1101_tuning (device : Cc1101) (value : UInt32) :
    (FrequencyTuned device value ↔ FrequencyKept value) ∧
      (OffsetTuned device value ↔ OffsetKept value) :=
  ⟨frequencyTuned_iff, offsetTuned_iff⟩

theorem FrequencyKept.lt (h : FrequencyKept value) : (compensateRounding value).toNat < 131469 := by
  have hrest := Nat.mod_lt ((compensateRounding value).toNat * 0xFFFF) (y := 26000000) (by decide)
  have hsmall := h.1
  simp only [restOf] at hsmall
  omega

/-- At 433.92 MHz the carrier and the returned frequency are thousands of Hz apart. -/
theorem cc1101_tuning_433 : ¬∀ (device : Cc1101) (value : UInt32),
    FrequencyTuned device value ∧ OffsetTuned device value := by
  intro h
  have htuned := frequencyTuned_iff.mp (h ⟨0, 0, 0, 0⟩ 433920000).1
  have hlt := htuned.lt
  have hvalue : (compensateRounding 433920000).toNat = 433920396 := by decide
  omega

end FlipperZero.Firmware
