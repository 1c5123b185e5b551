import FlipperZero.Firmware.Cc1101
import FlipperZero.Firmware.Cc1101Spi
import FlipperZero.Firmware.GpioInit

/-! # The radio with its antenna switch

An antenna path is chosen by a pin of the microcontroller and by an output of the chip. A strobe
changes the mode of the chip as its documentation says; any access wakes it. With packets it also
stops by itself behind each of them.
-/

namespace FlipperZero.Firmware

open Cc1101Spi GpioInit

inductive RadioMode
  | sleep
  | idle
  | rx
  | tx
  deriving DecidableEq, Repr

namespace RadioMode

def selected : RadioMode → RadioMode
  | sleep => idle
  | mode => mode

def strobed (mode : RadioMode) (strobe : Byte) : RadioMode :=
  if strobe = 0x30 ∨ strobe = 0x33 ∨ strobe = 0x36 then idle
  else if strobe = 0x34 then rx
  else if strobe = 0x35 then tx
  else if strobe = 0x39 then sleep
  else mode.selected

/-- The mode after a packet. The driver leaves `MCSM1` at its reset value, which says idle. -/
def packetEnded : RadioMode → RadioMode
  | rx | tx => idle
  | mode => mode

def Active (mode : RadioMode) : Prop := mode = rx ∨ mode = tx

end RadioMode

inductive ApiHalSubGhzPath
  | path433
  | path315
  | path868
  | pathIsolate
  deriving DecidableEq, Repr

namespace ApiHalSubGhzPath

def rfSw0 : ApiHalSubGhzPath → Bool
  | path433 | pathIsolate => false
  | path315 | path868 => true

def iocfg2 : ApiHalSubGhzPath → Byte
  | path433 | path868 => 0x2F ||| 0x40
  | path315 | pathIsolate => 0x2F

end ApiHalSubGhzPath

structure SubghzRadio where
  chip : Chip
  mode : RadioMode
  rfSw0 : Bool
  /-- The pin at GD0. -/
  g0 : GpioMode
  g0Level : Bool

def Cc1101Spi.Chip.tuning (chip : Chip) : Cc1101 where
  freq2 := ⟨chip.regs 0x0D⟩
  freq1 := ⟨chip.regs 0x0E⟩
  freq0 := ⟨chip.regs 0x0F⟩
  fsctrl0 := ⟨chip.regs 0x0C⟩

namespace SubghzRadio

variable (reset : Reset) (radio : SubghzRadio)

def strobe (strobe : Byte) : SubghzRadio :=
  { radio with chip := cc1101Strobe reset strobe radio.chip, mode := radio.mode.strobed strobe }

def writeReg (reg data : Byte) : SubghzRadio :=
  { radio with chip := cc1101WriteReg reset reg data radio.chip, mode := radio.mode.selected }

/-- `cc1101_read_reg`, for what it does to the chip. -/
def readReg (reg : Byte) : SubghzRadio :=
  { radio with
    chip := transaction reset [reg ||| 0x80, 0] 2 radio.chip
    mode := radio.mode.selected }

def apiHalSubghzReset : SubghzRadio :=
  { radio with
    chip := cc1101Reset reset radio.chip
    mode := radio.mode.selected.strobed 0x30 }

def apiHalSubghzLoadPreset (preset : ApiHalSubGhzPreset) : SubghzRadio :=
  { radio with
    chip := Cc1101Spi.apiHalSubghzLoadPreset reset preset radio.chip
    mode := (radio.mode.selected.strobed 0x30).selected }

def apiHalSubghzRx : SubghzRadio := radio.strobe reset 0x34

def apiHalSubghzTx : SubghzRadio := radio.strobe reset 0x35

def apiHalSubghzGetRssi : SubghzRadio := radio.readReg reset (0x34 ||| 0x40)

/-- With the frequency that is returned; `none` where the check of the driver fails. -/
def apiHalSubghzSetFrequency (value : UInt32) : Option (UInt32 × SubghzRadio) :=
  (Firmware.apiHalSubghzSetFrequency radio.chip.tuning value).map fun (real, device) =>
    (real, (((radio.writeReg reset 0x0D device.freq2.toBitVec).writeReg reset 0x0E
      device.freq1.toBitVec).writeReg reset 0x0F device.freq0.toBitVec).strobe reset 0x33)

def apiHalSubghzSetPath (path : ApiHalSubGhzPath) : SubghzRadio :=
  { radio with rfSw0 := path.rfSw0 }.writeReg reset 0x00 path.iocfg2

def halGpioInit (mode : GpioMode) : SubghzRadio := { radio with g0 := mode }

def halGpioWrite (level : Bool) : SubghzRadio := { radio with g0Level := level }

/-- The end of a packet, which the chip knows in the formats that `PKTCTRL0` does not call serial. -/
def packetEnd : SubghzRadio :=
  if radio.chip.regs 0x08 &&& 0x30 = 0 then { radio with mode := radio.mode.packetEnded } else radio

def Selects (path : ApiHalSubGhzPath) : Prop :=
  radio.rfSw0 = path.rfSw0 ∧ radio.chip.regs 0x00 = path.iocfg2

/-- Nothing is sent or received, the antenna is isolated, and the pin at GD0 is let go. -/
structure Quiet : Prop where
  mode : ¬radio.mode.Active
  path : radio.Selects .pathIsolate
  g0 : radio.g0 = .analog

variable {reset radio} {path path' : ApiHalSubGhzPath}

theorem apiHalSubghzSetPath_selects (path : ApiHalSubGhzPath) :
    (radio.apiHalSubghzSetPath reset path).Selects path := by
  have hwrite := @cc1101WriteReg_eq reset radio.chip 0x00 (by decide) path.iocfg2
  constructor
  · rfl
  · exact congrArg (fun chip => chip.regs 0x00) hwrite

theorem Selects.unique (h : radio.Selects path) (h' : radio.Selects path') : path = path' := by
  have hsw := h.1.symm.trans h'.1
  have hout := h.2.symm.trans h'.2
  revert hsw hout
  cases path <;> cases path' <;> decide

theorem apiHalSubghzGetRssi_eq : radio.apiHalSubghzGetRssi reset =
    { radio with mode := radio.mode.selected } :=
  rfl

theorem packetEnd_of_not_active (h : ¬radio.mode.Active) : radio.packetEnd = radio := by
  rw [packetEnd]
  split
  · obtain ⟨_, mode, _, _, _⟩ := radio
    cases mode with
    | sleep => rfl
    | idle => rfl
    | rx => exact absurd (.inl rfl) h
    | tx => exact absurd (.inr rfl) h
  · rfl

theorem packetEnd_g0 (radio : SubghzRadio) : radio.packetEnd.g0 = radio.g0 := by
  rw [packetEnd]
  split <;> rfl

theorem exists_setFrequency (reset : Reset) (radio : SubghzRadio) (value : UInt32) : ∃ real radio',
    radio.apiHalSubghzSetFrequency reset value = some (real, radio') ∧
      real.toNat = (compensateRounding value).toNat * 0xFFFF / 26000000 * 26000000 / 0xFFFF := by
  obtain ⟨real, device, heq, hreal, -⟩ :=
    radio.chip.tuning.setFrequency_eq (compensateRounding value)
  rw [apiHalSubghzSetFrequency, Firmware.apiHalSubghzSetFrequency, heq]
  exact ⟨real, _, rfl, hreal⟩

end SubghzRadio

end FlipperZero.Firmware
