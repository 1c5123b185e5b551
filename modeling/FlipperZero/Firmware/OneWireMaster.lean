import FlipperZero.Firmware.Gpio
import FlipperZero.OneWire.Search

/-! # The OneWire master on its pin

The primitives of the master drive and read the pin with delays in between. None of them touches
the interrupts, whatever the bus answers; only `start` and `stop` do, through `hal_gpio_init`.
-/

namespace FlipperZero.Firmware

open Lib OneWire

def start : Hal Unit := halGpioInit .oneWire .outputOpenDrain

def stop : Hal Unit := halGpioInit .oneWire .analog

def resetDelayPre : ℕ := 0
def resetDrive : ℕ := 480

/-- The wait of `reset` for a high line. -/
def awaitHigh : (retries : ℕ) → Hal Bool
  | 0 => pure false
  | retries + 1 =>
    if retries = 0 then pure false
    else do
      delayUs 2
      if ← halGpioRead then pure true else awaitHigh retries

def reset : Hal Bool := do
  halGpioWrite .oneWire true
  if ← awaitHigh 125 then
    delayUs resetDelayPre
    halGpioWrite .oneWire false
    delayUs resetDrive
    halGpioWrite .oneWire true
    delayUs OneWireTiming.resetRelease
    let level ← halGpioRead
    delayUs OneWireTiming.resetDelayPost
    pure !level
  else pure false

def readBit : Hal Bool := do
  halGpioWrite .oneWire false
  delayUs OneWireTiming.readDrive
  halGpioWrite .oneWire true
  delayUs OneWireTiming.readRelease
  let result ← halGpioRead
  delayUs OneWireTiming.readDelayPost
  pure result

def writeBit (value : Bool) : Hal Unit := do
  halGpioWrite .oneWire false
  delayUs (if value then OneWireTiming.write1Drive else OneWireTiming.write0Drive)
  halGpioWrite .oneWire true
  delayUs (if value then OneWireTiming.write1Release else OneWireTiming.write0Release)

/-- The bit loop of `read`, with `left` bits to come. -/
def readBits : (left : ℕ) → (result : BitVec 8) → Hal (BitVec 8)
  | 0, result => pure result
  | left + 1, result => do
    let bit ← readBit
    readBits left (if bit then result ||| (1#8 <<< (7 - left)) else result)

def read : Hal (BitVec 8) := readBits 8 0

/-- The bit loop of `write`, with `left` bits to come. -/
def writeBits (value : BitVec 8) : (left : ℕ) → Hal Unit
  | 0 => pure ()
  | left + 1 => do
    writeBit (decide ((1#8 <<< (7 - left)) &&& value ≠ 0))
    writeBits value left

def write (value : BitVec 8) : Hal Unit := writeBits value 8

/-- The loop of `search`, which makes no more than one turn for each bit. -/
def searchLoop : (left : ℕ) → OneWireMaster → SearchLoop → Hal (OneWireMaster × SearchLoop)
  | 0, m, l => pure (m, l)
  | left + 1, m, l => do
    let idBit ← readBit
    let cmpIdBit ← readBit
    if idBit = true ∧ cmpIdBit = true then pure (m, l)
    else do
      let taken := m.takeBit l idBit cmpIdBit
      writeBit taken.1
      if taken.2.2.romByteNumber < 8 then searchLoop left taken.2.1 taken.2.2
      else pure (taken.2.1, taken.2.2)

/-- The end of `search`: the ROM is copied out unless no device was found. -/
def finishSearch (m : OneWireMaster) (searchResult : Bool) : Option Rom × OneWireMaster :=
  if searchResult = false ∨ m.savedRom.byte 0 = 0 then (none, m.resetCounters)
  else (some m.savedRom, m)

def search (m : OneWireMaster) (searchMode : Bool) : Hal (Option Rom × OneWireMaster) :=
  if m.lastDeviceFlag then pure (finishSearch m false)
  else do
    if ← reset then
      write (if searchMode then 0xF0 else 0xEC)
      let (m, l) ← searchLoop 64 m .start
      if l.idBitNumber < 65 then pure (finishSearch m false)
      else
        let m := { m with lastDiscrepancy := l.lastZero }
        let m := if m.lastDiscrepancy = 0 then { m with lastDeviceFlag := true } else m
        pure (finishSearch m true)
    else pure (none, m.resetCounters)

theorem emits_start : Emits start initCalls := emits_halGpioInit

theorem emits_stop : Emits stop initCalls := emits_halGpioInit

theorem silent_awaitHigh {retries : ℕ} : Emits (awaitHigh retries) [] := by
  induction retries with
  | zero => exact emits_pure _
  | succ retries ih =>
    refine (emits_pure _).ite (emits_delayUs.silent_bind fun _ => ?_)
    exact emits_halGpioRead.silent_bind fun _ => (emits_pure _).ite ih

theorem silent_reset : Emits reset [] := by
  refine emits_halGpioWrite.silent_bind fun _ => silent_awaitHigh.silent_bind fun _ => ?_
  refine Emits.ite ?_ (emits_pure _)
  refine emits_delayUs.silent_bind fun _ => emits_halGpioWrite.silent_bind fun _ => ?_
  refine emits_delayUs.silent_bind fun _ => emits_halGpioWrite.silent_bind fun _ => ?_
  refine emits_delayUs.silent_bind fun _ => emits_halGpioRead.silent_bind fun _ => ?_
  exact emits_delayUs.silent_bind fun _ => emits_pure _

theorem silent_readBit : Emits readBit [] := by
  refine emits_halGpioWrite.silent_bind fun _ => emits_delayUs.silent_bind fun _ => ?_
  refine emits_halGpioWrite.silent_bind fun _ => emits_delayUs.silent_bind fun _ => ?_
  refine emits_halGpioRead.silent_bind fun _ => emits_delayUs.silent_bind fun _ => ?_
  exact emits_pure _

theorem silent_writeBit {value : Bool} : Emits (writeBit value) [] := by
  refine emits_halGpioWrite.silent_bind fun _ => emits_delayUs.silent_bind fun _ => ?_
  exact emits_halGpioWrite.silent_bind fun _ => emits_delayUs

theorem silent_readBits {left : ℕ} {result : BitVec 8} : Emits (readBits left result) [] := by
  induction left generalizing result with
  | zero => exact emits_pure _
  | succ left ih => exact silent_readBit.silent_bind fun _ => ih

theorem silent_read : Emits read [] := silent_readBits

theorem silent_writeBits {value : BitVec 8} {left : ℕ} : Emits (writeBits value left) [] := by
  induction left with
  | zero => exact emits_pure _
  | succ left ih => exact silent_writeBit.silent_bind fun _ => ih

theorem silent_write {value : BitVec 8} : Emits (write value) [] := silent_writeBits

theorem silent_searchLoop {left : ℕ} {m : OneWireMaster} {l : SearchLoop} :
    Emits (searchLoop left m l) [] := by
  induction left generalizing m l with
  | zero => exact emits_pure _
  | succ left ih =>
    refine silent_readBit.silent_bind fun _ => silent_readBit.silent_bind fun _ => ?_
    refine (emits_pure _).ite (silent_writeBit.silent_bind fun _ => ?_)
    exact ih.ite (emits_pure _)

theorem silent_search {m : OneWireMaster} {searchMode : Bool} : Emits (search m searchMode) [] := by
  refine (emits_pure _).ite (silent_reset.silent_bind fun _ => ?_)
  refine Emits.ite ?_ (emits_pure _)
  refine silent_write.silent_bind fun _ => silent_searchLoop.silent_bind fun _ => ?_
  exact (emits_pure _).ite (emits_pure _)

end FlipperZero.Firmware
