import FlipperZero.Lib.CriticalSection
import Mathlib.Logic.Function.Basic

/-! # Pins and interrupts of the firmware

Firmware runs on a processor whose environment answers the reads of the OneWire pin, the waits
for a level on it and the reads of the counters. Nothing is known of the answers.
-/

namespace FlipperZero.Firmware

open Lib

/-- The functions that disable and enable interrupts. -/
inductive IrqUser where
  | halGpioInitEx
  | readKey
  | verifyKey
  | compareKeyDs1990
  | write1990_1
  | write1990_2
  | writeTM2004
  | busStart
deriving DecidableEq, Repr

inductive GpioPin where
  | oneWire
  | rfidPull
  | rfidOut
deriving DecidableEq, Repr

inductive GpioMode where
  | input
  | outputOpenDrain
  | analog
  | interruptRiseFall
deriving DecidableEq, Repr

structure Pins where
  /-- The levels that the next reads of the OneWire pin will find. -/
  levels : ℕ → Bool
  /-- How many turns the next waits for a level of the OneWire pin have time for. -/
  waits : ℕ → ℕ
  ticks : ℕ → UInt32
  cycles : ℕ → UInt32
  output : GpioPin → Bool
  mode : GpioPin → GpioMode

abbrev Hal := Program IrqUser Pins

def halGpioRead : Hal Bool :=
  sense fun p => (p.levels 0, { p with levels := fun n => p.levels (n + 1) })

def halGpioWrite (pin : GpioPin) (state : Bool) : Hal Unit :=
  sense fun p => ((), { p with output := Function.update p.output pin state })

def osKernelGetTickCount : Hal UInt32 :=
  sense fun p => (p.ticks 0, { p with ticks := fun n => p.ticks (n + 1) })

def cyccnt : Hal UInt32 :=
  sense fun p => (p.cycles 0, { p with cycles := fun n => p.cycles (n + 1) })

def waitTurns : Hal ℕ := sense fun p => (p.waits 0, { p with waits := fun n => p.waits (n + 1) })

/-- Nothing that is followed here depends on how much time passes. -/
def delayUs (_microseconds : ℕ) : Hal Unit := pure ()

/-- The scheduler is locked by a counter of its own. -/
def osKernelLock : Hal Unit := pure ()

def osKernelUnlock : Hal Unit := pure ()

def halGpioInitEx (pin : GpioPin) (mode : GpioMode) : Hal Unit := do
  disableIrq .halGpioInitEx
  sense fun p => ((), { p with mode := Function.update p.mode pin mode })
  enableIrq .halGpioInitEx

def halGpioInit (pin : GpioPin) (mode : GpioMode) : Hal Unit := halGpioInitEx pin mode

/-- The calls of `hal_gpio_init`. -/
def initCalls : List (Irq IrqUser) := [.disable .halGpioInitEx, .enable .halGpioInitEx]

variable {pin : GpioPin}

theorem emits_halGpioRead : Emits halGpioRead [] := emits_sense _

theorem emits_halGpioWrite {state : Bool} : Emits (halGpioWrite pin state) [] := emits_sense _

theorem emits_cyccnt : Emits cyccnt [] := emits_sense _

theorem emits_waitTurns : Emits waitTurns [] := emits_sense _

theorem emits_delayUs {microseconds : ℕ} : Emits (delayUs microseconds) [] := emits_pure _

theorem emits_osKernelLock : Emits osKernelLock [] := emits_pure _

theorem emits_osKernelUnlock : Emits osKernelUnlock [] := emits_pure _

theorem emits_halGpioInit {mode : GpioMode} : Emits (halGpioInit pin mode) initCalls :=
  (emits_disableIrq _).bind fun _ => (emits_sense _).silent_bind fun _ => emits_enableIrq _

end FlipperZero.Firmware
