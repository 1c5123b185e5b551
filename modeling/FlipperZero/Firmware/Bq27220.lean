import Mathlib.Algebra.GroupWithZero.Nat
import Mathlib.Data.List.Basic
import Mathlib.Logic.Function.Basic

/-! # The battery profile of the fuel gauge

The gauge keeps its profile in a data memory, which it stores to while it is in its update mode: a
parameter is selected with its value, and stored when a checksum that matches it arrives. Any
transfer may be lost. The driver looks at none of these, but reads one parameter back at the end.
-/

namespace FlipperZero.Firmware.Bq27220

abbrev Byte := BitVec 8

def commandControl : Byte := 0x00
def commandSelectSubclass : Byte := 0x3E
def commandMACDataSum : Byte := 0x60

def controlEnterCfgUpdate : BitVec 16 := 0x0090
def controlExitCfgUpdate : BitVec 16 := 0x0092

structure ParamCEDV where
  gaugeConfRaw : BitVec 16
  fullChargeCap : BitVec 16
  designCap : BitVec 16
  edv0 : BitVec 16
  edv1 : BitVec 16
  edv2 : BitVec 16
  emf : BitVec 16
  c0 : BitVec 16
  r0 : BitVec 16
  t0 : BitVec 16
  r1 : BitVec 16
  tc : Byte
  c1 : Byte
  dod0 : BitVec 16
  dod10 : BitVec 16
  dod20 : BitVec 16
  dod30 : BitVec 16
  dod40 : BitVec 16
  dod50 : BitVec 16
  dod60 : BitVec 16
  dod70 : BitVec 16
  dod80 : BitVec 16
  dod90 : BitVec 16
  dod100 : BitVec 16

inductive Parameter where
  | gaugingConfig
  | fullChargeCapacity
  | designCapacity
  | emf
  | c0
  | r0
  | t0
  | r1
  | tc
  | startDOD0
  | startDOD10
  | startDOD20
  | startDOD30
  | startDOD40
  | startDOD50
  | startDOD60
  | startDOD70
  | startDOD80
  | startDOD90
  | startDOD100
  | edv0
  | edv1
  | edv2
deriving DecidableEq, Repr

namespace Parameter

def address : Parameter → BitVec 16
  | gaugingConfig => 0x929B
  | fullChargeCapacity => 0x929D
  | designCapacity => 0x929F
  | emf => 0x92A3
  | c0 => 0x92A9
  | r0 => 0x92AB
  | t0 => 0x92AD
  | r1 => 0x92AF
  | tc => 0x92B1
  | edv0 => 0x92B4
  | edv1 => 0x92B7
  | edv2 => 0x92BA
  | startDOD0 => 0x92BD
  | startDOD10 => 0x92BF
  | startDOD20 => 0x92C1
  | startDOD30 => 0x92C3
  | startDOD40 => 0x92C5
  | startDOD50 => 0x92C7
  | startDOD60 => 0x92C9
  | startDOD70 => 0x92CB
  | startDOD80 => 0x92CD
  | startDOD90 => 0x92CF
  | startDOD100 => 0x92D1

/-- The parameters in the order of `bq27220_init`. -/
def all : List Parameter :=
  [gaugingConfig, fullChargeCapacity, designCapacity, emf, c0, r0, t0, r1, tc, startDOD0,
    startDOD10, startDOD20, startDOD30, startDOD40, startDOD50, startDOD60, startDOD70, startDOD80,
    startDOD90, startDOD100, edv0, edv1, edv2]

def profile (cedv : ParamCEDV) : Parameter → BitVec 16
  | gaugingConfig => cedv.gaugeConfRaw
  | fullChargeCapacity => cedv.fullChargeCap
  | designCapacity => cedv.designCap
  | emf => cedv.emf
  | c0 => cedv.c0
  | r0 => cedv.r0
  | t0 => cedv.t0
  | r1 => cedv.r1
  | tc => cedv.tc ++ cedv.c1
  | startDOD0 => cedv.dod0
  | startDOD10 => cedv.dod10
  | startDOD20 => cedv.dod20
  | startDOD30 => cedv.dod30
  | startDOD40 => cedv.dod40
  | startDOD50 => cedv.dod50
  | startDOD60 => cedv.dod60
  | startDOD70 => cedv.dod70
  | startDOD80 => cedv.dod80
  | startDOD90 => cedv.dod90
  | startDOD100 => cedv.dod100
  | edv0 => cedv.edv0
  | edv1 => cedv.edv1
  | edv2 => cedv.edv2

/-- What `bq27220_init` writes for a parameter. -/
def value (cedv : ParamCEDV) : Parameter → BitVec 16
  | gaugingConfig => cedv.gaugeConfRaw
  | fullChargeCapacity => cedv.fullChargeCap
  | designCapacity => cedv.designCap
  | emf => cedv.emf
  | c0 => cedv.c0
  | r0 => cedv.r0
  | t0 => cedv.t0
  | r1 => cedv.r1
  | tc => cedv.tc.setWidth 16 <<< 8 ||| cedv.c1.setWidth 16
  | startDOD0 => cedv.dod0
  | startDOD10 => cedv.dod10
  | startDOD20 => cedv.dod20
  | startDOD30 => cedv.dod30
  | startDOD40 => cedv.dod40
  | startDOD50 => cedv.dod40
  | startDOD60 => cedv.dod60
  | startDOD70 => cedv.dod70
  | startDOD80 => cedv.dod80
  | startDOD90 => cedv.dod90
  | startDOD100 => cedv.dod100
  | edv0 => cedv.edv0
  | edv1 => cedv.edv1
  | edv2 => cedv.edv2

end Parameter

abbrev Memory := BitVec 16 → Byte

/-- A value in the memory; its high byte comes first. -/
def word (memory : Memory) (address : BitVec 16) : BitVec 16 :=
  memory address ++ memory (address + 1)

structure Gauge where
  memory : Memory
  /-- How many polls it takes until the update mode, once it was asked for. -/
  entering : Option ℕ
  /-- The address and the value of the last selection. -/
  selection : Option (BitVec 16 × BitVec 16)

namespace Gauge

def inUpdate (gauge : Gauge) : Prop := gauge.entering = some 0

instance (gauge : Gauge) : Decidable gauge.inUpdate := inferInstanceAs (Decidable (_ = _))

def data (selection : BitVec 16 × BitVec 16) : List Byte :=
  [selection.1.extractLsb' 0 8, selection.1.extractLsb' 8 8, selection.2.extractLsb' 8 8,
    selection.2.extractLsb' 0 8]

/-- The checksum is what is missing from the sum of the bytes to 0xFF. -/
def Matches (selection : BitVec 16 × BitVec 16) (checksum length : Byte) : Prop :=
  (((data selection).map BitVec.toNat).sum + checksum.toNat) % 256 = 0xFF ∧ length = 6

instance (selection : BitVec 16 × BitVec 16) (checksum length : Byte) :
    Decidable (Matches selection checksum length) := inferInstanceAs (Decidable (_ ∧ _))

def store (memory : Memory) (selection : BitVec 16 × BitVec 16) : Memory :=
  Function.update (Function.update memory selection.1 (selection.2.extractLsb' 8 8))
    (selection.1 + 1) (selection.2.extractLsb' 0 8)

/-- What a write that arrives does; `delay` is how long the gauge takes to enter its mode. -/
def write (delay : ℕ) (gauge : Gauge) : List Byte → Gauge
  | [command, low, high] =>
    if command = commandControl then
      if high ++ low = controlEnterCfgUpdate then { gauge with entering := some delay }
      else if high ++ low = controlExitCfgUpdate then { gauge with entering := none }
      else gauge
    else if command = commandMACDataSum ∧ gauge.inUpdate then
      match gauge.selection with
      | some selection =>
        if Matches selection low high then { gauge with memory := store gauge.memory selection }
        else gauge
      | none => gauge
    else gauge
  | [command, addressLow, addressHigh, valueHigh, valueLow] =>
    if command = commandSelectSubclass then
      { gauge with selection := some (addressHigh ++ addressLow, valueHigh ++ valueLow) }
    else gauge
  | _ => gauge

/-- The operation status, with `CFGUPDATE` in bit 10. -/
def operationStatus (gauge : Gauge) : BitVec 16 := if gauge.inUpdate then 0x0400 else 0

def poll (gauge : Gauge) : Gauge := { gauge with entering := gauge.entering.map (· - 1) }

end Gauge

/-- The transfers of `bq27220_init`. -/
inductive Transfer where
  | firstRead
  | enter
  | poll (i : ℕ)
  | select (p : Parameter)
  | dataSum (p : Parameter)
  | exit
  | lastRead

variable (arrives : Transfer → Bool) (delay : ℕ)

def readWord (transfer : Transfer) (value : BitVec 16) : BitVec 16 :=
  if arrives transfer then value else 0

def tx (transfer : Transfer) (bytes : List Byte) (gauge : Gauge) : Bool × Gauge :=
  if arrives transfer then (true, gauge.write delay bytes) else (false, gauge)

def bq27220Control (transfer : Transfer) (control : BitVec 16) (gauge : Gauge) : Bool × Gauge :=
  tx arrives delay transfer
    [commandControl, control.extractLsb' 0 8, control.extractLsb' 8 8] gauge

def getChecksum (data : List Byte) : Byte := 0xFF - data.foldl (· + ·) 0

/-- What is returned is the result of the last transfer. -/
def setParameterU16 (p : Parameter) (address value : BitVec 16) (gauge : Gauge) : Bool × Gauge :=
  let data := [address.extractLsb' 0 8, address.extractLsb' 8 8, value.extractLsb' 8 8,
    value.extractLsb' 0 8]
  let gauge := (tx arrives delay (.select p) (commandSelectSubclass :: data) gauge).2
  tx arrives delay (.dataSum p) [commandMACDataSum, getChecksum data, 6] gauge

/-- The loop that waits for `CFGUPDATE`, from poll `i` on; a status of zero counts as an error. -/
def waitForUpdate : ℕ → ℕ → BitVec 16 → Gauge → Gauge
  | 0, _, _, gauge => gauge
  | timeout + 1, i, status, gauge =>
    if status.getLsbD 10 then gauge
    else
      let data := readWord arrives (.poll i) gauge.operationStatus
      waitForUpdate timeout (i + 1) (if data = 0 then status else data) gauge.poll

def setParameters (cedv : ParamCEDV) (ps : List Parameter) (gauge : Gauge) : Gauge :=
  ps.foldl (fun gauge p => (setParameterU16 arrives delay p p.address (p.value cedv) gauge).2) gauge

structure Outcome where
  result : Bool
  updated : Bool
  gauge : Gauge

def bq27220Init (cedv : ParamCEDV) (gauge : Gauge) : Outcome :=
  let designCap := readWord arrives .firstRead (word gauge.memory Parameter.designCapacity.address)
  if cedv.designCap = designCap then ⟨true, false, gauge⟩
  else
    let entered := bq27220Control arrives delay .enter controlEnterCfgUpdate gauge
    if entered.1 then
      let gauge := waitForUpdate arrives 100 0 0 entered.2
      let gauge := setParameters arrives delay cedv Parameter.all gauge
      let gauge := (bq27220Control arrives delay .exit controlExitCfgUpdate gauge).2
      let designCap :=
        readWord arrives .lastRead (word gauge.memory Parameter.designCapacity.address)
      ⟨cedv.designCap = designCap, true, gauge⟩
    else ⟨false, false, entered.2⟩

end FlipperZero.Firmware.Bq27220
