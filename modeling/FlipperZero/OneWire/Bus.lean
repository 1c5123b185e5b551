import FlipperZero.OneWire.Slave

/-! # The OneWire bus

The bus is one open-drain line with the master's driver, conforming search responders
and emulated slaves on it. The master's primitives are one slot each; a reset lets every
party start afresh and shows whether any of them holds the line low at the sampling point.
-/

namespace FlipperZero.OneWire

open Lib

/-- A OneWire device that keeps to the timing windows of the bus. -/
structure Responder where
  rom : Rom
  pull : ℕ
  sample : ℕ
  presenceStart : ℕ
  presenceLength : ℕ
  pull_window : 15 ≤ pull ∧ pull ≤ 60
  sample_window : 15 ≤ sample ∧ sample ≤ 60
  presenceStart_window : 15 ≤ presenceStart ∧ presenceStart ≤ 60
  presenceLength_window : 60 ≤ presenceLength ∧ presenceLength ≤ 240

namespace Responder

def samples (r : Responder) (slot : Slot) : Bool := decide (slot.low < r.sample)

def sends (r : Responder) (bit : Bool) (next : Proc) : Proc := .slot (if bit then 0 else r.pull) fun _ => next

/-- Send a bit and its complement, and go on only if the master writes that bit. -/
def searchRom (r : Responder) : List Bool → Proc
  | [] => .done
  | bit :: key =>
    r.sends bit <| r.sends (!bit) <| .slot 0 fun slot =>
      if r.samples slot = bit then r.searchRom key else .done

def listen (r : Responder) : (left : ℕ) → (cmd : BitVec 8) → Proc
  | 0, cmd => if cmd = 0xF0#8 then r.searchRom r.rom.key else .done
  | left + 1, cmd =>
    .slot 0 fun slot =>
      r.listen left (if r.samples slot then cmd ||| (1#8 <<< (7 - left)) else cmd)

def presence (r : Responder) : Pulse := ⟨r.presenceStart, r.presenceStart + r.presenceLength⟩

end Responder

inductive Party where
  | responder (r : Responder)
  | slave (s : OneWireSlave)

structure Node where
  party : Party
  proc : Proc

abbrev Bus := List Node

def Party.idle (p : Party) : Node := ⟨p, .done⟩

def Node.step (n : Node) (slot : Slot) : Node := ⟨n.party, n.proc.step slot⟩

/-- A reset as one node takes it: the pulse it shows, and how it goes on. A slave that is still
in `bus_start` misses the reset; slaves show their pulses together, so `others` are the
responders' pulses. -/
def Node.restart (others : List Pulse) (n : Node) : Option Pulse × Node :=
  match n.party, n.proc with
  | .responder r, _ => (some r.presence, ⟨n.party, r.listen 8 0⟩)
  | .slave s, .done =>
    match s.busStart others with
    | some (pulse, proc) => (some pulse, ⟨n.party, proc⟩)
    | none => (none, ⟨n.party, .done⟩)
  | .slave _, .slot _ _ => (none, ⟨n.party, .done⟩)

namespace Bus

variable (bus : Bus)

/-- One slot: how long the line stayed low, and the bus after it. -/
def slot (drive release : ℕ) : ℕ × Bus :=
  let low := lineLow drive (bus.map fun n => n.proc.hold)
  (low, bus.map fun n => n.step ⟨low, drive + release⟩)

def readBit : Bool × Bus :=
  let (low, bus') := bus.slot OneWireTiming.readDrive
    (OneWireTiming.readRelease + OneWireTiming.readDelayPost)
  (decide (low ≤ OneWireTiming.readDrive + OneWireTiming.readRelease), bus')

def writeBit (value : Bool) : Bus :=
  if value then
    (bus.slot OneWireTiming.write1Drive OneWireTiming.write1Release).2
  else
    (bus.slot OneWireTiming.write0Drive OneWireTiming.write0Release).2

def write (value : BitVec 8) : Bus :=
  (List.range 8).foldl (fun bus j => bus.writeBit (decide ((1#8 <<< j) &&& value ≠ 0))) bus

def responderPulses : List Pulse :=
  bus.filterMap fun n => match n.party with
    | .responder r => some r.presence
    | .slave _ => none

def reset : Bool × Bus :=
  let restarted := bus.map (Node.restart bus.responderPulses)
  (lowAt (restarted.filterMap Prod.fst) OneWireTiming.resetRelease, restarted.map Prod.snd)

end Bus

end FlipperZero.OneWire
