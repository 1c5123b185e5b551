import FlipperZero.Lib.OpenDrain
import FlipperZero.OneWire.Rom

/-! # The emulated OneWire slave

`OneWireSlave` answers from the interrupt of the rising edge that ends a reset pulse. It
waits for levels on the line with timeouts, so its routines are processes over the slots
of the line, written with their continuation; a session carries the error field and how
long the line stays low and then high when the routine goes on.
-/

namespace FlipperZero.OneWire

open Lib

namespace OneWireEmulateTiming

def presenceTimeout : ℕ := 20
def presenceMin : ℕ := 100
def presenceMax : ℕ := 480
def msgHighTimeout : ℕ := 15000
def slotMax : ℕ := 135
def readMin : ℕ := 20
def readMax : ℕ := 60
def writeZero : ℕ := 30

end OneWireEmulateTiming

namespace OneWireTiming

def write1Drive : ℕ := 9
def write1Release : ℕ := 64
def write0Drive : ℕ := 64
def write0Release : ℕ := 14
def readDrive : ℕ := 3
def readRelease : ℕ := 9
def readDelayPost : ℕ := 55
def resetRelease : ℕ := 70
def resetDelayPost : ℕ := 410

end OneWireTiming

inductive OneWireSlaveError where
  | noError
  | presenceLowOnLine
  | awaitTimeslotTimeoutHigh
  | incorrectOneWireCmd
  | firstBitOfByteTimeout
  | resetInProgress
deriving DecidableEq, Repr

/-- A low pulse after the reset, in time since the master released the line. -/
structure Pulse where
  start : ℕ
  stop : ℕ
deriving DecidableEq, Repr

def Pulse.covers (p : Pulse) (t : ℕ) : Bool := decide (p.start ≤ t) && decide (t < p.stop)

def lowAt (pulses : List Pulse) (t : ℕ) : Bool := pulses.any fun p => p.covers t

/-- The emulated device hangs on the slave by its `device` pointer. -/
structure OneWireSlave where
  device : Option Rom

/-- A run of `bus_start`: the error field, and the levels the line will have from now on. -/
structure Session where
  error : OneWireSlaveError
  lowLeft : ℕ
  highLeft : ℕ

namespace Session

variable (s : Session)

/-- The session at the time `t` after the falling edge of a slot. -/
def resume (slot : Slot) (t : ℕ) : Session :=
  { s with lowLeft := slot.low - t, highLeft := slot.period - max t slot.low }

def fail (e : OneWireSlaveError) : Session := { s with error := e }

end Session

/-- The time that remains when a level that lasts `len` ends, zero when it does not end in time. -/
def waitWhileGpioIs (time len : ℕ) : ℕ := time - len

/-- The wait for the next slot at the head of `receive_bit` and `send_bit`. -/
def awaitSlot (s : Session) (k : Session → Bool → Proc) (go : Proc) : Proc :=
  if waitWhileGpioIs OneWireEmulateTiming.slotMax s.lowLeft = 0 then
    k (s.fail .resetInProgress) false
  else if waitWhileGpioIs OneWireEmulateTiming.msgHighTimeout s.highLeft = 0 then
    k (s.fail .awaitTimeslotTimeoutHigh) false
  else
    go

def receiveBit (s : Session) (k : Session → Bool → Proc) : Proc :=
  awaitSlot s k <| .slot 0 fun slot =>
    let time := waitWhileGpioIs OneWireEmulateTiming.readMin slot.low
    k (s.resume slot (min OneWireEmulateTiming.readMin slot.low)) (decide (time > 0))

def sendBit (value : Bool) (s : Session) (k : Session → Bool → Proc) : Proc :=
  awaitSlot s k <|
    if value then
      .slot 0 fun slot => k (s.resume slot OneWireEmulateTiming.readMax) true
    else
      .slot OneWireEmulateTiming.writeZero fun slot =>
        k (s.resume slot OneWireEmulateTiming.writeZero) true

/-- The bit loop of `receive` for one byte, with `left` bits to come. -/
def receive : (left : ℕ) → (value : BitVec 8) → Session → (Session → BitVec 8 → Proc) → Proc
  | 0, value, s, k => k s value
  | left + 1, value, s, k =>
    receiveBit s fun s bit =>
      receive left (if bit then value ||| (1#8 <<< (7 - left)) else value) s k

/-- `send` from its bit `i` on. -/
def send (i : ℕ) : List Bool → Session → (Session → Bool → Proc) → Proc
  | [], s, k => k s true
  | bit :: bits, s, k =>
    sendBit bit s fun s sent =>
      if sent then
        send (i + 1) bits s k
      else if i % 8 = 0 ∧ s.error = .awaitTimeslotTimeoutHigh then
        k (s.fail .firstBitOfByteTimeout) false
      else
        k s false

/-- `cmd_search_rom` from the given rest of the key on. -/
def cmdSearchRom : List Bool → Session → (Session → Proc) → Proc
  | [], s, k => k s
  | bit :: key, s, k =>
    sendBit bit s fun s sent =>
      if sent then
        sendBit (!bit) s fun s sent =>
          if sent then
            receiveBit s fun s _ => if s.error ≠ .noError then k s else cmdSearchRom key s k
          else
            k s
      else
        k s

def receiveAndProcessCmd (id : Rom) (s : Session) (k : Session → Bool → Proc) : Proc :=
  receive 8 0 s fun s cmd =>
    if s.error = .resetInProgress then
      k s true
    else if s.error ≠ .noError then
      k s false
    else if cmd = 0xF0#8 then
      cmdSearchRom id.key s fun s => k s true
    else if cmd = 0x0F#8 ∨ cmd = 0x33#8 then
      send 0 id.key s fun s _ => k s true
    else
      k (s.fail .incorrectOneWireCmd) false

namespace OneWireSlave

/-- The slave's presence pulse begins with the first of the other parties' or at the timeout. -/
def presence (others : List Pulse) : Pulse :=
  let start := (others.map Pulse.start).foldr min OneWireEmulateTiming.presenceTimeout
  ⟨start, start + OneWireEmulateTiming.presenceMin⟩

/-- The wait of `show_presence` for a high line: the first high instant, unless it times out. -/
def highAfter (others : List Pulse) (stop : ℕ) : Option ℕ :=
  ((List.range (OneWireEmulateTiming.presenceMax - OneWireEmulateTiming.presenceMin)).map
    (stop + ·)).find? fun t => !lowAt others t

/-- `bus_start`: the pulse it shows, and what it does in the slots that follow. -/
def busStart (slave : OneWireSlave) (others : List Pulse) : Option (Pulse × Proc) :=
  slave.device.map fun id =>
    let pulse := presence others
    let proc := match highAfter others pulse.stop with
      | none => .done
      | some t =>
        let firstSlot := OneWireTiming.resetRelease + OneWireTiming.resetDelayPost
        receiveAndProcessCmd id ⟨.noError, 0, firstSlot - t⟩ fun _ _ => .done
    (pulse, proc)

end OneWireSlave

end FlipperZero.OneWire
