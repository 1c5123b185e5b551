import FlipperZero.Irda.Histories
import FlipperZero.Lib.CBuffer

/-! # The decoder in its memory

The buffer of timings and the bytes of a frame are arrays of fixed lengths; every access of the
decoder is checked. From the allocation on no access is out of bounds, whatever the timings and
their levels are, and what the arrays hold is the state of the decoder without them.
-/

namespace FlipperZero.Irda

open Lib

structure DecoderMemory where
  state : IrdaCommonState
  message : IrdaMessage
  timings : List ℕ
  timingsCnt : ℕ
  level : Bool
  databitCnt : ℕ
  data : List (BitVec 8)

/-- A protocol, with its functions on the memory of a decoder. -/
structure MemorySpec where
  timings : IrdaCommonDecoderTimings
  databitLen : ℕ
  decode : IrdaCommonDecoderTimings → ℕ → DecoderMemory → Option (DecodeStatus × DecoderMemory)
  interpret : DecoderMemory → Option (Bool × DecoderMemory)
  decodeRepeat : Option
    (IrdaCommonDecoderTimings → DecoderMemory → Option (DecodeStatus × DecoderMemory))

namespace DecoderMemory

def irdaCommonDecoderAlloc (p : MemorySpec) : DecoderMemory where
  state := .waitPreamble
  message := ⟨.samsung32, 0, 0, false⟩
  timings := List.replicate 6 0
  timingsCnt := 0
  level := false
  databitCnt := 0
  data := List.replicate (p.databitLen / 8 + if p.databitLen % 8 = 0 then 0 else 1) 0

/-- The first timings are left out of the count and shifted out of the array. -/
def dropTimings (m : DecoderMemory) (shift : ℕ) : Option DecoderMemory :=
  (CBuffer.shiftLeft shift (m.timingsCnt - shift) 0 m.timings).map fun timings =>
    { m with timings := timings, timingsCnt := m.timingsCnt - shift }

/-- The loop of `irda_check_preamble`, with the count of the timings. -/
def checkPreambleLoop (tm : IrdaCommonDecoderTimings) :
    ℕ → DecoderMemory → Option (Bool × DecoderMemory)
  | n + 2, m => do
    let mark ← m.timings[0]?
    let space ← m.timings[1]?
    let m ← m.dropTimings 2
    if tm.Preamble mark space then some (true, m) else checkPreambleLoop tm n m
  | _, m => some (false, m)

def startLevel (m : DecoderMemory) : Bool := (m.level.toNat + m.timingsCnt + 1) % 2 = 1

def align (m : DecoderMemory) : Option DecoderMemory :=
  if m.startLevel ∧ 0 < m.timingsCnt then m.dropTimings 1 else some m

def irdaCheckPreamble (tm : IrdaCommonDecoderTimings) (m : DecoderMemory) :
    Option (Bool × DecoderMemory) := do
  let m ← m.align
  checkPreambleLoop tm m.timingsCnt m

/-- Clear the byte of the next data bit before its first bit. -/
def clearByte (m : DecoderMemory) : Option DecoderMemory :=
  if m.databitCnt % 8 = 0 then
    (CBuffer.put m.data (m.databitCnt / 8) 0).map fun data => { m with data := data }
  else some m

def addBit (m : DecoderMemory) (bit : Bool) : Option DecoderMemory := do
  let byte ← m.data[m.databitCnt / 8]?
  let data ← if bit then
      CBuffer.put m.data (m.databitCnt / 8) (byte ||| BitVec.ofNat 8 (1 <<< (m.databitCnt % 8)))
    else some m.data
  some { m with data := data, databitCnt := m.databitCnt + 1 }

/-- The loop of `irda_common_decode_pdwm`, with the count of the timings. -/
def pdwmLoop (tm : IrdaCommonDecoderTimings) (len : ℕ) :
    ℕ → DecoderMemory → Option (DecodeStatus × DecoderMemory)
  | 0, m => some (.ok, m)
  | 1, m => do
    if m.databitCnt = len then
      let mark ← m.timings[0]?
      if matchBitTiming mark tm.bit1Mark tm.bitTolerance then
        some (.ready, { m with timingsCnt := 0 })
      else some (.error, m)
    else some (.ok, m)
  | n + 2, m => do
    let m ← m.clearByte
    let mark ← m.timings[0]?
    let space ← m.timings[1]?
    if matchBitTiming mark tm.bit1Mark tm.bitTolerance ∧
        matchBitTiming space tm.bit1Space tm.bitTolerance then
      let m ← m.addBit true
      let m ← m.dropTimings 2
      pdwmLoop tm len n m
    else if matchBitTiming mark tm.bit0Mark tm.bitTolerance ∧
        matchBitTiming space tm.bit0Space tm.bitTolerance then
      let m ← m.addBit false
      let m ← m.dropTimings 2
      pdwmLoop tm len n m
    else some (.error, m)

def irdaCommonDecodePdwm (tm : IrdaCommonDecoderTimings) (len : ℕ) (m : DecoderMemory) :
    Option (DecodeStatus × DecoderMemory) :=
  pdwmLoop tm len m.timingsCnt m

variable (p : MemorySpec)

def stepWaitPreamble (m : DecoderMemory) : Option (Option IrdaMessage × DecoderMemory) := do
  let (found, m) ← irdaCheckPreamble p.timings m
  some (none, if found then { m with state := .decode, databitCnt := 0 } else m)

def stepReady (m : DecoderMemory) : Option (Option IrdaMessage × DecoderMemory) := do
  let (taken, m) ← p.interpret m
  if taken then some (some m.message, { m with state := .processRepeat })
  else some (none, { m with state := .waitPreamble })

def stepDecode (m : DecoderMemory) : Option (Option IrdaMessage × DecoderMemory) := do
  let (status, m) ← p.decode p.timings p.databitLen m
  match status with
  | .ready => stepReady p m
  | .error => stepWaitPreamble p { m with state := .waitPreamble }
  | .ok => some (none, m)

def stepProcessRepeat (m : DecoderMemory) : Option (Option IrdaMessage × DecoderMemory) :=
  match p.decodeRepeat with
  | none => stepWaitPreamble p { m with state := .waitPreamble }
  | some decodeRepeat => do
    let (status, m) ← decodeRepeat p.timings m
    match status with
    | .error => stepWaitPreamble p { m with state := .waitPreamble }
    | .ready =>
      let message := { m.message with «repeat» := true }
      some (some message, { m with message := message })
    | .ok => some (none, m)

/-- The next timing in the array; the check compares its index with the size in bytes. -/
def put (m : DecoderMemory) (level : Bool) (duration : ℕ) : Option DecoderMemory := do
  let cnt := if m.level = level then 0 else m.timingsCnt
  let timings ← CBuffer.put m.timings cnt duration
  if cnt + 1 ≤ 4 * timings.length then
    some { m with level := level, timings := timings, timingsCnt := cnt + 1 }
  else none

/-- `irda_common_decode`, without assertions. -/
def irdaCommonDecode (m : DecoderMemory) (level : Bool) (duration : ℕ) :
    Option (Option IrdaMessage × DecoderMemory) := do
  let m ← m.put level duration
  match m.state with
  | .waitPreamble => stepWaitPreamble p m
  | .decode => stepDecode p m
  | .processRepeat => stepProcessRepeat p m

/-- The decoder after timings that come with their levels, unless an access was out of bounds. -/
def feed : DecoderMemory → List (Bool × ℕ) → Option DecoderMemory
  | m, [] => some m
  | m, (level, duration) :: ts =>
    (irdaCommonDecode p m level duration).bind fun next => feed next.2 ts

def interpretNec (m : DecoderMemory) : Option (Bool × DecoderMemory) := do
  let address0 ← m.data[0]?
  let address1 ← m.data[1]?
  let command ← m.data[2]?
  let commandInverse ← m.data[3]?
  let address : BitVec 16 := address0.zeroExtend 16 ||| address1.zeroExtend 16 <<< 8
  if command = ~~~commandInverse then
    some (true, { m with
      message := { m.message with
        command := BitVec.zeroExtend 32 command, address := BitVec.zeroExtend 32 address,
        «repeat» := false } })
  else some (false, m)

def decodeRepeatNec (tm : IrdaCommonDecoderTimings) (m : DecoderMemory) :
    Option (DecodeStatus × DecoderMemory) := do
  if m.timingsCnt < 4 then some (.ok, m)
  else
    let pause ← m.timings[0]?
    let mark ← m.timings[1]?
    let space ← m.timings[2]?
    let stop ← m.timings[3]?
    if NecRepeat tm pause mark space stop then some (.ready, { m with timingsCnt := 0 })
    else some (.error, m)

def interpretSamsung32 (m : DecoderMemory) : Option (Bool × DecoderMemory) := do
  let address1 ← m.data[0]?
  let address2 ← m.data[1]?
  let command ← m.data[2]?
  let commandInverse ← m.data[3]?
  if address1 = address2 ∧ command = ~~~commandInverse then
    some (true, { m with
      message := { m.message with
        command := BitVec.zeroExtend 32 command, address := BitVec.zeroExtend 32 address1,
        «repeat» := false } })
  else some (false, m)

def decodeRepeatSamsung32 (tm : IrdaCommonDecoderTimings) (m : DecoderMemory) :
    Option (DecodeStatus × DecoderMemory) := do
  if m.timingsCnt < 6 then some (.ok, m)
  else
    let pause ← m.timings[0]?
    let mark ← m.timings[1]?
    let space ← m.timings[2]?
    let bitMark ← m.timings[3]?
    let bitSpace ← m.timings[4]?
    let stop ← m.timings[5]?
    if Samsung32Repeat tm pause mark space bitMark bitSpace stop then
      some (.ready, { m with timingsCnt := 0 })
    else some (.error, m)

end DecoderMemory

def IrdaProtocol.memorySpec : IrdaProtocol → MemorySpec
  | samsung32 =>
    ⟨samsung32Timings, 32, DecoderMemory.irdaCommonDecodePdwm, DecoderMemory.interpretSamsung32,
      some DecoderMemory.decodeRepeatSamsung32⟩
  | nec =>
    ⟨necTimings, 32, DecoderMemory.irdaCommonDecodePdwm, DecoderMemory.interpretNec,
      some DecoderMemory.decodeRepeatNec⟩

end FlipperZero.Irda
