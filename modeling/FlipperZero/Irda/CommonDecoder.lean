import FlipperZero.Lib.Rounding
import Mathlib.Data.List.Basic

/-! # The common infrared decoder

The decoder is fed one timing at a time and keeps the last few in a buffer. It
waits for a preamble, decodes pairs of a mark and a space to bits, and after a
message waits for repeats. A timing that fits nowhere sends it back to the
preamble with the buffer it has.
-/

namespace FlipperZero.Irda

open FlipperZero.Lib

/-- `MATCH_BIT_TIMING`; no protocol has a timing below its tolerance. -/
def matchBitTiming (x v delta : ℕ) : Prop := x < v + delta ∧ v - delta < x

instance (x v delta : ℕ) : Decidable (matchBitTiming x v delta) :=
  inferInstanceAs (Decidable (_ ∧ _))

/-- `MATCH_PREAMBLE_TIMING`, in the arithmetic of `float`. -/
def matchPreambleTiming (x v : ℕ) (delta : ℚ) : Prop :=
  binary32 x < binary32 (v * binary32 (1 + delta)) ∧
    binary32 (v * binary32 (1 - delta)) < binary32 x

instance (x v : ℕ) (delta : ℚ) : Decidable (matchPreambleTiming x v delta) :=
  inferInstanceAs (Decidable (_ ∧ _))

inductive IrdaProtocol where
  | samsung32
  | nec
  deriving DecidableEq, Repr

structure IrdaMessage where
  protocol : IrdaProtocol
  address : BitVec 32
  command : BitVec 32
  «repeat» : Bool
  deriving DecidableEq, Repr

inductive DecodeStatus where
  | error
  | ok
  | ready
  deriving DecidableEq, Repr

inductive IrdaCommonState where
  | waitPreamble
  | decode
  | processRepeat
  deriving DecidableEq, Repr

structure IrdaCommonDecoderTimings where
  preambleMark : ℕ
  preambleSpace : ℕ
  bit1Mark : ℕ
  bit1Space : ℕ
  bit0Mark : ℕ
  bit0Space : ℕ
  preambleTolerance : ℚ
  bitTolerance : ℕ

/-- The decoder; `timings` is the filled part of the buffer. -/
structure IrdaCommonDecoder where
  state : IrdaCommonState
  message : IrdaMessage
  timings : List ℕ
  /-- The level of the last timing; a space is the high one. -/
  level : Bool
  databitCnt : ℕ
  data : ℕ → BitVec 8

structure IrdaCommonProtocolSpec where
  timings : IrdaCommonDecoderTimings
  databitLen : ℕ
  decode : IrdaCommonDecoderTimings → ℕ → IrdaCommonDecoder → DecodeStatus × IrdaCommonDecoder
  interpret : IrdaCommonDecoder → Bool × IrdaCommonDecoder
  decodeRepeat :
    Option (IrdaCommonDecoderTimings → IrdaCommonDecoder → DecodeStatus × IrdaCommonDecoder)

/-- The decoder as `irda_common_decoder_alloc` leaves it, with all its memory zero. -/
def irdaCommonDecoderAlloc : IrdaCommonDecoder where
  state := .waitPreamble
  message := ⟨.samsung32, 0, 0, false⟩
  timings := []
  level := false
  databitCnt := 0
  data _ := 0

def IrdaCommonDecoderTimings.Preamble (tm : IrdaCommonDecoderTimings) (mark space : ℕ) : Prop :=
  matchPreambleTiming mark tm.preambleMark tm.preambleTolerance ∧
    matchPreambleTiming space tm.preambleSpace tm.preambleTolerance

instance (tm : IrdaCommonDecoderTimings) (mark space : ℕ) : Decidable (tm.Preamble mark space) :=
  inferInstanceAs (Decidable (_ ∧ _))

/-- The loop of `irda_check_preamble`, which drops the pairs that it looks at. -/
def checkPreambleLoop (tm : IrdaCommonDecoderTimings) : List ℕ → Bool × List ℕ
  | mark :: space :: rest =>
    if tm.Preamble mark space then (true, rest) else checkPreambleLoop tm rest
  | timings => (false, timings)

def startLevel (d : IrdaCommonDecoder) : Bool :=
  (d.level.toNat + d.timings.length + 1) % 2 = 1

def irdaCheckPreamble (tm : IrdaCommonDecoderTimings) (d : IrdaCommonDecoder) :
    Bool × IrdaCommonDecoder :=
  let timings := if startLevel d then d.timings.drop 1 else d.timings
  let (result, timings) := checkPreambleLoop tm timings
  (result, { d with timings := timings })

/-- Clear the byte of the data bit `cnt` before its first bit. -/
def clearByte (data : ℕ → BitVec 8) (cnt : ℕ) : ℕ → BitVec 8 :=
  if cnt % 8 = 0 then Function.update data (cnt / 8) 0 else data

/-- Set the data bit `cnt`, the least significant bit of a byte being the first. -/
def setBit (data : ℕ → BitVec 8) (cnt : ℕ) : ℕ → BitVec 8 :=
  Function.update data (cnt / 8) (data (cnt / 8) ||| BitVec.ofNat 8 (1 <<< (cnt % 8)))

/-- The loop of `irda_common_decode_pdwm` over the buffer. -/
def pdwmLoop (tm : IrdaCommonDecoderTimings) (len : ℕ) :
    List ℕ → ℕ → (ℕ → BitVec 8) → DecodeStatus × List ℕ × ℕ × (ℕ → BitVec 8)
  | [], cnt, data => (.ok, [], cnt, data)
  | [mark], cnt, data =>
    if cnt = len then
      if matchBitTiming mark tm.bit1Mark tm.bitTolerance then (.ready, [], cnt, data)
      else (.error, [mark], cnt, data)
    else (.ok, [mark], cnt, data)
  | mark :: space :: rest, cnt, data =>
    let data := clearByte data cnt
    if matchBitTiming mark tm.bit1Mark tm.bitTolerance ∧
        matchBitTiming space tm.bit1Space tm.bitTolerance then
      pdwmLoop tm len rest (cnt + 1) (setBit data cnt)
    else if matchBitTiming mark tm.bit0Mark tm.bitTolerance ∧
        matchBitTiming space tm.bit0Space tm.bitTolerance then
      pdwmLoop tm len rest (cnt + 1) data
    else (.error, mark :: space :: rest, cnt, data)

def irdaCommonDecodePdwm (tm : IrdaCommonDecoderTimings) (len : ℕ) (d : IrdaCommonDecoder) :
    DecodeStatus × IrdaCommonDecoder :=
  let (status, timings, cnt, data) := pdwmLoop tm len d.timings d.databitCnt d.data
  (status, { d with timings := timings, databitCnt := cnt, data := data })

/-- The step of `irda_common_decode` in the state `IrdaCommonStateWaitPreamble`. -/
def stepWaitPreamble (p : IrdaCommonProtocolSpec) (d : IrdaCommonDecoder) : IrdaCommonDecoder :=
  match irdaCheckPreamble p.timings d with
  | (true, d) => { d with state := .decode, databitCnt := 0 }
  | (false, d) => d

theorem checkPreambleLoop_pair (tm : IrdaCommonDecoderTimings) (mark space : ℕ) (rest : List ℕ) :
    checkPreambleLoop tm (mark :: space :: rest) =
      if tm.Preamble mark space then (true, rest) else checkPreambleLoop tm rest := rfl

theorem stepWaitPreamble_eq (p : IrdaCommonProtocolSpec) (d : IrdaCommonDecoder) {found : Bool}
    {rest : List ℕ} (h : checkPreambleLoop p.timings
      (if startLevel d then d.timings.drop 1 else d.timings) = (found, rest)) :
    stepWaitPreamble p d =
      if found then { d with timings := rest, state := .decode, databitCnt := 0 }
      else { d with timings := rest } := by
  rw [stepWaitPreamble, irdaCheckPreamble]
  simp only [h]
  cases found <;> rfl

def stepReady (p : IrdaCommonProtocolSpec) (d : IrdaCommonDecoder) :
    Option IrdaMessage × IrdaCommonDecoder :=
  match p.interpret d with
  | (true, d) => (some d.message, { d with state := .processRepeat })
  | (false, d) => (none, { d with state := .waitPreamble })

def stepDecode (p : IrdaCommonProtocolSpec) (d : IrdaCommonDecoder) :
    Option IrdaMessage × IrdaCommonDecoder :=
  match p.decode p.timings p.databitLen d with
  | (.ready, d) => stepReady p d
  | (.error, d) => (none, stepWaitPreamble p { d with state := .waitPreamble })
  | (.ok, d) => (none, d)

def stepProcessRepeat (p : IrdaCommonProtocolSpec) (d : IrdaCommonDecoder) :
    Option IrdaMessage × IrdaCommonDecoder :=
  match p.decodeRepeat with
  | none => (none, stepWaitPreamble p { d with state := .waitPreamble })
  | some decodeRepeat =>
    match decodeRepeat p.timings d with
    | (.error, d) => (none, stepWaitPreamble p { d with state := .waitPreamble })
    | (.ready, d) =>
      let message := { d.message with «repeat» := true }
      (some message, { d with message := message })
    | (.ok, d) => (none, d)

/-- `irda_common_decode`; a level that does not alternate empties the buffer. -/
def irdaCommonDecode (p : IrdaCommonProtocolSpec) (d : IrdaCommonDecoder) (level : Bool)
    (duration : ℕ) : Option IrdaMessage × IrdaCommonDecoder :=
  let timings := if d.level = level then [] else d.timings
  let d := { d with level := level, timings := timings ++ [duration] }
  match d.state with
  | .waitPreamble => (none, stepWaitPreamble p d)
  | .decode => stepDecode p d
  | .processRepeat => stepProcessRepeat p d

theorem timings_of_alternates {d : IrdaCommonDecoder} {level : Bool}
    (hl : d.level = level → d.timings = []) :
    (if d.level = level then [] else d.timings) = d.timings := by
  split
  · next h => exact (hl h).symm
  · rfl

/-- The next timing of a stream with alternating levels. -/
def receive (p : IrdaCommonProtocolSpec) (d : IrdaCommonDecoder) (duration : ℕ) :
    Option IrdaMessage × IrdaCommonDecoder :=
  irdaCommonDecode p d (!d.level) duration

/-- The decoder after a stream of timings, from the space that it starts with. -/
def decoderAfter (p : IrdaCommonProtocolSpec) (d : IrdaCommonDecoder) : List ℕ → IrdaCommonDecoder
  | [] => d
  | x :: xs => decoderAfter p (receive p d x).2 xs

/-- The messages that the decoder returns over a stream, in order. -/
def messages (p : IrdaCommonProtocolSpec) (d : IrdaCommonDecoder) : List ℕ → List IrdaMessage
  | [] => []
  | x :: xs => (receive p d x).1.toList ++ messages p (receive p d x).2 xs

/-- The message that a fresh decoder returns at the last timing of the stream. -/
def messageAt (p : IrdaCommonProtocolSpec) (ts : List ℕ) : Option IrdaMessage :=
  match ts.getLast? with
  | none => none
  | some x => (receive p (decoderAfter p irdaCommonDecoderAlloc ts.dropLast) x).1

end FlipperZero.Irda
