import FlipperZero.IButton.PulseSequencer
import FlipperZero.Lib.ShiftRegister

/-! # Metakom keys

The emulator sends a long start pulse, three start bits and the four bytes of the key. The
decoder averages the period of ten bits, waits for the start pulse, and tells every bit by
its low part; it drops a byte of odd parity.
-/

namespace FlipperZero.IButton

open Lib

namespace KeyEmulator

def metakomPeriodFull : ℕ := 8000

def metakomStartPulse : ℕ := metakomPeriodFull * 4

def metakomPeriod (bit : Bool) : List ℕ :=
  if bit then [metakomPeriodFull * 66 / 100, metakomPeriodFull * 33 / 100]
  else [metakomPeriodFull * 33 / 100, metakomPeriodFull * 66 / 100]

def metakomBits (keyData : Vector (BitVec 8) 4) : List Bool :=
  let startTriplet := [false, true, false]
  startTriplet ++ [3, 2, 1, 0].flatMap fun i => [7, 6, 5, 4, 3, 2, 1, 0].map fun j =>
    decide ((keyData.getD i 0 >>> j) &&& 0b00000001 = 1)

def startMetakomEmulate (keyData : Vector (BitVec 8) 4) : PulseSequencer :=
  .start (metakomStartPulse :: (metakomBits keyData).flatMap metakomPeriod) false

end KeyEmulator

namespace MetakomDecoder

inductive BitState where
  | waitFrontHigh
  | waitFrontLow
deriving DecidableEq

inductive State where
  | waitPeriodSync
  | waitStartBit
  | waitStartWord
  | readWord
  | readStopWord
deriving DecidableEq

end MetakomDecoder

/-- The decoder without `max_period`, which nothing reads. -/
structure MetakomDecoder where
  bitState : MetakomDecoder.BitState
  state : MetakomDecoder.State
  periodTime : ℕ
  lowTimeStorage : ℕ
  periodSampleIndex : ℕ
  periodSampleData : List ℕ
  ready : Bool
  tmpData : BitVec 8
  tmpCounter : ℕ
  keyData : BitVec 32
  keyDataIndex : ℕ

namespace MetakomDecoder

def periodSampleCount : ℕ := 10

/-- A decoder with this stored low time after `reset_state`. -/
def initial (lowTimeStorage : ℕ) : MetakomDecoder where
  bitState := .waitFrontLow
  state := .waitPeriodSync
  periodTime := 0
  lowTimeStorage := lowTimeStorage
  periodSampleIndex := 0
  periodSampleData := List.replicate periodSampleCount 0
  ready := false
  tmpData := 0
  tmpCounter := 0
  keyData := 0
  keyDataIndex := 0

def resetState (s : MetakomDecoder) : MetakomDecoder := initial s.lowTimeStorage

def parityCheck (data : BitVec 8) : Bool :=
  let onesCount := (List.range 8).foldl
    (fun onesCount i => if (data >>> i) &&& 0b00000001 = 1 then onesCount + 1 else onesCount) 0
  decide (onesCount % 2 = 0)

/-- The high time and the low time when a bit has ended, and the decoder. -/
def processBit (s : MetakomDecoder) (polarity : Bool) (time : ℕ) :
    Option (ℕ × ℕ) × MetakomDecoder :=
  match s.bitState with
  | .waitFrontLow =>
    if polarity = false then (some (time, s.lowTimeStorage), { s with bitState := .waitFrontHigh })
    else (none, s)
  | .waitFrontHigh =>
    if polarity = true then (none, { s with lowTimeStorage := time, bitState := .waitFrontLow })
    else (none, s)

/-- The next bit of `tmp_data`. -/
def readBit (s : MetakomDecoder) (lowTime : ℕ) : Bool := !decide (lowTime < s.periodTime / 2)

/-- What `process_front` does with the times of a bit. -/
def takeBit (s : MetakomDecoder) (highTime lowTime : ℕ) : MetakomDecoder :=
  match s.state with
  | .waitPeriodSync =>
    let s := { s with
      periodSampleData := s.periodSampleData.set s.periodSampleIndex ((highTime + lowTime) % 2 ^ 32)
      periodSampleIndex := s.periodSampleIndex + 1 }
    if s.periodSampleIndex = periodSampleCount then
      let periodTime := s.periodSampleData.foldl (fun t sample => (t + sample) % 2 ^ 32) s.periodTime
      { s with periodTime := periodTime / periodSampleCount, state := .waitStartBit }
    else s
  | .waitStartBit =>
    let s := { s with tmpCounter := s.tmpCounter + 1 }
    let s := if highTime > s.periodTime then { s with tmpCounter := 0, state := .waitStartWord } else s
    if s.tmpCounter > 40 then s.resetState else s
  | .waitStartWord =>
    let s := { s with
      tmpData := shiftIn s.tmpData (s.readBit lowTime), tmpCounter := s.tmpCounter + 1 }
    if s.tmpCounter = 3 then
      if s.tmpData = 0b010 then { s with tmpCounter := 0, tmpData := 0, state := .readWord }
      else s.resetState
    else s
  | .readWord =>
    let s := { s with
      tmpData := shiftIn s.tmpData (s.readBit lowTime), tmpCounter := s.tmpCounter + 1 }
    if s.tmpCounter = 8 then
      if parityCheck s.tmpData then
        let s := { s with
          keyData := s.keyData <<< 8 ||| s.tmpData.setWidth 32
          keyDataIndex := s.keyDataIndex + 1
          tmpData := 0
          tmpCounter := 0 }
        if s.keyDataIndex = 4 then
          if highTime > s.periodTime then { s with state := .readStopWord } else s.resetState
        else s
      else s.resetState
    else s
  | .readStopWord =>
    let s := { s with
      tmpData := shiftIn s.tmpData (s.readBit lowTime), tmpCounter := s.tmpCounter + 1 }
    if s.tmpCounter = 3 then
      if s.tmpData = 0b010 then { s with ready := true } else s.resetState
    else s

def processFront (s : MetakomDecoder) (polarity : Bool) (time : ℕ) : MetakomDecoder :=
  if s.ready then s
  else
    match s.processBit polarity time with
    | (none, s) => s
    | (some (highTime, lowTime), s) => s.takeBit highTime lowTime

def keyBytes (keyData : BitVec 32) : Vector (BitVec 8) 4 :=
  Vector.ofFn fun i : Fin 4 => (keyData >>> (8 * (i : ℕ))).setWidth 8

def read (s : MetakomDecoder) : Option (Vector (BitVec 8) 4) × MetakomDecoder :=
  if s.ready then (some (keyBytes s.keyData), s.resetState) else (none, s)

def reader : PulseReader MetakomDecoder (Vector (BitVec 8) 4) := ⟨processFront, read, ready⟩

end MetakomDecoder

end FlipperZero.IButton
