import FlipperZero.IButton.PulseSequencer
import FlipperZero.Lib.ShiftRegister

/-! # Cyfral keys

The emulator sends a start nibble and eight data nibbles, each of which has one zero that
tells two bits of the key. The decoder measures the low part of every bit against the whole,
and starts again after each attempt that fails.
-/

namespace FlipperZero.IButton

open Lib

namespace KeyEmulator

def cyfralPeriodFull : ℕ := 8000

def cyfralPeriod (bit : Bool) : List ℕ :=
  if bit then [cyfralPeriodFull * 33 / 100, cyfralPeriodFull * 66 / 100]
  else [cyfralPeriodFull * 66 / 100, cyfralPeriodFull * 33 / 100]

def cyfralNibble (value : BitVec 8) : List Bool :=
  if value = 0b11 then [true, true, true, false]
  else if value = 0b10 then [true, true, false, true]
  else if value = 0b01 then [true, false, true, true]
  else [false, true, true, true]

def cyfralBits (keyData : Vector (BitVec 8) 2) : List Bool :=
  let startNibble := [false, false, false, true]
  startNibble ++ [1, 0].flatMap fun i => [3, 2, 1, 0].flatMap fun j =>
    cyfralNibble ((keyData.getD i 0 >>> (j * 2)) &&& 0b11)

def startCyfralEmulate (keyData : Vector (BitVec 8) 2) : PulseSequencer :=
  .start ((cyfralBits keyData).flatMap cyfralPeriod) false

end KeyEmulator

namespace CyfralDecoder

inductive BitState where
  | waitFrontHigh
  | waitFrontLow
deriving DecidableEq

inductive State where
  | waitStartNibble
  | readNibble
  | readStopNibble
deriving DecidableEq

end CyfralDecoder

structure CyfralDecoder where
  state : CyfralDecoder.State
  bitState : CyfralDecoder.BitState
  periodTime : ℕ
  ready : Bool
  keyData : BitVec 16
  readedNibble : BitVec 8
  dataValid : Bool
  index : ℕ
  bitIndex : ℕ
  maxPeriod : ℕ

namespace CyfralDecoder

def clocksInUs : ℕ := 64

/-- A decoder with this `max_period` after `reset_state`. -/
def initial (maxPeriod : ℕ) : CyfralDecoder where
  state := .waitStartNibble
  bitState := .waitFrontLow
  periodTime := 0
  ready := false
  keyData := 0
  readedNibble := 0
  dataValid := true
  index := 0
  bitIndex := 0
  maxPeriod := maxPeriod

def resetState (s : CyfralDecoder) : CyfralDecoder := initial s.maxPeriod

/-- The result, the value when a bit was readed, and the decoder. -/
def processBit (s : CyfralDecoder) (polarity : Bool) (time : ℕ) :
    Bool × Option Bool × CyfralDecoder :=
  match s.bitState with
  | .waitFrontLow =>
    if polarity = true then
      let periodTime := (s.periodTime + time) % 2 ^ 32
      let s := { s with periodTime := periodTime, bitState := .waitFrontHigh }
      if periodTime ≤ s.maxPeriod then (true, some (!decide (periodTime / 2 > time)), s)
      else (false, none, s)
    else (false, none, s)
  | .waitFrontHigh =>
    if polarity = false then (true, none, { s with periodTime := time, bitState := .waitFrontLow })
    else (false, none, s)

def nibbleIndex (nibble : BitVec 8) : Option (BitVec 16) :=
  if nibble = 0b1110 then some 0b11
  else if nibble = 0b1101 then some 0b10
  else if nibble = 0b1011 then some 0b01
  else if nibble = 0b0111 then some 0b00
  else none

def takeNibble (s : CyfralDecoder) : CyfralDecoder :=
  let s := match nibbleIndex s.readedNibble with
    | some value => { s with keyData := s.keyData <<< 2 ||| value }
    | none => { s with dataValid := false }
  { s with readedNibble := 0, bitIndex := 0, index := s.index + 1 }

/-- What `process_front` does with a bit. -/
def takeBit (s : CyfralDecoder) (value : Bool) : CyfralDecoder :=
  match s.state with
  | .waitStartNibble =>
    let readedNibble := shiftIn s.readedNibble value &&& 0x0F
    if readedNibble = 0b0001 then { s with readedNibble := 0, state := .readNibble }
    else { s with readedNibble := readedNibble }
  | .readNibble =>
    let s := { s with readedNibble := shiftIn s.readedNibble value, bitIndex := s.bitIndex + 1 }
    let s := if s.bitIndex = 4 then s.takeNibble else s
    if s.index = 8 then { s with state := .readStopNibble } else s
  | .readStopNibble =>
    let s := { s with
      readedNibble := shiftIn s.readedNibble value &&& 0x0F
      bitIndex := s.bitIndex + 1 }
    if s.bitIndex ≤ 3 then s
    else if s.bitIndex = 4 then
      if s.readedNibble = 0b0001 then
        if s.dataValid then { s with ready := true } else s.resetState
      else s.resetState
    else s.resetState

def processFront (s : CyfralDecoder) (polarity : Bool) (time : ℕ) : CyfralDecoder :=
  let s := if s.maxPeriod = 0 then { s with maxPeriod := 230 * clocksInUs } else s
  if s.ready then s
  else
    match s.processBit polarity time with
    | (false, _, s) => s.resetState
    | (true, none, s) => s
    | (true, some value, s) => s.takeBit value

def keyBytes (keyData : BitVec 16) : Vector (BitVec 8) 2 :=
  #v[keyData.setWidth 8, (keyData >>> 8).setWidth 8]

def read (s : CyfralDecoder) : Option (Vector (BitVec 8) 2) × CyfralDecoder :=
  if s.ready then (some (keyBytes s.keyData), s.resetState) else (none, s)

def reader : PulseReader CyfralDecoder (Vector (BitVec 8) 2) := ⟨processFront, read, ready⟩

end CyfralDecoder

end FlipperZero.IButton
