import FlipperZero.LfRfid.HidAir
import FlipperZero.LfRfid.ProtocolIndala40134
import FlipperZero.LfRfid.PulseJoiner
import Mathlib.Logic.Function.Basic

/-! # The emulation of cards

The emulator has an encoder for each type of card and one pulse joiner. In the interrupt of the
timer it takes pulses from the current encoder until the joiner gives one to the timer. A check
that fails, and a callback without an encoder, are `none`.
-/

namespace FlipperZero.LfRfid

inductive EmulatorType where
  | em
  | hidH10301
  | indala40134
deriving DecidableEq, Repr

/-- What the callback hands from an encoder to the joiner. -/
def EncodedPulse.push (p : EncodedPulse) : PushPulse := ⟨p.polarity, p.period, p.pulse⟩

structure EncoderIndala40134 where
  cardData : BitVec 64
  cardDataIndex : ℕ
  bitClockIndex : ℕ
  lastBit : Bool
  currentPolarity : Bool

namespace EncoderIndala40134

def clockPerBit : ℕ := 16

def init (e : EncoderIndala40134) (data : Vector (BitVec 8) 3) : EncoderIndala40134 :=
  let cardData := ProtocolIndala40134.encode data
  { e with
    cardData
    lastBit := cardData.getLsbD 0
    cardDataIndex := 0
    currentPolarity := true }

def getNext (e : EncoderIndala40134) : EncodedPulse × EncoderIndala40134 :=
  (⟨e.currentPolarity, 2, 1⟩,
    let bitClockIndex := e.bitClockIndex + 1
    if clockPerBit ≤ bitClockIndex then
      let currentBit := e.cardData.getLsbD (63 - e.cardDataIndex)
      let cardDataIndex := e.cardDataIndex + 1
      { e with
        bitClockIndex := 0
        currentPolarity := if currentBit ≠ e.lastBit then !e.currentPolarity else e.currentPolarity
        lastBit := currentBit
        cardDataIndex := if 64 ≤ cardDataIndex then 0 else cardDataIndex }
    else { e with bitClockIndex })

end EncoderIndala40134

def Encoder : EmulatorType → Type
  | .em => EncoderEM
  | .hidH10301 => EncoderHIDH10301
  | .indala40134 => EncoderIndala40134

namespace Encoder

def new : (type : EmulatorType) → Encoder type
  | .em => (⟨0, 0⟩ : EncoderEM)
  | .hidH10301 => (⟨.replicate 3 0, 0, 0⟩ : EncoderHIDH10301)
  | .indala40134 => (⟨0, 0, 0, false, false⟩ : EncoderIndala40134)

/-- The data that `start` gives to the encoders. -/
def init : {type : EmulatorType} → Encoder type → Encoder type
  | .em, _ => EncoderEM.init #v[0x53#8, 0x00#8, 0x5F#8, 0xB3#8, 0xC2#8]
  | .hidH10301, _ => EncoderHIDH10301.init #v[0xED#8, 0x87#8, 0x70#8]
  | .indala40134, e => EncoderIndala40134.init e #v[0x1F#8, 0x2E#8, 0x3D#8]

def getNext : {type : EmulatorType} → Encoder type → EncodedPulse × Encoder type
  | .em, e => EncoderEM.getNext e
  | .hidH10301, e => EncoderHIDH10301.getNext e
  | .indala40134, e => EncoderIndala40134.getNext e

variable {type : EmulatorType}

/-- The encoder after `n` pulses. -/
def after : ℕ → Encoder type → Encoder type
  | 0, e => e
  | n + 1, e => after n e.getNext.2

/-- The first `n` pulses of an encoder. -/
def pulses : ℕ → Encoder type → List PushPulse
  | 0, _ => []
  | n + 1, e => e.getNext.1.push :: pulses n e.getNext.2

end Encoder

/-- The loop of the callback over the encoder and the joiner; from a state that is reached it needs
at most three rounds. -/
def pushUntil {type : EmulatorType} :
    ℕ → Encoder type → PulseJoiner → Option (Encoder type × PulseJoiner)
  | 0, _, _ => none
  | n + 1, e, s =>
    (s.pushPulse e.getNext.1.push).bind fun r =>
      if r.1 then some (e.getNext.2, r.2) else pushUntil n e.getNext.2 r.2

def maxPushes : ℕ := 3

structure EmulateSetting where
  period : ℕ
  pulse : ℕ
deriving DecidableEq, Repr

/-- `period - 1` is converted to 32 bits. -/
def PopPulse.setting (p : PopPulse) : EmulateSetting :=
  ⟨(p.period + (2 ^ 32 - 1)) % 2 ^ 32, p.pulse⟩

structure RfidTimerEmulator where
  currentEncoder : Option EmulatorType
  encoders : (type : EmulatorType) → Encoder type
  pulseJoiner : PulseJoiner
  /-- Whether the callback is the one of the timer interrupt. -/
  registered : Bool

namespace RfidTimerEmulator

def new : RfidTimerEmulator := ⟨none, Encoder.new, .init, false⟩

def start (s : RfidTimerEmulator) (type : EmulatorType) : Option RfidTimerEmulator :=
  if s.registered then none
  else some { s with
    currentEncoder := some type
    encoders := Function.update s.encoders type (s.encoders type).init
    registered := true }

def stop (s : RfidTimerEmulator) : RfidTimerEmulator := { s with registered := false }

def timerUpdateCallback (s : RfidTimerEmulator) : Option (EmulateSetting × RfidTimerEmulator) :=
  s.currentEncoder.bind fun type =>
    (pushUntil maxPushes (s.encoders type) s.pulseJoiner).bind fun r =>
      r.2.popPulse.map fun p =>
        (p.1.setting, { s with
          encoders := Function.update s.encoders type r.1
          pulseJoiner := p.2 })

inductive Event where
  | start (type : EmulatorType)
  | stop
  /-- An interrupt of the timer of the emulation, or of another timer. -/
  | interrupt (emulate : Bool)

def step (s : RfidTimerEmulator) : Event → Option RfidTimerEmulator
  | .start type => s.start type
  | .stop => some s.stop
  | .interrupt emulate =>
    if s.registered && emulate then s.timerUpdateCallback.map Prod.snd else some s

/-- What the first `n` interrupts set. -/
def settings : ℕ → RfidTimerEmulator → Option (List EmulateSetting)
  | 0, _ => some []
  | n + 1, s => s.timerUpdateCallback.bind fun r => (settings n r.2).map (r.1 :: ·)

end RfidTimerEmulator

end FlipperZero.LfRfid
