import FlipperZero.LfRfid.EmMarinAir
import FlipperZero.LfRfid.ProtocolHid10301
import FlipperZero.Lib.CycleCount

/-! # HID H10301 over the air

The encoder sends the card data for ever, a zero as six cycles of eight clocks and a one as five
cycles of ten. The decoder measures the cycles from falling edge to falling edge and counts them to
bits. The times are free as long as the cycles of a bit are told for what they are, edges are
dropped while decoded card data waits to be read, and the polls come at arbitrary times.
-/

namespace FlipperZero.LfRfid

open Lib ProtocolHID10301

structure EncoderHIDH10301 where
  cardData : HID10301CardData
  cardDataIndex : ℕ
  bitIndex : ℕ

namespace EncoderHIDH10301

def hid0Period : ℕ := 8
def hid0Count : ℕ := 6
def hid1Period : ℕ := 10
def hid1Count : ℕ := 5

def init (d : Vector (BitVec 8) 3) : EncoderHIDH10301 := ⟨encode d, 0, 0⟩

def bit (e : EncoderHIDH10301) : Bool :=
  (word e.cardData (e.cardDataIndex / 32)).getLsbD (31 - e.cardDataIndex % 32)

/-- The indices behind a cycle of a bit that has so many. -/
def advance (e : EncoderHIDH10301) (count : ℕ) : EncoderHIDH10301 :=
  if e.bitIndex + 1 ≥ count then
    { e with
      bitIndex := 0
      cardDataIndex := if e.cardDataIndex + 1 ≥ 32 * 3 then 0 else e.cardDataIndex + 1 }
  else { e with bitIndex := e.bitIndex + 1 }

def getNext (e : EncoderHIDH10301) : EncodedPulse × EncoderHIDH10301 :=
  if e.bit then (⟨true, hid1Period, hid1Period / 2⟩, e.advance hid1Count)
  else (⟨true, hid0Period, hid0Period / 2⟩, e.advance hid0Count)

/-- The encoder after `n` calls of `get_next`. -/
def after (e : EncoderHIDH10301) : ℕ → EncoderHIDH10301
  | 0 => e
  | n + 1 => (e.after n).getNext.2

/-- Whether cycle `n` of the waveform is one of a one. -/
def isOne (e : EncoderHIDH10301) (n : ℕ) : Bool :=
  decide ((e.after n).getNext.1.period = hid1Period)

end EncoderHIDH10301

namespace DecoderHID26

def clocksInUs : UInt32 := 64
def jitterTimeUs : UInt32 := 20
def minTimeUs : UInt32 := 64
def maxTimeUs : UInt32 := 80

def minTime : UInt32 := (minTimeUs - jitterTimeUs) * clocksInUs
def midTime : UInt32 := ((maxTimeUs - minTimeUs) / 2 + minTimeUs) * clocksInUs
def maxTime : UInt32 := (maxTimeUs + jitterTimeUs) * clocksInUs

end DecoderHID26

structure DecoderHID26 where
  lastPulseTime : UInt32
  lastPulse : Bool
  pulseCount : ℕ
  storedData : HID10301CardData
  ready : Bool

namespace DecoderHID26

/-- The decoder as its constructor leaves it, by `reset_state`. -/
def resetState : DecoderHID26 := ⟨0, false, 0, Vector.replicate 3 0, false⟩

def read (s : DecoderHID26) : Option (Vector (BitVec 8) 3) × DecoderHID26 :=
  if s.ready then (some (decode s.storedData), { s with ready := false }) else (none, s)

def storeData (s : DecoderHID26) (data : Bool) : DecoderHID26 :=
  let storedData := shiftWords s.storedData data
  { s with storedData, ready := if canBeDecoded storedData then true else s.ready }

/-- The pulse that a cycle of this time is taken for. -/
def pulseOf (time : UInt32) : Option Bool :=
  if time > minTime ∧ time < maxTime then some (decide ¬time < midTime) else none

/-- The count with a pulse, and the bit to be stored. -/
def countPulse (s : DecoderHID26) (pulse : Bool) : DecoderHID26 × Option Bool :=
  if s.lastPulse = pulse then
    let pulseCount := s.pulseCount + 1
    if pulse then
      if pulseCount > 4 then ({ s with pulseCount := 0 }, some true)
      else ({ s with pulseCount }, none)
    else
      if pulseCount > 5 then ({ s with pulseCount := 0 }, some false)
      else ({ s with pulseCount }, none)
  else
    ({ s with pulseCount := 0, lastPulse := pulse },
      if s.lastPulse then
        if s.pulseCount > 2 then some true else none
      else
        if s.pulseCount > 3 then some false else none)

/-- The decoder with a pulse, and the bit that it stores. -/
def takePulse (s : DecoderHID26) (pulse : Bool) : DecoderHID26 × Option Bool :=
  match s.countPulse pulse with
  | (s, none) => (s, none)
  | (s, some data) => (s.storeData data, some data)

/-- The decoder after an edge, and the bit that it stores. -/
def processFront (s : DecoderHID26) (polarity : Bool) (time : UInt32) :
    DecoderHID26 × Option Bool :=
  if s.ready then (s, none)
  else if polarity then ({ s with lastPulseTime := time }, none)
  else
    let s := { s with lastPulseTime := s.lastPulseTime + time }
    match pulseOf s.lastPulseTime with
    | none => (s, none)
    | some pulse => s.takePulse pulse

/-- The times of a cycle between falling edges that belongs to a cycle of the encoder and the next
one. Where both are of one kind, it is told for that kind. -/
def InTime (isOne next : Bool) (time : ℕ) : Prop :=
  minTime.toNat < time ∧ time < maxTime.toNat ∧
    (isOne = next → (isOne = true ↔ midTime.toNat ≤ time))

instance (isOne next : Bool) (time : ℕ) : Decidable (InTime isOne next time) :=
  inferInstanceAs (Decidable (_ ∧ _ ∧ (_ → _)))

end DecoderHID26

/-- The decoder in a cycle of the waveform, while that is high or behind its falling edge, with the
time since the last falling edge up to the last edge. The bits `stored` are those since the cycle in
which the decoder came in, at the start or as an edge was dropped. -/
structure HidAir where
  decoder : DecoderHID26
  cycle : ℕ
  high : Bool
  since : Option ℕ
  entry : ℕ
  stored : List Bool
  reads : List (Vector (BitVec 8) 3)

namespace HidAir

def front (s : HidAir) (polarity : Bool) (time : UInt32) : HidAir :=
  let next := s.decoder.processFront polarity time
  { s with
    decoder := next.1
    entry := if s.decoder.ready then s.cycle else s.entry
    stored := if s.decoder.ready then [] else s.stored ++ next.2.toList }

def risen (s : HidAir) (time : UInt32) : HidAir :=
  { s with cycle := s.cycle + 1, high := true, since := s.since.map (· + time.toNat) }

def fallen (s : HidAir) : HidAir := { s with high := false, since := some 0 }

def rise (s : HidAir) (time : UInt32) : HidAir := (s.risen time).front true time

def fall (s : HidAir) (time : UInt32) : HidAir := s.fallen.front false time

def poll (s : HidAir) : HidAir :=
  { s with decoder := s.decoder.read.2, reads := s.reads ++ s.decoder.read.1.toList }

end HidAir

inductive HidLabel where
  | rise (time : UInt32)
  | fall (time : UInt32)
  | poll

/-- The decoder started at an offset into the waveform of a payload, with any times that the cycles
allow and polls at any time. -/
def hidAir (d : Vector (BitVec 8) 3) (start : ℕ) (high : Bool) : Machine HidAir HidLabel where
  init := ⟨.resetState, start, high, none, start, [], []⟩
  next s
    | .rise time => if s.high then none else some (s.rise time)
    | .fall time =>
      let isOne := (EncoderHIDH10301.init d).isOne
      if s.high ∧ ∀ x ∈ s.since, DecoderHID26.InTime (isOne (s.cycle - 1)) (isOne s.cycle)
        (x + time.toNat) then some (s.fall time) else none
    | .poll => some s.poll

section Waveform

def hidBit (d : Vector (BitVec 8) 3) (n : ℕ) : Bool := (register (encode d)).getMsbD (n % 96)

def hidCount (bit : Bool) : ℕ :=
  if bit then EncoderHIDH10301.hid1Count else EncoderHIDH10301.hid0Count

/-- The bit of the stream that cycle `n` belongs to, and the cycles of it before. -/
def hidPlace (d : Vector (BitVec 8) 3) (n : ℕ) : Place := (Place.next hidCount (hidBit d))^[n] ⟨0, 0⟩

variable {d : Vector (BitVec 8) 3} {n : ℕ}

theorem hidPlace_succ (d : Vector (BitVec 8) 3) (n : ℕ) :
    hidPlace d (n + 1) = (hidPlace d n).next hidCount (hidBit d) :=
  Function.iterate_succ_apply' _ n _

theorem bit_encoder (p : Place) :
    (⟨encode d, p.bit % 96, p.offset⟩ : EncoderHIDH10301).bit = hidBit d p.bit := by
  have hlt : p.bit % 96 < 96 := Nat.mod_lt _ (by decide)
  have hin : p.bit % 96 % 32 < 32 := Nat.mod_lt _ (by decide)
  rw [hidBit, getMsbD_register hlt, BitVec.getMsbD_eq_getLsbD, decide_eq_true hin, Bool.true_and]
  rfl

theorem getNext_encoder (p : Place) : (⟨encode d, p.bit % 96, p.offset⟩ : EncoderHIDH10301).getNext.2 =
    ⟨encode d, (p.next hidCount (hidBit d)).bit % 96, (p.next hidCount (hidBit d)).offset⟩ := by
  have hadvance (count : ℕ) : (⟨encode d, p.bit % 96, p.offset⟩ : EncoderHIDH10301).advance count =
      if p.offset + 1 < count then ⟨encode d, p.bit % 96, p.offset + 1⟩
      else ⟨encode d, (p.bit + 1) % 96, 0⟩ := by
    rw [EncoderHIDH10301.advance]
    by_cases h : p.offset + 1 < count
    · rw [if_neg (Nat.not_le.mpr h), if_pos h]
    · rw [if_pos (Nat.not_lt.mp h), if_neg h]
      simp only [EncoderHIDH10301.mk.injEq, true_and, and_true]
      split <;> omega
  rw [EncoderHIDH10301.getNext, bit_encoder, Place.next, hidCount]
  split
  · rw [hadvance]
    split <;> rfl
  · rw [hadvance]
    split <;> rfl

theorem after_hidInit (d : Vector (BitVec 8) 3) (n : ℕ) : (EncoderHIDH10301.init d).after n =
    ⟨encode d, (hidPlace d n).bit % 96, (hidPlace d n).offset⟩ := by
  induction n with
  | zero => rfl
  | succ n ih => rw [EncoderHIDH10301.after, ih, getNext_encoder, hidPlace_succ]

theorem isOne_init (d : Vector (BitVec 8) 3) (n : ℕ) :
    (EncoderHIDH10301.init d).isOne n = hidBit d (hidPlace d n).bit := by
  rw [EncoderHIDH10301.isOne, after_hidInit, EncoderHIDH10301.getNext, bit_encoder]
  cases hidBit d (hidPlace d n).bit <;> rfl

end Waveform

end FlipperZero.LfRfid
