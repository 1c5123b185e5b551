import FlipperZero.LfRfid.EmMarinSplice
import FlipperZero.Lib.Machine

/-! # EM-Marin over the air

The encoder sends the card data for ever, each bit as two half-bits of opposite levels.
The decoder sees the edges of this waveform with the time since the edge before, drops
them while a decoded frame waits to be read, and is polled at arbitrary times.
-/

namespace FlipperZero.LfRfid

open Lib

inductive ManchesterEvent where
  | shortLow
  | shortHigh
  | longLow
  | longHigh
  | reset
deriving DecidableEq, Repr

inductive ManchesterState where
  | start1
  | mid1
  | mid0
  | start0
deriving DecidableEq, Repr

namespace ManchesterEvent

def code : ManchesterEvent → ℕ
  | shortLow => 0
  | shortHigh => 2
  | longLow => 4
  | longHigh => 6
  | reset => 8

end ManchesterEvent

namespace ManchesterState

def transitions : ManchesterState → BitVec 8
  | start1 => 0b00000001
  | mid1 => 0b10010001
  | mid0 => 0b10011011
  | start0 => 0b11111011

def ofCode (c : BitVec 8) : ManchesterState :=
  if c = 0 then start1 else if c = 1 then mid1 else if c = 2 then mid0 else start0

end ManchesterState

/-- The next state, and the bit that an edge in the middle of a bit gives. -/
def manchesterAdvance (state : ManchesterState) (event : ManchesterEvent) :
    ManchesterState × Option Bool :=
  if event = .reset then
    (.mid1, none)
  else
    let newState := ManchesterState.ofCode ((state.transitions >>> event.code) &&& 3)
    if newState = state then (.mid1, none)
    else (newState, match newState with
      | .mid0 => some false
      | .mid1 => some true
      | _ => none)

namespace EncoderEM

def clocksPerBit : ℕ := 64

end EncoderEM

structure EncoderEM where
  cardData : BitVec 64
  cardDataIndex : ℕ

/-- What `get_next` gives: a pulse of the polarity, and the rest of the period of the other. -/
structure EncodedPulse where
  polarity : Bool
  period : ℕ
  pulse : ℕ

namespace EncoderEM

def init (d : Vector (BitVec 8) 5) : EncoderEM := ⟨ProtocolEMMarin.encode d, 0⟩

def getNext (e : EncoderEM) : EncodedPulse × EncoderEM :=
  let index := e.cardDataIndex + 1
  (⟨e.cardData.getLsbD (63 - e.cardDataIndex), clocksPerBit, clocksPerBit / 2⟩,
    { e with cardDataIndex := if index ≥ 64 then 0 else index })

/-- The encoder after `n` calls of `get_next`. -/
def after (e : EncoderEM) : ℕ → EncoderEM
  | 0 => e
  | n + 1 => (e.after n).getNext.2

/-- The level in half-bit `h` of the waveform. -/
def level (e : EncoderEM) (h : ℕ) : Bool :=
  let next := (e.after (h / 2)).getNext.1
  if h % 2 = 0 then next.polarity else !next.polarity

end EncoderEM

namespace DecoderEMMarine

def clocksInUs : ℕ := 64
def shortTime : ℕ := 255 * clocksInUs
def longTime : ℕ := 510 * clocksInUs
def jitterTime : ℕ := 100 * clocksInUs

end DecoderEMMarine

structure DecoderEMMarine where
  readedData : BitVec 64
  ready : Bool
  manchesterSavedState : ManchesterState

namespace DecoderEMMarine

/-- The decoder as its constructor leaves it, by `reset_state`. -/
def resetState : DecoderEMMarine := ⟨0, false, .mid1⟩

def read (s : DecoderEMMarine) : Option (Vector (BitVec 8) 5) × DecoderEMMarine :=
  if s.ready then (some (ProtocolEMMarin.decode s.readedData), { s with ready := false })
  else (none, s)

def eventOf (polarity : Bool) (time : ℕ) : ManchesterEvent :=
  if shortTime - jitterTime < time ∧ time < shortTime + jitterTime then
    if polarity then .shortHigh else .shortLow
  else if longTime - jitterTime < time ∧ time < longTime + jitterTime then
    if polarity then .longHigh else .longLow
  else
    .reset

/-- The Manchester decoder takes an event, and the register its bit. -/
def advance (s : DecoderEMMarine) (event : ManchesterEvent) : DecoderEMMarine :=
  match manchesterAdvance s.manchesterSavedState event with
  | (state, none) => { s with manchesterSavedState := state }
  | (state, some data) =>
    let readedData := shiftIn s.readedData data
    ⟨readedData, ProtocolEMMarin.canBeDecoded readedData, state⟩

def processFront (s : DecoderEMMarine) (polarity : Bool) (time : ℕ) : DecoderEMMarine :=
  if s.ready then s
  else if time < shortTime - jitterTime then s
  else
    let event := eventOf polarity time
    if event = .reset then s else s.advance event

end DecoderEMMarine

/-- The decoder at a point of the waveform, in half-bits. -/
structure EmAir where
  decoder : DecoderEMMarine
  position : ℕ

/-- The half-bit that begins with the next edge of a waveform without three equal half-bits. -/
def nextEdge (level : ℕ → Bool) (p : ℕ) : ℕ := if level (p + 1) = level p then p + 2 else p + 1

/-- A half-bit of 256 microseconds in the clock of the decoder. -/
def halfBit : ℕ := 256 * DecoderEMMarine.clocksInUs

def EmAir.edge (level : ℕ → Bool) (s : EmAir) : EmAir :=
  let p := nextEdge level s.position
  ⟨s.decoder.processFront (level p) ((p - s.position) * halfBit), p⟩

inductive AirLabel where
  | edge
  | poll

/-- The decoder started at an offset into the waveform of a payload, with polls at any time. -/
def emAir (d : Vector (BitVec 8) 5) (start : ℕ) : Machine EmAir AirLabel where
  init := ⟨.resetState, start⟩
  next s l := some <| match l with
    | .edge => s.edge (EncoderEM.init d).level
    | .poll => { s with decoder := s.decoder.read.2 }

/-- Every read that succeeds returns the payload, and the first one is possible within three
frames. -/
structure EmReadable (d : Vector (BitVec 8) 5) : Prop where
  reads : ∀ start s v, (emAir d start).Reachable s → s.decoder.read.1 = some v → v = d
  becomesReady : ∀ start, ∃ n : ℕ,
    let s := (EmAir.edge (EncoderEM.init d).level)^[n] (emAir d start).init
    s.position ≤ start + 3 * (2 * 64) ∧ s.decoder.ready = true

section Waveform

variable {d : Vector (BitVec 8) 5}

def sentBit (d : Vector (BitVec 8) 5) (n : ℕ) : Bool := (ProtocolEMMarin.encode d).getMsbD (n % 64)

theorem after_init (d : Vector (BitVec 8) 5) (n : ℕ) :
    (EncoderEM.init d).after n = ⟨ProtocolEMMarin.encode d, n % 64⟩ := by
  induction n with
  | zero => rfl
  | succ n ih =>
    rw [EncoderEM.after, ih]
    simp only [EncoderEM.getNext, EncoderEM.mk.injEq, true_and]
    split <;> omega

theorem level_start (n : ℕ) : (EncoderEM.init d).level (2 * n) = sentBit d n := by
  have hdiv : 2 * n / 2 = n := by omega
  have hmod : 2 * n % 2 = 0 := by omega
  have hindex : 63 - n % 64 + n % 64 = 63 := by omega
  rw [EncoderEM.level, hdiv, if_pos hmod, after_init]
  exact getLsbD_eq_getMsbD hindex

theorem level_mid (n : ℕ) : (EncoderEM.init d).level (2 * n + 1) = !sentBit d n := by
  have hdiv : (2 * n + 1) / 2 = n := by omega
  have hmod : ¬(2 * n + 1) % 2 = 0 := by omega
  have hindex : 63 - n % 64 + n % 64 = 63 := by omega
  rw [EncoderEM.level, hdiv, if_neg hmod, after_init]
  exact congrArg Bool.not (getLsbD_eq_getMsbD hindex)

end Waveform

end FlipperZero.LfRfid
