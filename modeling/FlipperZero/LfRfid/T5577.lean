import FlipperZero.LfRfid.RfidWriter
import FlipperZero.LfRfid.EmMarinAir

/-! # A T5577 card

The card counts field clocks of eight microseconds. A gap after the start-up begins a
command, the times of field between further gaps are its bits, and a field that stays on
for the time of programming ends it. Otherwise the card sends its data blocks for ever, as
the configuration in block 0 tells.
-/

namespace FlipperZero.LfRfid

open Lib

/-- The blocks of the two pages, and which of them can no longer be written. -/
structure T5577 where
  block : Bool → BitVec 3 → BitVec 32
  lock : Bool → BitVec 3 → Bool

/-- What a card sends: the bits again and again, each for a number of field clocks. -/
structure Emission where
  rate : ℕ
  bits : List Bool

namespace Emission

/-- The level in half-bit `h`, in the Manchester coding of the emulator. -/
def level (e : Emission) (h : ℕ) : Bool :=
  let bit := e.bits.getD (h / 2 % e.bits.length) false
  if h % 2 = 0 then bit else !bit

/-- The length of a half-bit in the clock of the decoder. -/
def halfBit (e : Emission) : ℕ := e.rate * 8 / 2 * DecoderEMMarine.clocksInUs

end Emission

namespace T5577

def store (t : T5577) (page : Bool) (address : BitVec 3) (lockBit : Bool) (data : BitVec 32) :
    T5577 :=
  if t.lock page address then t
  else ⟨fun p a => if p = page ∧ a = address then data else t.block p a,
    fun p a => if p = page ∧ a = address then lockBit else t.lock p a⟩

/-- A command is `1`, the page, the lock bit, 32 data bits and three address bits. -/
def execute (t : T5577) : List Bool → T5577
  | true :: page :: lockBit :: rest =>
    if rest.length = 35 then
      t.store page (shiftAll 0 (rest.drop 32)) lockBit (shiftAll 0 (rest.take 32))
    else t
  | _ => t

def bitRate (config : BitVec 32) : ℕ :=
  [8, 16, 32, 40, 50, 64, 100, 128].getD (config.extractLsb' 18 3).toNat 0

def modulation (config : BitVec 32) : BitVec 5 := config.extractLsb' 12 5

def manchester : BitVec 5 := 0b01000

def maxBlock (config : BitVec 32) : ℕ := (config.extractLsb' 5 3).toNat

/-- Extended mode, answer on request, one time pad, password, terminator, fast downlink, inverse
data and delayed start. -/
def otherOptions : BitVec 32 := 0x2031F

def wordBits (w : BitVec 32) : List Bool := (List.range 32).map w.getMsbD

/-- What the card sends in Manchester coding without other options. -/
def emission (t : T5577) : Option Emission :=
  let config := t.block false 0
  if modulation config = manchester ∧ config &&& otherOptions = 0 ∧ maxBlock config ≠ 0 then
    some ⟨bitRate config,
      (List.range (maxBlock config)).flatMap fun i => wordBits (t.block false (BitVec.ofNat 3 (i + 1)))⟩
  else none

def startUp : ℕ := 375

def isStartGap (clocks : ℕ) : Bool := decide (8 ≤ clocks ∧ clocks ≤ 50)

def isWriteGap (clocks : ℕ) : Bool := decide (8 ≤ clocks ∧ clocks ≤ 20)

def programTime : ℕ := 700

/-- The bit that a time of field between two gaps means. -/
def bitOf (clocks : ℕ) : Option Bool :=
  if 16 ≤ clocks ∧ clocks ≤ 31 then some false
  else if 48 ≤ clocks ∧ clocks ≤ 63 then some true
  else none

inductive Mode where
  | reading
  | gap
  | command (bits : List Bool)
deriving DecidableEq, Repr

/-- A card in the field of a writer, and the microseconds since the field last changed. -/
structure Receiver where
  tag : T5577
  field : Bool
  elapsed : ℕ
  mode : Mode

namespace Receiver

def fieldOn (s : Receiver) : Receiver :=
  ⟨s.tag, true, 0, match s.mode with
    | .reading => .reading
    | .gap => if isStartGap (s.elapsed / 8) then .command [] else .reading
    | .command bits => if isWriteGap (s.elapsed / 8) then .command bits else .reading⟩

def fieldOff (s : Receiver) : Receiver :=
  ⟨s.tag, false, 0, match s.mode with
    | .command bits => match bitOf (s.elapsed / 8) with
      | some bit => .command (bits ++ [bit])
      | none => .reading
    | _ => if startUp ≤ s.elapsed / 8 then .gap else .reading⟩

def pass (s : Receiver) (microseconds : ℕ) : Receiver :=
  let elapsed := s.elapsed + microseconds
  match s.mode with
  | .command bits =>
    if s.field ∧ programTime ≤ elapsed / 8 then ⟨s.tag.execute bits, s.field, elapsed, .reading⟩
    else { s with elapsed := elapsed }
  | _ => { s with elapsed := elapsed }

def step (s : Receiver) : FieldEvent → Receiver
  | .timReadStart => if s.field then s else s.fieldOn
  | .timReadStop => if s.field then s.fieldOff else s
  | .delayUs microseconds => s.pass microseconds

def run (s : Receiver) (events : List FieldEvent) : Receiver := events.foldl step s

end Receiver

/-- The card after a writer that begins without a field. -/
def receive (t : T5577) (events : List FieldEvent) : T5577 :=
  (Receiver.run ⟨t, false, 0, .reading⟩ events).tag

section Commands

open RfidWriter Receiver

variable (t : T5577)

theorem run_append (s : Receiver) (events events' : List FieldEvent) :
    s.run (events ++ events') = (s.run events).run events' :=
  List.foldl_append

theorem run_start (mode : Mode) :
    run ⟨t, false, 0, mode⟩ ([FieldEvent.timReadStart, .delayUs (T55xxTiming.waitTime * 8)] ++
      writeGap T55xxTiming.startGap) = ⟨t, true, 0, .command []⟩ := by
  cases mode <;> simp [run, step, fieldOn, fieldOff, Receiver.pass, writeGap, isStartGap, isWriteGap, startUp,
    T55xxTiming.waitTime, T55xxTiming.startGap]

theorem run_writeBit (bits : List Bool) (bit : Bool) :
    run ⟨t, true, 0, .command bits⟩ (writeBit bit) = ⟨t, true, 0, .command (bits ++ [bit])⟩ := by
  cases bit <;> simp [run, step, fieldOn, fieldOff, Receiver.pass, RfidWriter.writeBit, writeGap, bitOf,
    isWriteGap, programTime, T55xxTiming.data0, T55xxTiming.data1, T55xxTiming.writeGap]

theorem run_writeBits (bits bits' : List Bool) :
    run ⟨t, true, 0, .command bits⟩ (bits'.flatMap writeBit) =
      ⟨t, true, 0, .command (bits ++ bits')⟩ := by
  induction bits' generalizing bits with
  | nil => simp [run]
  | cons bit bits' ih =>
    rw [List.flatMap_cons, run_append, run_writeBit, ih, List.append_assoc]
    rfl

theorem run_program (bits : List Bool) :
    run ⟨t, true, 0, .command bits⟩ [.delayUs (T55xxTiming.program * 8), .timReadStop] =
      ⟨t.execute bits, false, 0, .gap⟩ := by
  simp [run, step, fieldOff, Receiver.pass, programTime, startUp, T55xxTiming.program]

theorem shiftAll_word (data : BitVec 32) :
    shiftAll 0 ((List.range 32).map fun i => data.getLsbD (31 - i)) = data := by
  refine BitVec.eq_of_getMsbD_eq fun n hn => ?_
  rw [getMsbD_shiftAll_of_le hn (by simp), BitVec.getMsbD_eq_getLsbD]
  simp [hn]

theorem shiftAll_address (block : BitVec 8) :
    shiftAll 0 [block.getLsbD 2, block.getLsbD 1, block.getLsbD 0] = block.setWidth 3 := by
  refine BitVec.eq_of_getMsbD_eq fun n hn => ?_
  rw [getMsbD_shiftAll_of_le hn (by simp), BitVec.getMsbD_eq_getLsbD, BitVec.getLsbD_setWidth]
  interval_cases n <;> simp

theorem execute_commandBits (page : Bool) (block : BitVec 8) (lockBit : Bool) (data : BitVec 32) :
    t.execute (commandBits page block lockBit data) =
      t.store page (block.setWidth 3) lockBit data := by
  have hrest : commandBits page block lockBit data = true :: page :: lockBit ::
      ((List.range 32).map (fun i => data.getLsbD (31 - i)) ++
        [block.getLsbD 2, block.getLsbD 1, block.getLsbD 0]) := rfl
  rw [hrest, execute, if_pos (by simp), List.drop_left' (by simp), List.take_left' (by simp),
    shiftAll_address, shiftAll_word]

theorem run_writeBlock (mode : Mode) (page : Bool) {block : BitVec 8} (address : BitVec 3)
    (haddress : block.setWidth 3 = address) (lockBit : Bool) (data : BitVec 32) : ∃ events,
      writeBlock (if page then 1 else 0) block lockBit data = some events ∧
      run ⟨t, false, 0, mode⟩ events = ⟨t.store page address lockBit data, false, 0, .gap⟩ := by
  refine ⟨_, writeBlock_eq page block lockBit data, ?_⟩
  rw [run_append, run_append, run_start, run_writeBits, run_program, List.nil_append,
    execute_commandBits, haddress]

/-- None of the blocks that the writer writes is locked. -/
def Unlocked : Prop := ∀ address ∈ [0, 1, 2], t.lock false address = false

variable {t} {address : BitVec 3} {data : BitVec 32}

theorem lock_store {a : BitVec 3} (h : t.lock false a = false) :
    (t.store false address false data).lock false a = false := by
  unfold store
  split
  · exact h
  · simp [h]

theorem block_store (h : t.lock false address = false) (a : BitVec 3) :
    (t.store false address false data).block false a =
      if a = address then data else t.block false a := by
  simp [store, h]

theorem Unlocked.store (h : t.Unlocked) (address : BitVec 3) (data : BitVec 32) :
    (t.store false address false data).Unlocked :=
  fun a ha => lock_store (h a ha)

theorem receive_writeEm (h : t.Unlocked) (d : Vector (BitVec 8) 5) :
    ∃ events, writeEm d = some events ∧
      (t.receive events).block false 0 = emConfigBlockData ∧
      (t.receive events).block false 1 = (ProtocolEMMarin.encode d).setWidth 32 ∧
      (t.receive events).block false 2 = (ProtocolEMMarin.encode d >>> 32).setWidth 32 := by
  obtain ⟨config, hconfig, hrun⟩ := @run_writeBlock t .reading false 0 0 rfl false emConfigBlockData
  obtain ⟨low, hlow, hrun'⟩ := @run_writeBlock _ .gap false 1 1 rfl false
    ((ProtocolEMMarin.encode d).setWidth 32)
  obtain ⟨high, hhigh, hrun''⟩ := @run_writeBlock _ .gap false 2 2 rfl false
    ((ProtocolEMMarin.encode d >>> 32).setWidth 32)
  have hwritten := h.store 0 emConfigBlockData
  have hwritten' := hwritten.store 1 ((ProtocolEMMarin.encode d).setWidth 32)
  refine ⟨config ++ low ++ high, ?_, ?_⟩
  · simp only [Bool.false_eq_true, if_false] at hconfig hlow hhigh
    rw [writeEm, hconfig, hlow, hhigh]
    rfl
  · rw [receive, run_append, run_append, hrun, hrun', hrun'']
    simp only [block_store (hwritten' 2 (by simp)), block_store (hwritten 1 (by simp)),
      block_store (h 0 (by simp))]
    exact ⟨rfl, rfl, rfl⟩

/-- The written card sends the low half of the word first, at the rate of the emulator. -/
theorem emission_writeEm (h : t.Unlocked) (d : Vector (BitVec 8) 5) :
    ∃ events, writeEm d = some events ∧ (t.receive events).emission =
      some ⟨64, wordBits ((ProtocolEMMarin.encode d).setWidth 32) ++
        wordBits ((ProtocolEMMarin.encode d >>> 32).setWidth 32)⟩ := by
  obtain ⟨events, hevents, hconfig, hlow, hhigh⟩ := receive_writeEm h d
  refine ⟨events, hevents, ?_⟩
  have hrate : bitRate emConfigBlockData = 64 := by decide
  have hmax : maxBlock emConfigBlockData = 2 := by decide
  have hbits : (List.range 2).flatMap (fun i =>
      wordBits ((t.receive events).block false (BitVec.ofNat 3 (i + 1)))) =
      wordBits ((t.receive events).block false 1) ++ wordBits ((t.receive events).block false 2) := by
    simp [List.range_succ]
  rw [emission, hconfig, if_pos (by decide), hmax, hbits, hrate, hlow, hhigh]

end Commands

end T5577

end FlipperZero.LfRfid
