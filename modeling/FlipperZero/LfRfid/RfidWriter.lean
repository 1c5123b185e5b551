import FlipperZero.LfRfid.ProtocolEmMarin

/-! # Writing a card

`RfidWriter` talks to a T55xx card by switching its own field off and on. Every bit is a
time of field that ends with a gap. A block is an opcode, a lock bit, the data and the
address, and an EM-Marin card is a configuration and the two halves of its word.
-/

namespace FlipperZero.LfRfid

inductive FieldEvent where
  | timReadStart
  | timReadStop
  | delayUs (microseconds : ℕ)
deriving DecidableEq, Repr

namespace T55xxTiming

def waitTime : ℕ := 400
def startGap : ℕ := 15
def writeGap : ℕ := 10
def data0 : ℕ := 24
def data1 : ℕ := 56
def program : ℕ := 700

end T55xxTiming

namespace RfidWriter

def writeGap (gapTime : ℕ) : List FieldEvent :=
  [.timReadStop, .delayUs (gapTime * 8), .timReadStart]

def writeBit (value : Bool) : List FieldEvent :=
  (if value then [FieldEvent.delayUs (T55xxTiming.data1 * 8)]
      else [FieldEvent.delayUs (T55xxTiming.data0 * 8)]) ++
    writeGap T55xxTiming.writeGap

/-- The opcode of a page; any other page fails a check. -/
def writeOpcode (page : BitVec 8) : Option (List FieldEvent) :=
  if page = 0 then some (writeBit true ++ writeBit false)
  else if page = 1 then some (writeBit true ++ writeBit true)
  else none

def writeBlock (page block : BitVec 8) (lockBit : Bool) (data : BitVec 32) :
    Option (List FieldEvent) := do
  let opcode ← writeOpcode page
  return [FieldEvent.timReadStart, .delayUs (T55xxTiming.waitTime * 8)] ++
    writeGap T55xxTiming.startGap ++ opcode ++ writeBit lockBit ++
    (List.range 32).flatMap (fun i => writeBit (data.getLsbD (31 - i))) ++
    writeBit (block.getLsbD 2) ++ writeBit (block.getLsbD 1) ++ writeBit (block.getLsbD 0) ++
    [FieldEvent.delayUs (T55xxTiming.program * 8), .timReadStop]

def emConfigBlockData : BitVec 32 := 0b01100000000101001000000001000000

def writeEm (emData : Vector (BitVec 8) 5) : Option (List FieldEvent) := do
  let emEncodedData := ProtocolEMMarin.encode emData
  let config ← writeBlock 0 0 false emConfigBlockData
  let low ← writeBlock 0 1 false (emEncodedData.setWidth 32)
  let high ← writeBlock 0 2 false ((emEncodedData >>> 32).setWidth 32)
  return config ++ low ++ high

def opcodeBits (page : Bool) : List Bool := [true, page]

def commandBits (page : Bool) (block : BitVec 8) (lockBit : Bool) (data : BitVec 32) : List Bool :=
  opcodeBits page ++ [lockBit] ++ (List.range 32).map (fun i => data.getLsbD (31 - i)) ++
    [block.getLsbD 2, block.getLsbD 1, block.getLsbD 0]

theorem writeBlock_eq (page : Bool) (block : BitVec 8) (lockBit : Bool) (data : BitVec 32) :
    writeBlock (if page then 1 else 0) block lockBit data =
      some ([FieldEvent.timReadStart, .delayUs (T55xxTiming.waitTime * 8)] ++
        writeGap T55xxTiming.startGap ++ (commandBits page block lockBit data).flatMap writeBit ++
        [FieldEvent.delayUs (T55xxTiming.program * 8), .timReadStop]) := by
  have hopcode : writeOpcode (if page then 1 else 0) = some ((opcodeBits page).flatMap writeBit) := by
    cases page <;> rfl
  rw [writeBlock, hopcode]
  simp only [commandBits, List.flatMap_append, List.flatMap_cons, List.flatMap_nil, List.append_nil,
    List.flatMap_map, List.append_assoc]
  rfl

end RfidWriter

end FlipperZero.LfRfid
