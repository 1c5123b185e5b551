import FlipperZero.Lib.ShiftRegister
import Mathlib.Algebra.BigOperators.Intervals

/-! # The EM-Marin card data

A card sends 64 bits: nine ones, ten rows of a nibble and its even parity bit, a row of
column parities and a zero. `ProtocolEMMarin` writes this word for five bytes, checks a
word for it, and reads the bytes back.
-/

namespace FlipperZero.LfRfid

open Lib Finset

namespace ProtocolEMMarin

/-- The bits of a nibble as sent, with their parity bit. -/
def nibbleRow (lowNibble : Bool) (data : BitVec 8) : List Bool :=
  let start := if lowNibble then 0 else 4
  let bits := [start + 3, start + 2, start + 1, start].map fun i => data.getLsbD i
  bits ++ [decide ((bits.map Bool.toNat).sum % 2 = 1)]

def writeNibble (lowNibble : Bool) (data : BitVec 8) (cardData : BitVec 64) : BitVec 64 :=
  shiftAll cardData (nibbleRow lowNibble data)

/-- The parity bit of the column that the shifts so far have brought to the end of each row. -/
def columnParity (cardData : BitVec 64) : Bool :=
  decide ((∑ i ∈ range 10, (cardData.getLsbD ((i + 1) * 5 - 1)).toNat) % 2 = 1)

def encode (d : Vector (BitVec 8) 5) : BitVec 64 :=
  let header : BitVec 64 := 0b111111111
  let rows := d.toList.foldl
    (fun cardData data => writeNibble true data (writeNibble false data cardData)) header
  let columns := (List.range 4).foldl
    (fun cardData _ => shiftIn cardData (columnParity cardData)) rows
  shiftIn columns false

structure DecodeState where
  cardData : BitVec 64
  value : BitVec 8
  index : ℕ
  decodedData : Vector (BitVec 8) 5

def topNibble (cardData : BitVec 64) : BitVec 8 :=
  shiftAll 0 ((List.range 4).map cardData.getMsbD)

def decodeRow (s : DecodeState) (r : ℕ) : DecodeState :=
  let value := s.value <<< 4 ||| topNibble s.cardData
  let cardData := s.cardData <<< 5
  if r % 2 = 1 then
    ⟨cardData, 0, s.index + 1, 
      s.decodedData.setIfInBounds s.index (s.decodedData.getD s.index 0 ||| value)⟩
  else
    ⟨cardData, value, s.index, s.decodedData⟩

def decode (encodedData : BitVec 64) : Vector (BitVec 8) 5 :=
  ((List.range 10).foldl decodeRow ⟨encodedData <<< 9, 0, 0, Vector.replicate 5 0⟩).decodedData

def headerMask : BitVec 64 := 0x1FF#64 <<< 55
def headerAndStopMask : BitVec 64 := headerMask ||| 1#64

def canBeDecoded (cardData : BitVec 64) : Bool :=
  decide (cardData &&& headerAndStopMask = headerMask) &&
    (List.range 10).all (fun i =>
      (∑ j ∈ range 5, (cardData.getLsbD (50 - i * 5 + j)).toNat) % 2 = 0) &&
    (List.range 4).all (fun i =>
      (∑ j ∈ range 11, (cardData.getLsbD (4 - i + j * 5)).toNat) % 2 = 0)

end ProtocolEMMarin

end FlipperZero.LfRfid
