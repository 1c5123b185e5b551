import Mathlib.Algebra.BigOperators.Intervals
import Mathlib.Data.BitVec

/-! # The Indala 40134 card data

`ProtocolIndala40134` spreads the company code, the card number, two parity bits and a
checksum over 64 bits. Positions count from the highest bit.
-/

namespace FlipperZero.LfRfid.ProtocolIndala40134

open Finset

def setBit (bit : Bool) (position : ℕ) (cardData : BitVec 64) : BitVec 64 :=
  let mask := 1#64 <<< (64 - 1 - position)
  if bit then cardData ||| mask else cardData &&& ~~~mask

def fcAndCard (d : Vector (BitVec 8) 3) : BitVec 24 := d.getD 0 0 ++ d.getD 1 0 ++ d.getD 2 0

def checksum (fc : BitVec 24) : ℕ :=
  (fc.getLsbD 14).toNat + (fc.getLsbD 12).toNat + (fc.getLsbD 9).toNat + (fc.getLsbD 8).toNat +
    (fc.getLsbD 6).toNat + (fc.getLsbD 5).toNat + (fc.getLsbD 2).toNat + (fc.getLsbD 0).toNat

def evenParitySum (fc : BitVec 24) : ℕ := ∑ i ∈ range 12, (fc.getLsbD (12 + i)).toNat

def oddParitySum (fc : BitVec 24) : ℕ := 1 + ∑ i ∈ range 12, (fc.getLsbD i).toNat

/-- The calls of `set_bit` in order: preamble, company code, card number, parity, checksum. -/
def bits (fc : BitVec 24) : List (Bool × ℕ) :=
  [(true, 0), (true, 2), (true, 32),
    (fc.getLsbD 23, 57), (fc.getLsbD 22, 49), (fc.getLsbD 21, 44), (fc.getLsbD 20, 47),
    (fc.getLsbD 19, 48), (fc.getLsbD 18, 53), (fc.getLsbD 17, 39), (fc.getLsbD 16, 58),
    (fc.getLsbD 15, 42), (fc.getLsbD 14, 45), (fc.getLsbD 13, 43), (fc.getLsbD 12, 40),
    (fc.getLsbD 11, 52), (fc.getLsbD 10, 36), (fc.getLsbD 9, 35), (fc.getLsbD 8, 51),
    (fc.getLsbD 7, 46), (fc.getLsbD 6, 33), (fc.getLsbD 5, 37), (fc.getLsbD 4, 54),
    (fc.getLsbD 3, 56), (fc.getLsbD 2, 59), (fc.getLsbD 1, 50), (fc.getLsbD 0, 41),
    (decide (evenParitySum fc % 2 = 1), 34), (decide (oddParitySum fc % 2 = 1), 38),
    (!decide (checksum fc % 2 = 1), 62), (decide (checksum fc % 2 = 1), 63)]

def encode (d : Vector (BitVec 8) 3) : BitVec 64 :=
  (bits (fcAndCard d)).foldl (fun cardData p => setBit p.1 p.2 cardData) 0

variable {d : Vector (BitVec 8) 3} {bit : Bool} {p i : ℕ}

theorem getMsbD_setBit {cardData : BitVec 64} (hp : p < 64) (hi : i < 64) :
    (setBit bit p cardData).getMsbD i = if p = i then bit else cardData.getMsbD i := by
  have hmask : (1#64 <<< (64 - 1 - p)).getMsbD i = decide (p = i) := by
    rw [BitVec.getMsbD_shiftLeft, BitVec.getMsbD_one, decide_eq_true (by decide : 0 < 64),
      Bool.and_true, decide_eq_decide]
    omega
  unfold setBit
  split
  · next hbit =>
    rw [BitVec.getMsbD_or, hmask, hbit]
    split
    · next heq => simp [heq]
    · next hne => simp [hne]
  · next hbit =>
    rw [Bool.not_eq_true] at hbit
    rw [BitVec.getMsbD_and, BitVec.getMsbD_not, hmask, hbit, decide_eq_true hi, Bool.true_and]
    split
    · next heq => simp [heq]
    · next hne => simp [hne]

theorem getMsbD_foldl_setBit {l : List (Bool × ℕ)} (hl : ∀ p ∈ l, p.2 < 64) (hi : i < 64)
    (cardData : BitVec 64) :
    (l.foldl (fun cardData p => setBit p.1 p.2 cardData) cardData).getMsbD i =
      ((l.reverse.find? fun p => p.2 = i).map Prod.fst).getD (cardData.getMsbD i) := by
  induction l generalizing cardData with
  | nil => rfl
  | cons p l ih =>
    rw [List.foldl_cons, ih (fun q hq => hl q (List.mem_cons_of_mem _ hq)),
      getMsbD_setBit (hl p List.mem_cons_self) hi, List.reverse_cons, List.find?_append]
    cases l.reverse.find? fun p => p.2 = i with
    | some q => rfl
    | none =>
      by_cases heq : p.2 = i
      · simp [heq]
      · simp [heq]

/-- The bit that the last call for a position leaves there. -/
def encodedBit (fc : BitVec 24) (position : ℕ) : Bool :=
  (((bits fc).reverse.find? fun p => p.2 = position).map Prod.fst).getD false

theorem getMsbD_encode (hi : i < 64) : (encode d).getMsbD i = encodedBit (fcAndCard d) i := by
  have hbits : ∀ p ∈ bits (fcAndCard d), p.2 < 64 := by
    intro p hp
    have hposition : p.2 ∈ (bits (fcAndCard d)).map Prod.snd := List.mem_map_of_mem hp
    have hall : ((bits (fcAndCard d)).map Prod.snd).all (· < 64) = true := rfl
    exact of_decide_eq_true (List.all_eq_true.mp hall _ hposition)
  rw [encode, getMsbD_foldl_setBit hbits hi, encodedBit]
  simp

end FlipperZero.LfRfid.ProtocolIndala40134
