import FlipperZero.Irda.Frames

/-! # The waveforms of the encoders

An encoded frame is a preamble, the pulses of 32 bits and a stop bit, whose space
runs on into what is sent next. Its pairs carry the bits that were encoded.
-/

namespace FlipperZero.Irda

def byteBits (b : BitVec 8) : List Bool :=
  (List.range 8).map b.getLsbD

/-- The frame of four bytes, the first one being the least significant. -/
def frameOf (b0 b1 b2 b3 : BitVec 8) : BitVec 32 := b3 ++ b2 ++ b1 ++ b0

theorem getLsbD_frameOf (b0 b1 b2 b3 : BitVec 8) (j : ℕ) : (frameOf b0 b1 b2 b3).getLsbD j =
    if j < 8 then b0.getLsbD j else if j - 8 < 8 then b1.getLsbD (j - 8)
    else if j - 8 - 8 < 8 then b2.getLsbD (j - 8 - 8) else b3.getLsbD (j - 8 - 8 - 8) := by
  change BitVec.getLsbD (b3 ++ b2 ++ b1 ++ b0 : BitVec (8 + 8 + 8 + 8)) j = _
  simp only [BitVec.getLsbD_append]

theorem frameBits_frameOf (b0 b1 b2 b3 : BitVec 8) :
    frameBits (frameOf b0 b1 b2 b3) = byteBits b0 ++ byteBits b1 ++ byteBits b2 ++ byteBits b3 := by
  simp only [frameBits, byteBits, List.range, List.range.loop, List.map_cons, List.map_nil,
    List.cons_append, List.nil_append, getLsbD_frameOf, Nat.reduceLT, Nat.reduceSub, if_true, if_false]

theorem frameByte_frameOf (b0 b1 b2 b3 : BitVec 8) :
    frameByte (frameOf b0 b1 b2 b3) 0 = b0 ∧ frameByte (frameOf b0 b1 b2 b3) 1 = b1 ∧
      frameByte (frameOf b0 b1 b2 b3) 2 = b2 ∧ frameByte (frameOf b0 b1 b2 b3) 3 = b3 := by
  have hbit : ∀ i j, j < 8 → (frameByte (frameOf b0 b1 b2 b3) i).getLsbD j =
      (frameOf b0 b1 b2 b3).getLsbD (8 * i + j) := by
    intro i j hj
    simp [frameByte, hj]
  refine ⟨?_, ?_, ?_, ?_⟩ <;> refine BitVec.eq_of_getLsbD_eq fun j hj => ?_ <;>
    rw [hbit _ _ hj, getLsbD_frameOf]
  · simp [hj]
  · rw [if_neg (by omega), if_pos (by omega)]
    congr 1
    omega
  · rw [if_neg (by omega), if_neg (by omega), if_pos (by omega)]
    congr 1
    omega
  · rw [if_neg (by omega), if_neg (by omega), if_neg (by omega)]
    congr 1
    omega

theorem frameOf_frameByte (frame : BitVec 32) :
    frameOf (frameByte frame 0) (frameByte frame 1) (frameByte frame 2) (frameByte frame 3) =
      frame := by
  refine BitVec.eq_of_getLsbD_eq fun j hj => ?_
  rw [getLsbD_frameOf]
  split
  · next h => simp [frameByte, h]
  split
  · next h1 h2 =>
    have : 8 + (j - 8) = j := by omega
    simp [frameByte, h2, this]
  split
  · next h1 h2 h3 =>
    have : 16 + (j - 8 - 8) = j := by omega
    simp [frameByte, h3, this]
  · next h1 h2 h3 =>
    have : 24 + (j - 8 - 8 - 8) = j := by omega
    have h4 : j - 8 - 8 - 8 < 8 := by omega
    simp [frameByte, h4, this]

theorem irdaEncodeByte_eq (tm : IrdaEncoderTimings) (b : BitVec 8) :
    irdaEncodeByte tm b = (byteBits b).flatMap (irdaEncodeBit tm) := by
  rw [irdaEncodeByte, byteBits, List.flatMap_map]

/-- The pulses of a preamble and of a frame of four bytes, without the stop bit. -/
def framePulses (tm : IrdaEncoderTimings) (mark space : ℕ) (bits : List Bool) : List Pulse :=
  [Pulse.mark mark, .space space] ++ bits.flatMap (irdaEncodeBit tm)

/-- The durations of the pairs that stand for the bits. -/
def bitTimings (tm : IrdaEncoderTimings) (bits : List Bool) : List ℕ :=
  (bits.flatMap (irdaEncodeBit tm)).map Pulse.duration

/-- A list of pulses that does not begin with a space. -/
def StartsMark : List Pulse → Prop
  | .space _ :: _ => False
  | _ => True

theorem joinPulse_space (d : ℕ) {ps : List Pulse} (h : StartsMark ps) :
    joinPulse (.space d) ps = .space d :: ps := by
  cases ps with
  | nil => rfl
  | cons p ps =>
    cases p with
    | mark e => rfl
    | space e => exact h.elim

theorem foldr_irdaEncodeBit (tm : IrdaEncoderTimings) (b : Bool) {ps : List Pulse}
    (h : StartsMark ps) : (irdaEncodeBit tm b).foldr joinPulse ps = irdaEncodeBit tm b ++ ps ∧
      StartsMark (irdaEncodeBit tm b ++ ps) := by
  cases b <;> simp only [irdaEncodeBit, if_true, Bool.false_eq_true, if_false, List.foldr_cons,
    List.foldr_nil, joinPulse_space _ h] <;> exact ⟨rfl, trivial⟩

/-- Nothing in a frame is joined, since its bits begin with a mark and end with a space. -/
theorem foldr_bits (tm : IrdaEncoderTimings) (bits : List Bool) {ps : List Pulse}
    (h : StartsMark ps) : (bits.flatMap (irdaEncodeBit tm)).foldr joinPulse ps =
      bits.flatMap (irdaEncodeBit tm) ++ ps ∧ StartsMark (bits.flatMap (irdaEncodeBit tm) ++ ps) := by
  induction bits with
  | nil => exact ⟨rfl, h⟩
  | cons b bits ih =>
    obtain ⟨hf, hs⟩ := foldr_irdaEncodeBit tm b ih.2
    rw [List.flatMap_cons, List.foldr_append, ih.1, hf, List.append_assoc]
    exact ⟨rfl, hs⟩

theorem foldr_framePulses (tm : IrdaEncoderTimings) (mark space : ℕ) (bits : List Bool)
    {p : List Pulse} (h : StartsMark p) : (framePulses tm mark space bits).foldr joinPulse p =
      framePulses tm mark space bits ++ p := by
  obtain ⟨hf, hs⟩ := foldr_bits tm bits h
  rw [framePulses, List.foldr_append, hf]
  simp only [List.foldr_cons, List.foldr_nil, joinPulse_space _ hs]
  rfl

theorem bitPairs_bitTimings {tm : IrdaCommonDecoderTimings} {etm : IrdaEncoderTimings}
    (h1 : pairBit tm etm.bit1Mark etm.bit1Space = some true)
    (h0 : pairBit tm etm.bit0Mark etm.bit0Space = some false) (bits : List Bool) :
    BitPairs tm (bitTimings etm bits) bits := by
  induction bits with
  | nil => trivial
  | cons b bits ih => cases b <;> exact ⟨by assumption, ih⟩

end FlipperZero.Irda
