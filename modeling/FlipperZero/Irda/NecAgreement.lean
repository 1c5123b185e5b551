import FlipperZero.Irda.Recognition
import FlipperZero.Irda.Waveform

/-! # Sending a received NEC message

The decoder passes both address bytes on, and the encoder sends the low one and
its inverse. A received frame is sent again as it was exactly when its second byte
is the inverse of the first.
-/

namespace FlipperZero.Irda

variable {frame frame' : BitVec 32} {w : List ℕ}

theorem frameBits_injective : Function.Injective frameBits := by
  intro frame frame' h
  refine BitVec.eq_of_getLsbD_eq fun j _ => ?_
  rw [← getD_frameBits, ← getD_frameBits, h]

theorem BitPairs.unique {tm : IrdaCommonDecoderTimings} {body : List ℕ} {bits bits' : List Bool}
    (h : BitPairs tm body bits) (h' : BitPairs tm body bits') : bits = bits' := by
  induction body, bits using BitPairs.induct generalizing bits' with
  | case1 =>
    cases bits' with
    | nil => rfl
    | cons b bits' => cases h'
  | case2 mark space rest b bits ih =>
    cases bits' with
    | nil => cases h'
    | cons b' bits' =>
      obtain rfl : b = b' := Option.some.inj (h.1.symm.trans h'.1)
      rw [ih h.2 h'.2]
  | case3 => simp_all [BitPairs]

theorem IsFrame.unique {tm : IrdaCommonDecoderTimings} (h : IsFrame tm w frame)
    (h' : IsFrame tm w frame') : frame = frame' := by
  obtain ⟨mark, space, body, stop, rfl, -, hb, -⟩ := h
  obtain ⟨mark', space', body', stop', he, -, hb', -⟩ := h'
  simp only [List.cons.injEq] at he
  obtain ⟨rfl, -⟩ := List.append_inj' he.2.2 rfl
  exact frameBits_injective (hb.unique hb')

/-- The timings of a NEC frame from its preamble to its stop mark. -/
def necFrameTimings (frame : BitVec 32) : List ℕ :=
  9000 :: 4500 :: (bitTimings necEncoderTimings (frameBits frame) ++ [560])

theorem isFrame_necFrameTimings (frame : BitVec 32) :
    IsFrame necTimings (necFrameTimings frame) frame := by
  refine ⟨9000, 4500, _, 560, rfl, preamble_nec_iff.mpr (by decide), ?_, by decide⟩
  exact bitPairs_bitTimings (by decide) (by decide) _

/-- The frame that the encoder sends for a message. -/
def sentFrame (m : IrdaMessage) : BitVec 32 :=
  frameOf (m.address.setWidth 8) (~~~m.address.setWidth 8) (m.command.setWidth 8)
    (~~~m.command.setWidth 8)

/-- What is sent for a received message once, under the protocol that `irda_decode` sets. -/
def sentTimings (m : IrdaMessage) : List ℕ :=
  timingsOf (irdaSend { m with protocol := .nec } 1)

theorem sentTimings_eq (m : IrdaMessage) :
    sentTimings m = necFrameTimings (sentFrame m) ++ [1600] := by
  have hsend : irdaSend { m with protocol := .nec } 1 =
      framePulses necEncoderTimings 9000 4500 (frameBits (sentFrame m)) ++
        [Pulse.mark 560, .space 1600] := by
    simp only [irdaSend, IrdaProtocol.encode, irdaEncoderNecEncode, irdaEncodeByte_eq, framePulses,
      sentFrame, frameBits_frameOf, List.flatMap_append, List.append_assoc, List.range_one,
      List.flatMap_singleton]
    rfl
  have hstop : [Pulse.mark 560, .space 1600].foldr joinPulse [] = [Pulse.mark 560, .space 1600] := rfl
  rw [sentTimings, timingsOf, hsend, List.foldr_append, hstop,
    foldr_framePulses (p := [.mark 560, .space 1600]) _ _ _ _ trivial]
  simp [necFrameTimings, framePulses, bitTimings, Pulse.duration]

theorem length_necFrameTimings (frame : BitVec 32) : (necFrameTimings frame).length = 67 :=
  (isFrame_necFrameTimings frame).length

theorem messages_necFrameTimings (idle : ℕ) (frame : BitVec 32)
    (hsum : frameByte frame 2 = ~~~frameByte frame 3) :
    messages protocolNec irdaCommonDecoderAlloc (idle :: (necFrameTimings frame ++ [1600])) =
      [necMessage frame] := by
  obtain ⟨d', hc, hmsg, hms, -⟩ := collecting_first (p := protocolNec)
    (preamble_nec_iff.mpr (by decide) : necTimings.Preamble 9000 4500) idle
    (bitTimings necEncoderTimings (frameBits frame) ++ [560] ++ [1600])
  have hpairs : BitPairs protocolNec.timings (bitTimings necEncoderTimings (frameBits frame))
      (frameBits frame) := bitPairs_bitTimings (by decide) (by decide) _
  have hstop : matchBitTiming 560 protocolNec.timings.bit1Mark protocolNec.timings.bitTolerance := by
    decide
  obtain ⟨d1, hpk, -, ht, hmsg1, hms1, hda1⟩ :=
    hc.finish pdwm_nec hpairs (by simp) hstop
  rw [List.nil_append] at hpk
  have hready := stepReady_nec hpk (by rw [hmsg1, hmsg]; rfl)
  rw [if_pos hsum] at hready
  rw [hready] at hms1 hda1
  have hlast : (receive protocolNec
      { d1 with message := necMessage frame, state := .processRepeat } 1600).1 = none := by
    rw [receive_eq]
    dsimp only
    rw [stepProcessRepeat_nec_short (by simp [IrdaCommonDecoder.push, ht])]
  rw [necFrameTimings, List.cons_append, List.cons_append, hms, messages_append, hms1, hda1, messages,
    hlast]
  rfl

theorem sentFrame_necMessage (frame : BitVec 32) : sentFrame (necMessage frame) =
    frameOf (frameByte frame 0) (~~~frameByte frame 0) (frameByte frame 2) (~~~frameByte frame 2) := by
  have ha : (necMessage frame).address.setWidth 8 = frameByte frame 0 := by
    refine BitVec.eq_of_getLsbD_eq fun j hj => ?_
    simp [necMessage, hj]
  have hc : (necMessage frame).command.setWidth 8 = frameByte frame 2 := by
    simp [necMessage]
  rw [sentFrame, ha, hc]

theorem sentFrame_eq_iff (hsum : frameByte frame 2 = ~~~frameByte frame 3) :
    sentFrame (necMessage frame) = frame ↔ frameByte frame 1 = ~~~frameByte frame 0 := by
  rw [sentFrame_necMessage]
  constructor
  · intro h
    have := (frameByte_frameOf (frameByte frame 0) (~~~frameByte frame 0) (frameByte frame 2)
      (~~~frameByte frame 2)).2.1
    rwa [h] at this
  · intro h
    have h3 : ~~~frameByte frame 2 = frameByte frame 3 := by rw [hsum, BitVec.not_not]
    rw [h3, ← h]
    exact frameOf_frameByte frame

/-- The sent waveform carries the received bits and is received as the same message. -/
def Agrees (m : IrdaMessage) (frame : BitVec 32) : Prop :=
  IsFrame necTimings ((sentTimings m).take 67) frame ∧
    ∀ idle, messages protocolNec irdaCommonDecoderAlloc (idle :: sentTimings m) = [m]

theorem agrees_iff (hsum : frameByte frame 2 = ~~~frameByte frame 3) :
    Agrees (necMessage frame) frame ↔ frameByte frame 1 = ~~~frameByte frame 0 := by
  have htake : (sentTimings (necMessage frame)).take 67 =
      necFrameTimings (sentFrame (necMessage frame)) := by
    rw [sentTimings_eq, List.take_append_of_le_length (length_necFrameTimings _).ge]
    exact List.take_of_length_le (length_necFrameTimings _).le
  rw [← sentFrame_eq_iff hsum, Agrees, htake]
  constructor
  · rintro ⟨hf, -⟩
    exact (isFrame_necFrameTimings _).unique hf
  · intro h
    rw [h]
    refine ⟨isFrame_necFrameTimings frame, fun idle => ?_⟩
    rw [sentTimings_eq, h]
    exact messages_necFrameTimings idle frame hsum

theorem messageAt_necFrameTimings (idle : ℕ) (hsum : frameByte frame 2 = ~~~frameByte frame 3) :
    messageAt protocolNec ([idle] ++ necFrameTimings frame) = some (necMessage frame) :=
  messageAt_of_isFrame (isFrame_necFrameTimings frame) rfl hsum

def ReceivedFrame (ts : List ℕ) (frame : BitVec 32) : Prop :=
  ∃ pre w, ts = pre ++ w ∧ IsFrame necTimings w frame

theorem ReceivedFrame.unique {ts : List ℕ} (h : ReceivedFrame ts frame)
    (h' : ReceivedFrame ts frame') : frame = frame' := by
  obtain ⟨pre, w, rfl, hw⟩ := h
  obtain ⟨pre', w', he, hw'⟩ := h'
  obtain ⟨-, rfl⟩ := List.append_inj' he (hw.length.trans hw'.length.symm)
  exact hw.unique hw'

/-- A message that the NEC decoder returned is sent with the bits of the frame that was received,
and received again, exactly when the second byte of the frame is the inverse of the first. -/
theorem irda_nec_agrees_iff {ts : List ℕ} {m : IrdaMessage}
    (hm : messageAt protocolNec ts = some m) (hrep : m.repeat = false) :
    ∃ frame, ReceivedFrame ts frame ∧ (∀ frame', ReceivedFrame ts frame' → frame' = frame) ∧
      (Agrees m frame ↔ frameByte frame 1 = ~~~frameByte frame 0) := by
  rcases ends_of_messageAt hm with ⟨-, -, pre, w, frame, rfl, hw, hsum, rfl⟩ | ⟨hrep', -⟩
  · have hf : ReceivedFrame (pre ++ w) frame := ⟨pre, w, rfl, hw⟩
    exact ⟨frame, hf, fun frame' hf' => hf'.unique hf, agrees_iff hsum⟩
  · simp [hrep] at hrep'

/-- The frame of address 0 with its inverse and of command 1. -/
theorem irda_nec_agrees_plain : ∃ frame, ReceivedFrame
    ([100000] ++ necFrameTimings (frameOf 0x00 0xFF 0x01 0xFE)) frame ∧
      Agrees (necMessage (frameOf 0x00 0xFF 0x01 0xFE)) frame := by
  have hsum : frameByte (frameOf 0x00 0xFF 0x01 0xFE) 2 =
      ~~~frameByte (frameOf 0x00 0xFF 0x01 0xFE) 3 := by decide
  obtain ⟨frame, hf, hu, hiff⟩ := irda_nec_agrees_iff
    (messageAt_necFrameTimings 100000 hsum) rfl
  obtain rfl := hu (frameOf 0x00 0xFF 0x01 0xFE) ⟨[100000], _, rfl, isFrame_necFrameTimings _⟩
  exact ⟨_, hf, hiff.mpr (by decide)⟩

/-- The frame of the 16-bit address `0x7F00` is sent as one of address `0xFF00`. -/
theorem irda_nec_disagrees : ¬ ∀ ts m frame, messageAt protocolNec ts = some m →
    m.repeat = false → ReceivedFrame ts frame → Agrees m frame := by
  intro hall
  have hsum : frameByte (frameOf 0x00 0x7F 0x01 0xFE) 2 =
      ~~~frameByte (frameOf 0x00 0x7F 0x01 0xFE) 3 := by decide
  have h := hall _ _ _ (messageAt_necFrameTimings 100000 hsum) rfl
    ⟨[100000], _, rfl, isFrame_necFrameTimings _⟩
  exact absurd ((agrees_iff hsum).mp h) (by decide)

end FlipperZero.Irda
