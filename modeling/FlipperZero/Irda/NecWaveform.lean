import FlipperZero.Irda.Handler
import FlipperZero.Irda.NecAgreement
import Mathlib.Data.List.Chain

/-! # The waveforms of NEC transmissions

A sender sends entries with their repeats and a space between them. A receiver may
measure every timing up to 119 microseconds off: the timings of a frame and of a
repeat are then still those of a frame and of a repeat, and no two in a row look
like the preamble of the other protocol.
-/

namespace FlipperZero.Irda

section Sender

/-- An entry of a NEC transmission with the space that is sent after it. -/
structure NecTransmission where
  address : BitVec 32
  command : BitVec 32
  times : ℕ
  gap : ℕ
  times_pos : 0 < times

namespace NecTransmission

def message (t : NecTransmission) : IrdaMessage where
  protocol := .nec
  address := t.address
  command := t.command
  «repeat» := false

/-- The low address byte is sent with its inverse, and both are received. -/
def received (t : NecTransmission) : IrdaMessage where
  protocol := .nec
  address := ((t.address.setWidth 8).zeroExtend 16 |||
    (~~~t.address.setWidth 8).zeroExtend 16 <<< 8 : BitVec 16).zeroExtend 32
  command := (t.command.setWidth 8).zeroExtend 32
  «repeat» := false

def expected (t : NecTransmission) : List IrdaMessage :=
  t.received :: List.replicate (t.times - 1) { t.received with «repeat» := true }

end NecTransmission

/-- The line is idle for a while before the first entry. -/
def necWaveform (idle : ℕ) : List NecTransmission → List Pulse
  | [] => [.space idle]
  | t :: ts => .space idle :: (irdaSend t.message t.times ++ necWaveform t.gap ts)

/-- The timings of a repeat with the pause that the space before it becomes part of. -/
def necRepeatTimings : List ℕ := [41600, 9000, 2250, 560]

def necWaveTimings (idle : ℕ) : List NecTransmission → List ℕ
  | [] => [idle]
  | t :: ts => idle :: (necFrameTimings (sentFrame t.message) ++
      ((List.replicate (t.times - 1) necRepeatTimings).flatten ++ necWaveTimings (1600 + t.gap) ts))

variable {t : NecTransmission} {ts : List NecTransmission} {xs ys : List ℕ}

theorem necMessage_sentFrame (t : NecTransmission) :
    { necMessage (sentFrame t.message) with protocol := .nec } = t.received := by
  obtain ⟨h0, h1, h2, -⟩ := frameByte_frameOf (t.address.setWidth 8) (~~~t.address.setWidth 8)
    (t.command.setWidth 8) (~~~t.command.setWidth 8)
  simp only [necMessage, NecTransmission.received, sentFrame, NecTransmission.message, h0, h1, h2]

theorem checksum_sentFrame (m : IrdaMessage) :
    frameByte (sentFrame m) 2 = ~~~frameByte (sentFrame m) 3 := by
  obtain ⟨-, -, h2, h3⟩ := frameByte_frameOf (m.address.setWidth 8) (~~~m.address.setWidth 8)
    (m.command.setWidth 8) (~~~m.command.setWidth 8)
  rw [sentFrame, h2, h3, BitVec.not_not]

theorem irdaSend_nec (t : NecTransmission) : irdaSend t.message t.times =
    framePulses necEncoderTimings 9000 4500 (frameBits (sentFrame t.message)) ++
      [Pulse.mark 560, .space 1600] ++
        (List.replicate (t.times - 1) irdaEncodeNecRepeat).flatten := by
  obtain ⟨n, hn⟩ := Nat.exists_eq_succ_of_ne_zero t.times_pos.ne'
  have hframe : irdaEncoderNecEncode t.message.address t.message.command false =
      framePulses necEncoderTimings 9000 4500 (frameBits (sentFrame t.message)) ++
        [Pulse.mark 560, .space 1600] := by
    simp only [irdaEncoderNecEncode, irdaEncodeByte_eq, framePulses, sentFrame, frameBits_frameOf,
      List.flatMap_append, List.append_assoc]
    rfl
  have hreps : (List.range n).flatMap (fun i => irdaEncoderNecEncode t.message.address
      t.message.command (i.succ != 0)) = (List.replicate n irdaEncodeNecRepeat).flatten := by
    have hrep : ∀ i : ℕ, irdaEncoderNecEncode t.message.address t.message.command (i.succ != 0) =
        irdaEncodeNecRepeat := fun _ => rfl
    rw [List.flatMap_def, List.map_congr_left fun i _ => hrep i, List.map_const', List.length_range]
  rw [irdaSend, hn, List.range_succ_eq_map, List.flatMap_cons, List.flatMap_map, Nat.succ_sub_one,
    ← hframe, ← hreps]
  rfl

theorem foldr_necRepeats (n g : ℕ) (ps : List Pulse) : ∃ qs,
    ([Pulse.mark 560, .space 1600] ++ (List.replicate n irdaEncodeNecRepeat).flatten).foldr
      joinPulse (.space g :: ps) = .mark 560 :: qs ∧
    (Pulse.mark 560 :: qs).map Pulse.duration =
      560 :: ((List.replicate n necRepeatTimings).flatten ++ (1600 + g) :: ps.map Pulse.duration) := by
  induction n with
  | zero => exact ⟨_, rfl, rfl⟩
  | succ n ih =>
    obtain ⟨qs, hf, hd⟩ := ih
    refine ⟨.space 41600 :: .mark 9000 :: .space 2250 :: .mark 560 :: qs, ?_, ?_⟩
    · have hsplit : [Pulse.mark 560, .space 1600] ++
          (List.replicate (n + 1) irdaEncodeNecRepeat).flatten =
          [Pulse.mark 560, .space 1600, .space 40000, .mark 9000, .space 2250] ++
            ([Pulse.mark 560, .space 1600] ++ (List.replicate n irdaEncodeNecRepeat).flatten) := rfl
      rw [hsplit, List.foldr_append, hf]
      rfl
    · simp only [List.map_cons] at hd ⊢
      rw [hd, List.replicate_succ, List.flatten_cons]
      rfl

theorem timingsOf_necWaveform (idle : ℕ) (ts : List NecTransmission) :
    timingsOf (necWaveform idle ts) = necWaveTimings idle ts := by
  have : ∃ ps, (necWaveform idle ts).foldr joinPulse [] = .space idle :: ps ∧
      (Pulse.space idle :: ps).map Pulse.duration = necWaveTimings idle ts := by
    induction ts generalizing idle with
    | nil => exact ⟨[], rfl, rfl⟩
    | cons t ts ih =>
      obtain ⟨ps, hf, hd⟩ := ih t.gap
      obtain ⟨qs, hr, hq⟩ := foldr_necRepeats (t.times - 1) t.gap ps
      set pulses := framePulses necEncoderTimings 9000 4500 (frameBits (sentFrame t.message))
      have hsend : (irdaSend t.message t.times ++ necWaveform t.gap ts).foldr joinPulse [] =
          pulses ++ .mark 560 :: qs := by
        rw [irdaSend_nec, List.foldr_append, hf, List.append_assoc, List.foldr_append, hr,
          foldr_framePulses (p := .mark 560 :: qs) _ _ _ _ trivial]
      refine ⟨pulses ++ .mark 560 :: qs, ?_, ?_⟩
      · rw [necWaveform, List.foldr_cons, hsend]
        rfl
      · have hgap : necWaveTimings (1600 + t.gap) ts = (1600 + t.gap) :: ps.map Pulse.duration := by
          cases ts <;> simp_all [necWaveTimings, Pulse.duration]
        rw [List.map_cons, List.map_append, hq, necWaveTimings, hgap]
        simp [pulses, framePulses, necFrameTimings, bitTimings, Pulse.duration]
  obtain ⟨ps, hf, hd⟩ := this
  rw [timingsOf, hf, hd]

theorem necWaveTimings_ne_nil (idle : ℕ) (ts : List NecTransmission) :
    necWaveTimings idle ts ≠ [] := by
  cases ts <;> exact List.cons_ne_nil _ _

theorem dropLast_necWaveTimings (idle : ℕ) (t : NecTransmission) (ts : List NecTransmission) :
    (necWaveTimings idle (t :: ts)).dropLast = idle :: (necFrameTimings (sentFrame t.message) ++
      ((List.replicate (t.times - 1) necRepeatTimings).flatten ++
        (necWaveTimings (1600 + t.gap) ts).dropLast)) := by
  have hne := necWaveTimings_ne_nil (1600 + t.gap) ts
  rw [necWaveTimings, List.dropLast_cons_of_ne_nil (by simp [hne]),
    List.dropLast_append_of_ne_nil (by simp [hne]), List.dropLast_append_of_ne_nil hne]

theorem bitTimings_cons (b : Bool) (bits : List Bool) : bitTimings necEncoderTimings (b :: bits) =
    560 :: (if b then 1600 else 560) :: bitTimings necEncoderTimings bits := by
  cases b <;> rfl

theorem le_bitTimings {bits : List Bool} {x : ℕ} (h : x ∈ bitTimings necEncoderTimings bits) :
    560 ≤ x := by
  induction bits with
  | nil => cases h
  | cons b bits ih =>
    rw [bitTimings_cons, List.mem_cons, List.mem_cons] at h
    rcases h with rfl | rfl | h
    · exact le_rfl
    · split <;> omega
    · exact ih h

theorem le_necWaveTimings {idle x : ℕ} (hidle : 560 ≤ idle) (h : x ∈ necWaveTimings idle ts) :
    560 ≤ x := by
  induction ts generalizing idle with
  | nil => exact List.mem_singleton.mp h ▸ hidle
  | cons t ts ih =>
    simp only [necWaveTimings, necFrameTimings, List.mem_cons, List.mem_append, List.not_mem_nil,
      or_false, List.mem_flatten, List.mem_replicate] at h
    rcases h with rfl | (rfl | rfl | hbits | rfl) | ⟨_, ⟨-, rfl⟩, hrepeat⟩ | hrest
    · exact hidle
    · omega
    · omega
    · exact le_bitTimings hbits
    · omega
    · simp only [necRepeatTimings, List.mem_cons, List.not_mem_nil, or_false] at hrepeat
      omega
    · exact ih (by omega) hrest

/-- Every other timing is a mark, of a preamble or of a bit. -/
def MarksEveryOther : List ℕ → Prop
  | _ :: mark :: rest => (mark = 9000 ∨ mark = 560) ∧ MarksEveryOther rest
  | _ => True

theorem marksEveryOther_bits (s : ℕ) (bits : List Bool) (h : MarksEveryOther ys) :
    MarksEveryOther (s :: (bitTimings necEncoderTimings bits ++ [560] ++ ys)) := by
  induction bits generalizing s with
  | nil => exact ⟨.inr rfl, h⟩
  | cons b bits ih => cases b <;> exact ⟨.inr rfl, ih _⟩

theorem marksEveryOther_repeats (n : ℕ) (h : MarksEveryOther ys) :
    MarksEveryOther ((List.replicate n necRepeatTimings).flatten ++ ys) := by
  induction n with
  | zero => exact h
  | succ n ih => exact ⟨.inl rfl, .inr rfl, ih⟩

theorem marksEveryOther_wave (idle : ℕ) (ts : List NecTransmission) :
    MarksEveryOther (necWaveTimings idle ts).dropLast := by
  induction ts generalizing idle with
  | nil => trivial
  | cons t ts ih =>
    rw [dropLast_necWaveTimings]
    exact ⟨.inl rfl, marksEveryOther_bits 4500 _ (marksEveryOther_repeats _ (ih _))⟩

end Sender

section Measured

variable {w body xs : List ℕ} {bits : List Bool}

/-- What is measured of a timing; one that is long may wrap the counter. -/
def Measures (t x : ℕ) : Prop := t < 2 ^ 31 → t ≤ x + 119 ∧ x ≤ t + 119

theorem Measures.refl (t : ℕ) : Measures t t := fun _ => ⟨by omega, by omega⟩

theorem forall₂_append_left {us vs xs : List ℕ} (h : List.Forall₂ Measures (us ++ vs) xs) :
    ∃ ys zs, xs = ys ++ zs ∧ List.Forall₂ Measures us ys ∧ List.Forall₂ Measures vs zs := by
  induction us generalizing xs with
  | nil => exact ⟨[], xs, rfl, .nil, h⟩
  | cons u us ih =>
    obtain ⟨x, _, hx, h1, rfl⟩ := List.forall₂_cons_left_iff.mp h
    obtain ⟨ys, zs, rfl, hys, hzs⟩ := ih h1
    exact ⟨x :: ys, zs, rfl, .cons hx hys, hzs⟩

theorem Measures.bitMark {x : ℕ} (h : Measures 560 x) :
    matchBitTiming x necTimings.bit1Mark necTimings.bitTolerance := by
  have := h (by decide)
  rw [matchBitTiming_nec_mark]
  omega

theorem pairBit_of_measures {x y : ℕ} (b : Bool) (hx : Measures 560 x)
    (hy : Measures (if b then 1600 else 560) y) : pairBit necTimings x y = some b := by
  have hmark := hx.bitMark
  cases b with
  | true =>
    have := hy (by decide)
    have hspace : matchBitTiming y necTimings.bit1Space necTimings.bitTolerance := by
      change y < 1600 + 120 ∧ 1600 - 120 < y
      simp only [if_true] at this
      omega
    rw [pairBit, if_pos ⟨hmark, hspace⟩]
  | false =>
    have := hy (by decide)
    have hno : ¬ matchBitTiming y necTimings.bit1Space necTimings.bitTolerance := by
      change ¬ (y < 1600 + 120 ∧ 1600 - 120 < y)
      simp only [Bool.false_eq_true, if_false] at this
      omega
    rw [pairBit, if_neg fun h => hno h.2, if_pos ⟨hmark, Measures.bitMark hy⟩]

theorem bitPairs_of_measures (h : List.Forall₂ Measures (bitTimings necEncoderTimings bits) body) :
    BitPairs necTimings body bits := by
  induction bits generalizing body with
  | nil =>
    cases h
    trivial
  | cons b bits ih =>
    rw [bitTimings_cons] at h
    obtain ⟨x, _, hx, h1, rfl⟩ := List.forall₂_cons_left_iff.mp h
    obtain ⟨y, body, hy, h2, rfl⟩ := List.forall₂_cons_left_iff.mp h1
    exact ⟨pairBit_of_measures b hx hy, ih h2⟩

theorem isFrame_of_measures {frame : BitVec 32} (h : List.Forall₂ Measures (necFrameTimings frame) w) :
    IsFrame necTimings w frame := by
  obtain ⟨mark, _, hmark, h1, rfl⟩ := List.forall₂_cons_left_iff.mp h
  obtain ⟨space, _, hspace, h2, rfl⟩ := List.forall₂_cons_left_iff.mp h1
  obtain ⟨body, _, rfl, hbody, h3⟩ := forall₂_append_left h2
  obtain ⟨stop, _, hstop, h4, rfl⟩ := List.forall₂_cons_left_iff.mp h3
  cases h4
  refine ⟨mark, space, body, stop, rfl, ?_, bitPairs_of_measures hbody, hstop.bitMark⟩
  have := hmark (by decide)
  have := hspace (by decide)
  rw [preamble_nec_iff]
  omega

theorem isNecRepeat_of_measures (h : List.Forall₂ Measures necRepeatTimings w) : IsNecRepeat w := by
  obtain ⟨pause, _, hpause, h1, rfl⟩ := List.forall₂_cons_left_iff.mp h
  obtain ⟨mark, _, hmark, h2, rfl⟩ := List.forall₂_cons_left_iff.mp h1
  obtain ⟨space, _, hspace, h3, rfl⟩ := List.forall₂_cons_left_iff.mp h2
  obtain ⟨stop, _, hstop, h4, rfl⟩ := List.forall₂_cons_left_iff.mp h3
  cases h4
  refine ⟨pause, mark, space, stop, rfl, ?_⟩
  have := hpause (by decide)
  have := hmark (by decide)
  have := hspace (by decide)
  have := hstop (by decide)
  rw [necRepeat_iff]
  omega

def IsPreamble4500 (x : ℕ) : Prop := 4185 < x ∧ x < 4815

/-- No two timings in a row are a preamble of the Samsung32 protocol. -/
abbrev Quiet (xs : List ℕ) : Prop :=
  List.IsChain (fun x y => ¬ (IsPreamble4500 x ∧ IsPreamble4500 y)) xs

theorem Measures.not_preamble4500 {t x : ℕ} (h : Measures t x) (ht : t = 9000 ∨ t = 560) :
    ¬ IsPreamble4500 x := by
  obtain ⟨hlo, hhi⟩ := h (by omega)
  unfold IsPreamble4500
  omega

theorem quiet_of_marks {ts : List ℕ} (hm : MarksEveryOther ts) (h : List.Forall₂ Measures ts xs) :
    Quiet xs := by
  induction ts using MarksEveryOther.induct generalizing xs with
  | case1 s mark rest ih =>
    obtain ⟨x, _, -, h1, rfl⟩ := List.forall₂_cons_left_iff.mp h
    obtain ⟨y, xs, hy, h2, rfl⟩ := List.forall₂_cons_left_iff.mp h1
    have hmark := hy.not_preamble4500 hm.1
    refine List.isChain_cons_cons.mpr ⟨fun hp => hmark hp.2, ?_⟩
    have hquiet := ih hm.2 h2
    cases xs with
    | nil => exact List.isChain_singleton _
    | cons z xs => exact List.isChain_cons_cons.mpr ⟨fun hp => hmark hp.1, hquiet⟩
  | case2 ts hne =>
    match ts, hne with
    | [], _ =>
      cases h
      exact List.isChain_nil
    | [s], _ =>
      obtain ⟨x, _, -, h1, rfl⟩ := List.forall₂_cons_left_iff.mp h
      cases h1
      exact List.isChain_singleton _
    | s :: mark :: rest, hne => exact absurd rfl (hne s mark rest)

end Measured

end FlipperZero.Irda
