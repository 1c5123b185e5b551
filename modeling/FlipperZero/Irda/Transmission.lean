import FlipperZero.Irda.Waveform

/-! # Transmissions of the Samsung32 encoder

A sender sends entries with their repeats and a pause between them. The decoder
takes a frame after a message for a repeat when the pause is short enough and the
first address bit is set; otherwise it returns what was sent.
-/

namespace FlipperZero.Irda

/-- An entry of a transmission with the space that is sent after it. -/
structure Transmission where
  address : BitVec 8
  command : BitVec 8
  times : ℕ
  gap : ℕ
  times_pos : 0 < times
  gap_le : irdaSamsungRepeatPause ≤ gap

namespace Transmission

def message (t : Transmission) : IrdaMessage where
  protocol := .samsung32
  address := t.address.zeroExtend 32
  command := t.command.zeroExtend 32
  «repeat» := false

/-- The messages that the decoder should return for the entry. -/
def expected (t : Transmission) : List IrdaMessage :=
  t.message :: List.replicate (t.times - 1) { t.message with «repeat» := true }

def bits (t : Transmission) : List Bool :=
  frameBits (frameOf t.address t.address t.command (~~~t.command))

end Transmission

/-- The line is idle for a while before the first entry. -/
def waveform (idle : ℕ) : List Transmission → List Pulse
  | [] => [.space idle]
  | t :: ts => .space idle :: (irdaSend t.message t.times ++ waveform t.gap ts)

/-- The timings of a frame from its preamble to its stop mark. -/
def frameTimings (t : Transmission) : List ℕ :=
  4500 :: 4500 :: (bitTimings samsung32EncoderTimings t.bits ++ [550])

/-- The timings of a repeat with the pause that the space before it becomes part of. -/
def repeatTimings : List ℕ := [48650, 4500, 4500, 550, 1650, 550]

/-- The timings of a waveform; the space after a stop bit is joined with the next one. -/
def waveTimings (idle : ℕ) : List Transmission → List ℕ
  | [] => [idle]
  | t :: ts => idle :: (frameTimings t ++
      ((List.replicate (t.times - 1) repeatTimings).flatten ++ waveTimings (1650 + t.gap) ts))

theorem irdaSend_message (t : Transmission) : irdaSend t.message t.times =
    framePulses samsung32EncoderTimings 4500 4500 t.bits ++ [Pulse.mark 550, .space 1650] ++
      (List.replicate (t.times - 1) irdaEncodeSamsung32Repeat).flatten := by
  obtain ⟨n, hn⟩ := Nat.exists_eq_succ_of_ne_zero t.times_pos.ne'
  have ha : t.message.address.setWidth 8 = t.address := by simp [Transmission.message]
  have hc : t.message.command.setWidth 8 = t.command := by simp [Transmission.message]
  have hframe : irdaEncoderSamsung32Encode t.message.address t.message.command false =
      framePulses samsung32EncoderTimings 4500 4500 t.bits ++ [Pulse.mark 550, .space 1650] := by
    simp only [irdaEncoderSamsung32Encode, ha, hc, irdaEncodeByte_eq, framePulses, Transmission.bits,
      frameBits_frameOf, List.flatMap_append, List.append_assoc]
    rfl
  have hrep : ∀ i, irdaEncoderSamsung32Encode t.message.address t.message.command (i + 1 != 0) =
      irdaEncodeSamsung32Repeat := fun i => rfl
  have hreps : (List.range n).flatMap (fun i => irdaEncoderSamsung32Encode t.message.address
      t.message.command (i.succ != 0)) = (List.replicate n irdaEncodeSamsung32Repeat).flatten := by
    rw [List.flatMap_def, List.map_congr_left fun i _ => hrep i, List.map_const', List.length_range]
  rw [irdaSend, hn, List.range_succ_eq_map, List.flatMap_cons, List.flatMap_map, Nat.succ_sub_one,
    ← hframe, ← hreps]
  rfl

theorem foldr_repeats (n g : ℕ) (ps : List Pulse) : ∃ qs,
    ([Pulse.mark 550, .space 1650] ++ (List.replicate n irdaEncodeSamsung32Repeat).flatten).foldr
      joinPulse (.space g :: ps) = .mark 550 :: qs ∧
    (Pulse.mark 550 :: qs).map Pulse.duration =
      550 :: ((List.replicate n repeatTimings).flatten ++ (1650 + g) :: ps.map Pulse.duration) := by
  induction n with
  | zero => exact ⟨_, rfl, rfl⟩
  | succ n ih =>
    obtain ⟨qs, hf, hd⟩ := ih
    refine ⟨.space 48650 :: .mark 4500 :: .space 4500 :: .mark 550 :: .space 1650 :: .mark 550 :: qs,
      ?_, ?_⟩
    · have hsplit : [Pulse.mark 550, .space 1650] ++
          (List.replicate (n + 1) irdaEncodeSamsung32Repeat).flatten =
          [Pulse.mark 550, .space 1650, .space 47000, .mark 4500, .space 4500, .mark 550, .space 1650] ++
            ([Pulse.mark 550, .space 1650] ++ (List.replicate n irdaEncodeSamsung32Repeat).flatten) := rfl
      rw [hsplit, List.foldr_append, hf]
      rfl
    · simp only [List.map_cons] at hd ⊢
      rw [hd, List.replicate_succ, List.flatten_cons]
      rfl

theorem timingsOf_waveform (idle : ℕ) (ts : List Transmission) :
    timingsOf (waveform idle ts) = waveTimings idle ts := by
  have : ∃ ps, (waveform idle ts).foldr joinPulse [] = .space idle :: ps ∧
      (Pulse.space idle :: ps).map Pulse.duration = waveTimings idle ts := by
    induction ts generalizing idle with
    | nil => exact ⟨[], rfl, rfl⟩
    | cons t ts ih =>
      obtain ⟨ps, hf, hd⟩ := ih t.gap
      obtain ⟨qs, hr, hq⟩ := foldr_repeats (t.times - 1) t.gap ps
      have hsend : (irdaSend t.message t.times ++ waveform t.gap ts).foldr joinPulse [] =
          framePulses samsung32EncoderTimings 4500 4500 t.bits ++ .mark 550 :: qs := by
        rw [irdaSend_message, List.foldr_append, hf, List.append_assoc, List.foldr_append, hr,
          foldr_framePulses (p := .mark 550 :: qs) _ _ _ _ trivial]
      refine ⟨framePulses samsung32EncoderTimings 4500 4500 t.bits ++ .mark 550 :: qs, ?_, ?_⟩
      · rw [waveform, List.foldr_cons, hsend]
        rfl
      · have hgap : waveTimings (1650 + t.gap) ts = (1650 + t.gap) :: ps.map Pulse.duration := by
          cases ts <;> simp_all [waveTimings, Pulse.duration]
        rw [List.map_cons, List.map_append, hq, waveTimings, hgap]
        simp [framePulses, frameTimings, bitTimings, Pulse.duration]
  obtain ⟨ps, hf, hd⟩ := this
  rw [timingsOf, hf, hd]

variable {d : IrdaCommonDecoder} {t : Transmission}

theorem pairBit_samsung32_one : pairBit samsung32Timings 550 1650 = some true := by decide

theorem pairBit_samsung32_zero : pairBit samsung32Timings 550 550 = some false := by decide

theorem preamble_samsung32 : samsung32Timings.Preamble 4500 4500 :=
  ⟨match_4500_iff.mpr (by decide), match_4500_iff.mpr (by decide)⟩

theorem stop_samsung32 :
    matchBitTiming 550 samsung32Timings.bit1Mark samsung32Timings.bitTolerance := by decide

theorem samsung32Repeat_iff (pause : ℕ) (b : Bool) :
    Samsung32Repeat samsung32Timings pause 4500 4500 550 (if b then 1650 else 550) 550 ↔
      (30000 < pause ∧ pause < 150000) ∧ b = true := by
  have hm := preamble_samsung32
  have hb : matchBitTiming (if b then 1650 else 550) samsung32Timings.bit1Space
      samsung32Timings.bitTolerance ↔ b = true := by
    cases b <;> decide
  rw [Samsung32Repeat, hb, ← and_assoc]
  refine and_congr Iff.rfl ⟨fun h => h.2.2.2.1, fun h => ⟨hm.1, hm.2, stop_samsung32, h, stop_samsung32⟩⟩

/-- The decoder has just returned the message. -/
structure Returned (d : IrdaCommonDecoder) (m : IrdaMessage) : Prop where
  state : d.state = .processRepeat
  level : d.level = false
  timings : d.timings = []
  message : d.message = m

theorem stepReady_samsung32 (hd : Packed d.data t.bits) (hm : d.message.protocol = .samsung32) :
    stepReady protocolSamsung32 d =
      (some t.message, { d with message := t.message, state := .processRepeat }) := by
  obtain ⟨h0, h1, h2, h3⟩ := frameByte_frameOf t.address t.address t.command (~~~t.command)
  have hd0 := (hd.data_eq (by decide : 0 < 4)).trans h0
  have hd1 := (hd.data_eq (by decide : 1 < 4)).trans h1
  have hd2 := (hd.data_eq (by decide : 2 < 4)).trans h2
  have hd3 := (hd.data_eq (by decide : 3 < 4)).trans h3
  have hc : t.command = ~~~(~~~t.command) := by simp
  simp only [stepReady, protocolSamsung32, interpretSamsung32, hd0, hd1, hd2, hd3, true_and,
    if_pos hc, Transmission.message, hm]

theorem messages_of_collecting {bits bits' : List Bool} (hc : Collecting d bits)
    (hb : t.bits = bits ++ bits') (hm : d.message.protocol = .samsung32) :
    messages protocolSamsung32 d (bitTimings samsung32EncoderTimings bits' ++ [550]) = [t.message] ∧
      Returned (decoderAfter protocolSamsung32 d
        (bitTimings samsung32EncoderTimings bits' ++ [550])) t.message := by
  have hlen : (bits ++ bits').length = 32 := by
    rw [← hb]
    exact length_frameBits _
  have hpairs : BitPairs protocolSamsung32.timings (bitTimings samsung32EncoderTimings bits') bits' :=
    bitPairs_bitTimings pairBit_samsung32_one pairBit_samsung32_zero bits'
  obtain ⟨d', hpk, hl, ht, hmsg, hms, hda⟩ := hc.finish pdwm_samsung32 hpairs hlen stop_samsung32
  rw [← hb] at hpk
  rw [hms, hda, stepReady_samsung32 hpk (hmsg ▸ hm)]
  exact ⟨rfl, rfl, hl, ht, rfl⟩

theorem messages_first (idle : ℕ) (t : Transmission) :
    messages protocolSamsung32 irdaCommonDecoderAlloc (idle :: frameTimings t) = [t.message] ∧
      Returned (decoderAfter protocolSamsung32 irdaCommonDecoderAlloc (idle :: frameTimings t))
        t.message := by
  obtain ⟨d', hc, hmsg, hms, hda⟩ := collecting_first (p := protocolSamsung32) preamble_samsung32 idle
    (bitTimings samsung32EncoderTimings t.bits ++ [550])
  rw [frameTimings, hms, hda]
  exact messages_of_collecting hc rfl (by rw [hmsg]; rfl)

theorem stepProcessRepeat_samsung32_short (h : d.timings.length < 6) :
    stepProcessRepeat protocolSamsung32 d = (none, d) := by
  have hr : decodeRepeatSamsung32 samsung32Timings d = (.ok, d) := by
    unfold decodeRepeatSamsung32
    split
    · next ht =>
      simp [ht] at h
      omega
    · rfl
  simp only [stepProcessRepeat, protocolSamsung32, hr]

theorem stepProcessRepeat_samsung32 {pause mark space bitMark bitSpace stop : ℕ}
    (ht : d.timings = [pause, mark, space, bitMark, bitSpace, stop]) :
    stepProcessRepeat protocolSamsung32 d =
      if Samsung32Repeat samsung32Timings pause mark space bitMark bitSpace stop then
        (some { d.message with «repeat» := true },
          { d with message := { d.message with «repeat» := true }, timings := [] })
      else (none, stepWaitPreamble protocolSamsung32 { d with state := .waitPreamble }) := by
  by_cases h : Samsung32Repeat samsung32Timings pause mark space bitMark bitSpace stop
  · have hr : decodeRepeatSamsung32 samsung32Timings d = (.ready, { d with timings := [] }) := by
      simp only [decodeRepeatSamsung32, ht, if_pos h]
    simp only [stepProcessRepeat, protocolSamsung32, hr, if_pos h]
  · have hr : decodeRepeatSamsung32 samsung32Timings d = (.error, d) := by
      simp only [decodeRepeatSamsung32, ht, if_neg h]
    rw [if_neg h]
    simp only [stepProcessRepeat, protocolSamsung32, hr]

theorem Returned.push_five {m : IrdaMessage} (h : Returned d m) (a b c e f : ℕ) (rest : List ℕ) :
    ∃ d', d'.state = .processRepeat ∧ d'.level = true ∧ d'.timings = [a, b, c, e, f] ∧
      d'.message = m ∧
      messages protocolSamsung32 d (a :: b :: c :: e :: f :: rest) =
        messages protocolSamsung32 d' rest ∧
      decoderAfter protocolSamsung32 d (a :: b :: c :: e :: f :: rest) =
        decoderAfter protocolSamsung32 d' rest := by
  have hshort : ∀ d' : IrdaCommonDecoder, d'.state = .processRepeat → d'.timings.length < 5 →
      ∀ x, receive protocolSamsung32 d' x = (none, d'.push x) := by
    intro d' hs hlt x
    have hlt' : (d'.push x).timings.length < 6 := by
      simp only [IrdaCommonDecoder.push, List.length_append, List.length_singleton]
      omega
    rw [receive_eq, hs]
    exact stepProcessRepeat_samsung32_short hlt'
  have h1 := hshort d h.state (by simp [h.timings]) a
  have h2 := hshort (d.push a) h.state (by simp [IrdaCommonDecoder.push, h.timings]) b
  have h3 := hshort ((d.push a).push b) h.state (by simp [IrdaCommonDecoder.push, h.timings]) c
  have h4 := hshort (((d.push a).push b).push c) h.state
    (by simp [IrdaCommonDecoder.push, h.timings]) e
  have h5 := hshort ((((d.push a).push b).push c).push e) h.state
    (by simp [IrdaCommonDecoder.push, h.timings]) f
  refine ⟨((((d.push a).push b).push c).push e).push f, h.state, ?_, ?_, h.message, ?_, ?_⟩
  · simp [IrdaCommonDecoder.push, h.level]
  · simp [IrdaCommonDecoder.push, h.timings]
  · simp only [messages, h1, h2, h3, h4, h5, Option.toList, List.nil_append]
  · simp only [decoderAfter, h1, h2, h3, h4, h5]

/-- The sixth timing after a message is a repeat or has the decoder look for a preamble. -/
theorem Returned.sixth {m : IrdaMessage} (h : Returned d m) (pause : ℕ) (b : Bool) (rest : List ℕ) :
    ((30000 < pause ∧ pause < 150000) ∧ b = true → ∃ d',
      Returned d' { m with «repeat» := true } ∧
      messages protocolSamsung32 d (pause :: 4500 :: 4500 :: 550 ::
        (if b then 1650 else 550) :: 550 :: rest) =
        { m with «repeat» := true } :: messages protocolSamsung32 d' rest ∧
      decoderAfter protocolSamsung32 d (pause :: 4500 :: 4500 :: 550 ::
        (if b then 1650 else 550) :: 550 :: rest) = decoderAfter protocolSamsung32 d' rest) ∧
    (¬ ((30000 < pause ∧ pause < 150000) ∧ b = true) → ∃ d',
      d'.state = .decode ∧ d'.level = false ∧ d'.timings = [550, if b then 1650 else 550, 550] ∧
      d'.databitCnt = 0 ∧ d'.message = m ∧
      messages protocolSamsung32 d (pause :: 4500 :: 4500 :: 550 ::
        (if b then 1650 else 550) :: 550 :: rest) = messages protocolSamsung32 d' rest ∧
      decoderAfter protocolSamsung32 d (pause :: 4500 :: 4500 :: 550 ::
        (if b then 1650 else 550) :: 550 :: rest) = decoderAfter protocolSamsung32 d' rest) := by
  obtain ⟨d5, hs, hl, ht, hm, hms, hda⟩ :=
    h.push_five pause 4500 4500 550 (if b then 1650 else 550) (550 :: rest)
  have ht6 : (d5.push 550).timings = [pause, 4500, 4500, 550, if b then 1650 else 550, 550] := by
    simp [IrdaCommonDecoder.push, ht]
  have hl6 : (d5.push 550).level = false := by simp [IrdaCommonDecoder.push, hl]
  have hr : receive protocolSamsung32 d5 550 = stepProcessRepeat protocolSamsung32 (d5.push 550) := by
    rw [receive_eq, hs]
  rw [stepProcessRepeat_samsung32 ht6] at hr
  constructor
  · intro hb
    rw [if_pos ((samsung32Repeat_iff pause b).mpr hb)] at hr
    have hm' : (d5.push 550).message = m := hm
    rw [hm'] at hr
    refine ⟨{ d5.push 550 with message := { m with «repeat» := true }, timings := [] },
      ⟨hs, hl6, rfl, rfl⟩, ?_, ?_⟩
    · rw [hms, messages, hr]
      rfl
    · rw [hda, decoderAfter, hr]
  · intro hb
    have hw := stepWaitPreamble_repeat (p := protocolSamsung32)
      (d := { d5.push 550 with state := .waitPreamble }) hl6 ht6 (by simp) preamble_samsung32
    rw [if_neg (mt (samsung32Repeat_iff pause b).mp hb), hw] at hr
    refine ⟨{ d5.push 550 with
      state := .decode, timings := [550, if b then 1650 else 550, 550], databitCnt := 0 },
      rfl, hl6, rfl, rfl, hm, ?_, ?_⟩
    · rw [hms, messages, hr]
      rfl
    · rw [hda, decoderAfter, hr]

theorem messages_repeats {m : IrdaMessage} (h : Returned d m) (n : ℕ) (rest : List ℕ) :
    ∃ d' m', Returned d' m' ∧ m'.protocol = m.protocol ∧
      messages protocolSamsung32 d ((List.replicate n repeatTimings).flatten ++ rest) =
        List.replicate n { m with «repeat» := true } ++ messages protocolSamsung32 d' rest := by
  induction n generalizing d m with
  | zero => exact ⟨d, m, h, rfl, rfl⟩
  | succ n ih =>
    obtain ⟨d1, h1, hms, -⟩ := (h.sixth 48650 true
      ((List.replicate n repeatTimings).flatten ++ rest)).1 (by decide)
    obtain ⟨d', m', h', hp, hms'⟩ := ih h1
    refine ⟨d', m', h', hp, ?_⟩
    rw [List.replicate_succ, List.replicate_succ, List.flatten_cons, List.append_assoc, List.cons_append,
      ← hms', ← hms]
    rfl

theorem pairBit_samsung32 (b : Bool) :
    pairBit samsung32Timings 550 (if b then 1650 else 550) = some b := by
  cases b
  · exact pairBit_samsung32_zero
  · exact pairBit_samsung32_one

theorem collecting_two_pairs {s0 s1 : ℕ} {b0 b1 : Bool} (hs : d.state = .decode)
    (hl : d.level = false) (ht : d.timings = [550, s0, 550]) (hn : d.databitCnt = 0)
    (h0 : pairBit samsung32Timings 550 s0 = some b0)
    (h1 : pairBit samsung32Timings 550 s1 = some b1) :
    ∃ d', receive protocolSamsung32 d s1 = (none, d') ∧ Collecting d' [b0, b1] ∧
      d'.message = d.message := by
  have ht4 : (d.push s1).timings = [550, s0, 550, s1] := by simp [IrdaCommonDecoder.push, ht]
  have hr : receive protocolSamsung32 d s1 = stepDecode protocolSamsung32 (d.push s1) := by
    rw [receive_eq, hs]
  have hn' : (d.push s1).databitCnt = 0 := hn
  refine ⟨{ d.push s1 with
    timings := [], databitCnt := 2, data := storeBit (storeBit d.data 0 b0) 1 b1 }, ?_,
    ⟨hs, ?_, rfl, rfl, ?_⟩, rfl⟩
  · have hloop : pdwmLoop samsung32Timings 32 [550, s0, 550, s1] 0 d.data =
        (.ok, [], 2, storeBit (storeBit d.data 0 b0) 1 b1) := by
      rw [pdwmLoop_pair, h0]
      dsimp only
      rw [pdwmLoop_pair, h1]
      rfl
    have hdata : (d.push s1).data = d.data := rfl
    rw [hr]
    simp only [stepDecode, protocolSamsung32, irdaCommonDecodePdwm, ht4, hn', hdata, hloop]
  · simp [IrdaCommonDecoder.push, hl]
  · exact ((packed_nil d.data).store b0).store b1

theorem messages_next {m : IrdaMessage} (h : Returned d m) (hp : m.protocol = .samsung32) (g : ℕ)
    (t : Transmission) (rest : List ℕ) :
    (¬ ((30000 < g ∧ g < 150000) ∧ t.address.getLsbD 0 = true) → ∃ d', Returned d' t.message ∧
      messages protocolSamsung32 d (g :: (frameTimings t ++ rest)) =
        t.message :: messages protocolSamsung32 d' rest) ∧
    ((30000 < g ∧ g < 150000) ∧ t.address.getLsbD 0 = true → ∃ ms,
      messages protocolSamsung32 d (g :: (frameTimings t ++ rest)) =
        { m with «repeat» := true } :: ms) := by
  obtain ⟨b1, bits, hbits⟩ : ∃ b1 bits, t.bits = t.address.getLsbD 0 :: b1 :: bits := by
    rw [Transmission.bits, frameBits_frameOf]
    exact ⟨_, _, rfl⟩
  set b0 := t.address.getLsbD 0
  have hframe : g :: (frameTimings t ++ rest) = g :: 4500 :: 4500 :: 550 ::
      (if b0 then 1650 else 550) :: 550 :: (if b1 then 1650 else 550) ::
        (bitTimings samsung32EncoderTimings bits ++ [550] ++ rest) := by
    rw [frameTimings, hbits]
    cases b0 <;> cases b1 <;> simp [bitTimings, irdaEncodeBit, Pulse.duration] <;>
      exact ⟨rfl, rfl, rfl, rfl⟩
  obtain ⟨hyes, hno⟩ := h.sixth g b0 ((if b1 then 1650 else 550) ::
    (bitTimings samsung32EncoderTimings bits ++ [550] ++ rest))
  constructor
  · intro hb
    obtain ⟨d6, hs, hl, ht, hn, hm, hms, -⟩ := hno hb
    obtain ⟨d7, hr, hc, hm7⟩ := collecting_two_pairs hs hl ht hn (pairBit_samsung32 b0)
      (pairBit_samsung32 b1)
    obtain ⟨hms8, h8⟩ := messages_of_collecting hc hbits (by rw [hm7, hm, hp])
    refine ⟨_, h8, ?_⟩
    rw [hframe, hms, messages, hr, messages_append, hms8]
    rfl
  · intro hb
    obtain ⟨d6, -, hms, -⟩ := hyes hb
    exact ⟨_, hframe ▸ hms⟩

/-- The space before the entry is too long for a repeat, or its first address bit is clear. -/
def Follows (t t' : Transmission) : Prop :=
  t'.address.getLsbD 0 = false ∨ irdaSamsungRepeatPauseMax ≤ irdaSamsungBit1Space + t.gap

theorem messages_waveTimings {m : IrdaMessage} (h : Returned d m) (hp : m.protocol = .samsung32)
    (t : Transmission) (ts : List Transmission) :
    messages protocolSamsung32 d (waveTimings (1650 + t.gap) ts) = ts.flatMap Transmission.expected ↔
      List.IsChain Follows (t :: ts) := by
  induction ts generalizing d m t with
  | nil =>
    have hr : receive protocolSamsung32 d (1650 + t.gap) = (none, d.push (1650 + t.gap)) := by
      rw [receive_eq, h.state]
      exact stepProcessRepeat_samsung32_short (by simp [IrdaCommonDecoder.push, h.timings])
    simp [waveTimings, messages, hr]
  | cons t' ts ih =>
    have hmin : 30000 < 1650 + t.gap := by
      have := t.gap_le
      simp only [irdaSamsungRepeatPause] at this
      omega
    obtain ⟨hgood, hbad⟩ := messages_next h hp (1650 + t.gap) t'
      ((List.replicate (t'.times - 1) repeatTimings).flatten ++ waveTimings (1650 + t'.gap) ts)
    have hfol : Follows t t' ↔
        ¬ ((30000 < 1650 + t.gap ∧ 1650 + t.gap < 150000) ∧ t'.address.getLsbD 0 = true) := by
      simp only [Follows, irdaSamsungRepeatPauseMax, irdaSamsungBit1Space]
      cases t'.address.getLsbD 0
      · simp
      · simp
        omega
    rw [waveTimings, List.isChain_cons_cons, List.flatMap_cons, Transmission.expected, hfol]
    by_cases hb : (30000 < 1650 + t.gap ∧ 1650 + t.gap < 150000) ∧ t'.address.getLsbD 0 = true
    · obtain ⟨ms, hms⟩ := hbad hb
      rw [hms]
      refine ⟨fun he => ?_, fun he => absurd hb he.1⟩
      have := congrArg IrdaMessage.repeat (List.head_eq_of_cons_eq he)
      cases this
    · obtain ⟨d1, h1, hms1⟩ := hgood hb
      obtain ⟨d2, m2, h2, hp2, hms2⟩ := messages_repeats h1 (t'.times - 1)
        (waveTimings (1650 + t'.gap) ts)
      rw [hms1, hms2, List.cons_append, List.cons_inj_right, List.append_cancel_left_eq, ih h2 hp2 t']
      exact ⟨fun hc => ⟨hb, hc⟩, fun hc => hc.2⟩

theorem messages_waveform (idle : ℕ) (ts : List Transmission) :
    messages protocolSamsung32 irdaCommonDecoderAlloc (timingsOf (waveform idle ts)) =
      ts.flatMap Transmission.expected ↔ List.IsChain Follows ts := by
  rw [timingsOf_waveform]
  cases ts with
  | nil =>
    have hr : (receive protocolSamsung32 irdaCommonDecoderAlloc idle).1 = none := by
      rw [receive_waitPreamble rfl]
    simp [waveTimings, messages, hr]
  | cons t ts =>
    obtain ⟨hms, h⟩ := messages_first idle t
    obtain ⟨d2, m2, h2, hp2, hms2⟩ := messages_repeats h (t.times - 1)
      (waveTimings (1650 + t.gap) ts)
    rw [waveTimings, ← List.cons_append, messages_append, hms, hms2, List.flatMap_cons,
      Transmission.expected, List.singleton_append, List.cons_append, List.cons_inj_right,
      List.append_cancel_left_eq]
    exact messages_waveTimings h2 hp2 t ts

/-- The decoder returns what was sent exactly when no entry after the first can be taken for a
repeat of the message before it. -/
theorem samsung32_round_trip_iff (idle : ℕ) (ts : List Transmission) :
    messages protocolSamsung32 irdaCommonDecoderAlloc (timingsOf (waveform idle ts)) =
      ts.flatMap Transmission.expected ↔ List.IsChain Follows ts :=
  messages_waveform idle ts

/-- Two entries with an odd second address and the encoder's own pause between them. -/
theorem samsung32_round_trip_fails : ¬ ∀ idle ts,
    messages protocolSamsung32 irdaCommonDecoderAlloc (timingsOf (waveform idle ts)) =
      ts.flatMap Transmission.expected := by
  intro hall
  have h := (messages_waveform 100000
    [⟨0x0E, 0x0C, 1, 47000, by decide, by decide⟩, ⟨0x07, 0x02, 1, 47000, by decide, by decide⟩]).mp
    (hall _ _)
  rw [List.isChain_cons_cons] at h
  revert h
  simp [Follows, irdaSamsungRepeatPauseMax, irdaSamsungBit1Space]

end FlipperZero.Irda
