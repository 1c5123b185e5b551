import FlipperZero.Irda.Frames
import Mathlib.Data.List.Induction

/-! # Exact recognition of NEC frames

Whatever a fresh NEC decoder has been fed, it is in one of five phases, each of
which says how the stream ends. The phases are kept by every timing, so a message
is returned exactly at the end of a frame and of a repeat.
-/

namespace FlipperZero.Irda

/-- The message of a frame; the protocol is the zero of the allocated memory. -/
def necMessage (frame : BitVec 32) : IrdaMessage where
  protocol := .samsung32
  address := ((frameByte frame 0).zeroExtend 16 |||
    (frameByte frame 1).zeroExtend 16 <<< 8 : BitVec 16).zeroExtend 32
  command := (frameByte frame 2).zeroExtend 32
  «repeat» := false

/-- The stream ends in a preamble and the pairs of the bits. -/
def Matched (ts : List ℕ) (bits : List Bool) : Prop :=
  ∃ pre mark space body, ts = pre ++ mark :: space :: body ∧ necTimings.Preamble mark space ∧
    BitPairs necTimings body bits

/-- The stream ends in a frame with a valid checksum, and the message is the frame's. -/
def EndsFrame (ts : List ℕ) (m : IrdaMessage) : Prop :=
  ∃ pre w frame, ts = pre ++ w ∧ IsFrame necTimings w frame ∧
    frameByte frame 2 = ~~~frameByte frame 3 ∧ m = necMessage frame

/-- The stream ends in a repeat, and the message before it is the repeated one. -/
def EndsRepeat (ts : List ℕ) (m : IrdaMessage) : Prop :=
  ∃ pre pause mark space stop m', ts = pre ++ [pause, mark, space, stop] ∧
    messageAt protocolNec pre = some m' ∧ NecRepeat necTimings pause mark space stop ∧
    m = { m' with «repeat» := true }

/-- What the decoder knows of the stream that it has been fed. -/
inductive Phase (ts : List ℕ) (d : IrdaCommonDecoder) : Prop where
  | idle : d.state = .waitPreamble → d.timings = [] → Phase ts d
  | mark {pre m} : d.state = .waitPreamble → d.level = false → d.timings = [m] →
      ts = pre ++ [m] → Phase ts d
  | collecting {bits} : Collecting d bits → bits.length ≤ 32 → Matched ts bits → Phase ts d
  | holdsMark {bits pre m} : HoldsMark d bits m → bits.length < 32 → Matched pre bits →
      ts = pre ++ [m] → Phase ts d
  | processRepeat {p} : d.state = .processRepeat → ts = p ++ d.timings →
      messageAt protocolNec p = some d.message → d.timings.length < 4 →
      d.level = decide (d.timings.length % 2 = 1) → Phase ts d

variable {ts pre w body : List ℕ} {d : IrdaCommonDecoder} {bits : List Bool} {frame : BitVec 32}

theorem preamble_nec_iff {mark space : ℕ} : necTimings.Preamble mark space ↔
    (8370 < mark ∧ mark < 9630) ∧ 4185 < space ∧ space < 4815 :=
  and_congr match_9000_iff match_4500_iff

theorem matchBitTiming_nec_mark {x : ℕ} :
    matchBitTiming x necTimings.bit1Mark necTimings.bitTolerance ↔ 440 < x ∧ x < 680 :=
  and_comm

theorem necRepeat_iff {pause mark space stop : ℕ} : NecRepeat necTimings pause mark space stop ↔
    (30000 < pause ∧ pause < 150000) ∧ (8370 < mark ∧ mark < 9630) ∧
      (2092 < space ∧ space < 2408) ∧ 440 < stop ∧ stop < 680 := by
  rw [NecRepeat, matchBitTiming_nec_mark, ← and_assoc]
  exact and_congr Iff.rfl (and_congr match_9000_iff (and_congr_left' match_2250_iff))

theorem pairBit_nec_of_preamble {mark space x : ℕ} (h : necTimings.Preamble mark space) :
    pairBit necTimings mark x = none := by
  have hm := preamble_nec_iff.mp h
  have h1 : ¬ matchBitTiming mark necTimings.bit1Mark necTimings.bitTolerance := by
    rw [matchBitTiming_nec_mark]
    omega
  have h0 : ¬ matchBitTiming mark necTimings.bit0Mark necTimings.bitTolerance := h1
  simp [pairBit, h1, h0]

theorem Matched.snoc (h : Matched ts bits) {mark space : ℕ} {b : Bool}
    (hb : pairBit necTimings mark space = some b) : Matched (ts ++ [mark, space]) (bits ++ [b]) := by
  obtain ⟨pre, mk, sp, body, rfl, hp, hbody⟩ := h
  exact ⟨pre, mk, sp, body ++ [mark, space], by simp, hp, hbody.snoc hb⟩

theorem matched_preamble {mark space : ℕ} (h : necTimings.Preamble mark space) :
    Matched (ts ++ [mark, space]) [] :=
  ⟨ts, mark, space, [], rfl, h, trivial⟩

theorem Matched.isFrame (h : Matched ts (frameBits frame)) {x : ℕ}
    (hx : matchBitTiming x necTimings.bit1Mark necTimings.bitTolerance) :
    ∃ pre w, ts ++ [x] = pre ++ w ∧ IsFrame necTimings w frame := by
  obtain ⟨pre, mark, space, body, rfl, hp, hb⟩ := h
  exact ⟨pre, mark :: space :: (body ++ [x]), by simp, mark, space, body, x, rfl, hp, hb, hx⟩

theorem stepReady_nec (hd : Packed d.data (frameBits frame))
    (hm : d.message.protocol = .samsung32) : stepReady protocolNec d =
      if frameByte frame 2 = ~~~frameByte frame 3 then
        (some (necMessage frame), { d with message := necMessage frame, state := .processRepeat })
      else (none, { d with state := .waitPreamble }) := by
  have h0 : d.data 0 = frameByte frame 0 := hd.data_eq (by decide)
  have h1 : d.data 1 = frameByte frame 1 := hd.data_eq (by decide)
  have h2 : d.data 2 = frameByte frame 2 := hd.data_eq (by decide)
  have h3 : d.data 3 = frameByte frame 3 := hd.data_eq (by decide)
  by_cases h : frameByte frame 2 = ~~~frameByte frame 3
  · simp only [stepReady, protocolNec, interpretNec, h0, h1, h2, h3, if_pos h, necMessage, hm]
  · simp only [stepReady, protocolNec, interpretNec, h2, h3, if_neg h]

section Step

/-- The decoder touches neither the level nor the protocol of its message. -/
structure Keeps (d d' : IrdaCommonDecoder) : Prop where
  level : d'.level = d.level
  protocol : d'.message.protocol = d.message.protocol

theorem Keeps.trans {d d' d'' : IrdaCommonDecoder} (h : Keeps d d') (h' : Keeps d' d'') :
    Keeps d d'' :=
  ⟨h'.level.trans h.level, h'.protocol.trans h.protocol⟩

theorem keeps_stepWaitPreamble (p : IrdaCommonProtocolSpec) (d : IrdaCommonDecoder) :
    Keeps d (stepWaitPreamble p d) := by
  simp only [stepWaitPreamble, irdaCheckPreamble]
  split
  · next h => rw [(Prod.mk.inj h).2.symm]; exact ⟨rfl, rfl⟩
  · next h => rw [(Prod.mk.inj h).2.symm]; exact ⟨rfl, rfl⟩

theorem keeps_error (p : IrdaCommonProtocolSpec) (d : IrdaCommonDecoder) :
    Keeps d (stepWaitPreamble p { d with state := .waitPreamble }) :=
  have h := keeps_stepWaitPreamble p { d with state := .waitPreamble }
  ⟨h.level, h.protocol⟩

theorem keeps_stepReady_nec (d : IrdaCommonDecoder) : Keeps d (stepReady protocolNec d).2 := by
  simp only [stepReady, protocolNec, interpretNec]
  by_cases h : d.data 2 = ~~~d.data 3
  · simp only [if_pos h]
    exact ⟨rfl, rfl⟩
  · simp only [if_neg h]
    exact ⟨rfl, rfl⟩

theorem keeps_receive_nec (d : IrdaCommonDecoder) (x : ℕ) :
    Keeps (d.push x) (receive protocolNec d x).2 := by
  rw [receive_eq]
  cases d.state with
  | waitPreamble => exact keeps_stepWaitPreamble _ _
  | decode =>
    have hk : Keeps (d.push x) (irdaCommonDecodePdwm necTimings 32 (d.push x)).2 := ⟨rfl, rfl⟩
    simp only [stepDecode, protocolNec]
    split
    · next h =>
      rw [h] at hk
      exact hk.trans (keeps_stepReady_nec _)
    · next h =>
      rw [h] at hk
      exact hk.trans (keeps_error _ _)
    · next h =>
      rw [h] at hk
      exact hk
  | processRepeat =>
    have hk : Keeps (d.push x) (decodeRepeatNec necTimings (d.push x)).2 := by
      unfold decodeRepeatNec
      split
      · split <;> exact ⟨rfl, rfl⟩
      · exact ⟨rfl, rfl⟩
    simp only [stepProcessRepeat, protocolNec]
    split
    · next h =>
      rw [h] at hk
      exact hk.trans (keeps_error _ _)
    · next h =>
      rw [h] at hk
      exact hk.trans ⟨rfl, rfl⟩
    · next h =>
      rw [h] at hk
      exact hk

end Step

theorem decoderAfter_concat (p : IrdaCommonProtocolSpec) (d : IrdaCommonDecoder) (ts : List ℕ)
    (x : ℕ) : decoderAfter p d (ts ++ [x]) = (receive p (decoderAfter p d ts) x).2 :=
  decoderAfter_append p d ts [x]

theorem decoderAfter_nec (ts : List ℕ) :
    (decoderAfter protocolNec irdaCommonDecoderAlloc ts).level = decide (ts.length % 2 = 1) ∧
      (decoderAfter protocolNec irdaCommonDecoderAlloc ts).message.protocol = .samsung32 := by
  induction ts using List.reverseRecOn with
  | nil => exact ⟨rfl, rfl⟩
  | append_singleton ts x ih =>
    have hk := keeps_receive_nec (decoderAfter protocolNec irdaCommonDecoderAlloc ts) x
    rw [decoderAfter_concat]
    refine ⟨hk.level.trans ?_, hk.protocol.trans ih.2⟩
    simp only [IrdaCommonDecoder.push, ih.1, List.length_append, List.length_singleton]
    rcases Nat.mod_two_eq_zero_or_one ts.length with h | h <;> simp [h, Nat.add_mod]

theorem phase_stepWaitPreamble_pair {mark space : ℕ} (hs : d.state = .waitPreamble)
    (hl : d.level = true) (ht : d.timings = [mark, space]) :
    Phase (ts ++ [mark, space]) (stepWaitPreamble protocolNec d) := by
  rw [stepWaitPreamble_pair hl ht]
  split
  · next h =>
    exact .collecting ⟨rfl, hl, rfl, rfl, packed_nil _⟩ (Nat.zero_le _) (matched_preamble h)
  · exact .idle hs rfl

theorem stepWaitPreamble_nec_repeat {pause mark space stop : ℕ} (hl : d.level = false)
    (ht : d.timings = [pause, mark, space, stop]) :
    (necTimings.Preamble mark space → HoldsMark (stepWaitPreamble protocolNec d) [] stop) ∧
      (¬ necTimings.Preamble mark space →
        stepWaitPreamble protocolNec d = { d with timings := [stop] }) := by
  constructor
  · intro h
    rw [stepWaitPreamble_repeat (p := protocolNec) hl ht rfl h]
    exact ⟨rfl, hl, rfl, rfl, packed_nil _⟩
  · intro h
    have h' : ¬ protocolNec.timings.Preamble mark space := h
    simp [stepWaitPreamble, irdaCheckPreamble, startLevel, hl, ht, checkPreambleLoop, h']

theorem phase_stepWaitPreamble_repeat {pause mark space stop : ℕ} (hs : d.state = .waitPreamble)
    (hl : d.level = false) (ht : d.timings = [pause, mark, space, stop]) :
    Phase (ts ++ [pause, mark, space, stop]) (stepWaitPreamble protocolNec d) := by
  obtain ⟨hyes, hno⟩ := stepWaitPreamble_nec_repeat hl ht
  have hts : ts ++ [pause, mark, space, stop] = (ts ++ [pause, mark, space]) ++ [stop] := by simp
  by_cases h : necTimings.Preamble mark space
  · refine .holdsMark (hyes h) (by decide) ?_ hts
    have hm : Matched ((ts ++ [pause]) ++ [mark, space]) [] := matched_preamble h
    simpa using hm
  · rw [hno h]
    exact .mark hs hl rfl hts

theorem stepProcessRepeat_nec_short (h : d.timings.length < 4) :
    stepProcessRepeat protocolNec d = (none, d) := by
  have hr : decodeRepeatNec protocolNec.timings d = (.ok, d) := by
    unfold decodeRepeatNec
    split
    · next ht =>
      simp [ht] at h
      omega
    · rfl
  simp only [stepProcessRepeat, protocolNec] at hr ⊢
  rw [hr]

theorem stepProcessRepeat_nec {pause mark space stop : ℕ}
    (ht : d.timings = [pause, mark, space, stop]) : stepProcessRepeat protocolNec d =
      if NecRepeat necTimings pause mark space stop then
        (some { d.message with «repeat» := true },
          { d with message := { d.message with «repeat» := true }, timings := [] })
      else (none, stepWaitPreamble protocolNec { d with state := .waitPreamble }) := by
  by_cases h : NecRepeat necTimings pause mark space stop
  · have hr : decodeRepeatNec necTimings d = (.ready, { d with timings := [] }) := by
      simp only [decodeRepeatNec, ht, if_pos h]
    simp only [stepProcessRepeat, protocolNec, hr, if_pos h]
  · have hr : decodeRepeatNec necTimings d = (.error, d) := by
      simp only [decodeRepeatNec, ht, if_neg h]
    rw [if_neg h]
    simp only [stepProcessRepeat, protocolNec, hr]

/-- The next duration leads to a phase, and a message it gives is that of a frame or a repeat. -/
structure Received (ts : List ℕ) (level : Bool) (r : Option IrdaMessage × IrdaCommonDecoder) :
    Prop where
  phase : Phase ts r.2
  ends : ∀ m, r.1 = some m → (level = true ∧ m.repeat = false ∧ EndsFrame ts m) ∨
    (m.repeat = true ∧ EndsRepeat ts m)

theorem Phase.received {level : Bool} (h : Phase ts d) : Received ts level (none, d) :=
  ⟨h, fun _ hm => by cases hm⟩

theorem received_idle (hs : d.state = .waitPreamble) (ht : d.timings = []) (x : ℕ) :
    Received (ts ++ [x]) d.level (receive protocolNec d x) := by
  have hr : receive protocolNec d x = (none, stepWaitPreamble protocolNec (d.push x)) := by
    rw [receive_eq, hs]
  have ht' : (d.push x).timings = [x] := by simp [IrdaCommonDecoder.push, ht]
  rw [hr]
  apply Phase.received
  cases hl : d.level with
  | false =>
    rw [stepWaitPreamble_space (by simp [IrdaCommonDecoder.push, hl]) ht']
    exact .idle hs rfl
  | true =>
    have hl' : (d.push x).level = false := by simp [IrdaCommonDecoder.push, hl]
    rw [stepWaitPreamble_mark hl' ht']
    exact .mark hs hl' ht' rfl

theorem received_stop (hd : d = decoderAfter protocolNec irdaCommonDecoderAlloc ts)
    (hc : Collecting d bits) (hlen : bits.length = 32) (hm : Matched ts bits) (x : ℕ) :
    Received (ts ++ [x]) d.level (receive protocolNec d x) := by
  have hproto : d.message.protocol = .samsung32 := hd ▸ (decoderAfter_nec ts).2
  obtain ⟨frame, rfl⟩ := exists_frameBits hlen
  obtain ⟨hyes, hno⟩ := hc.receive_stop pdwm_nec hlen x
  by_cases hx : matchBitTiming x necTimings.bit1Mark necTimings.bitTolerance
  · obtain ⟨d', hpk, hl', ht', hmsg, hr⟩ := hyes hx
    obtain ⟨pre, w, hw, hf⟩ := hm.isFrame hx
    rw [hr, stepReady_nec hpk (hmsg ▸ hproto)]
    split
    · next hsum =>
      refine ⟨.processRepeat (p := ts ++ [x]) rfl (by simp [ht']) ?_ (by simp [ht'])
        (by simp [ht', hl']), fun m hm => ?_⟩
      · rw [messageAt_concat, ← hd, hr, stepReady_nec hpk (hmsg ▸ hproto), if_pos hsum]
      · obtain rfl : necMessage frame = m := Option.some.inj hm
        exact .inl ⟨hc.level, rfl, pre, w, frame, hw, hf, hsum, rfl⟩
    · exact Phase.received (.idle rfl ht')
  · rw [hno hx]
    apply Phase.received
    refine .mark rfl ?_ ?_ rfl
    · simp [IrdaCommonDecoder.push, hc.level]
    · simp [IrdaCommonDecoder.push, hc.timings]

theorem received_collecting (hd : d = decoderAfter protocolNec irdaCommonDecoderAlloc ts)
    (hc : Collecting d bits) (hlen : bits.length ≤ 32) (hm : Matched ts bits) (x : ℕ) :
    Received (ts ++ [x]) d.level (receive protocolNec d x) := by
  rcases Nat.lt_or_eq_of_le hlen with hlt | heq
  · obtain ⟨hr, hh⟩ := hc.receive_mark pdwm_nec hlt x
    rw [hr]
    exact Phase.received (.holdsMark hh hlt hm rfl)
  · exact received_stop hd hc heq hm x

theorem received_holdsMark {mark : ℕ} (hh : HoldsMark d bits mark) (hlt : bits.length < 32)
    (hm : Matched pre bits) (x : ℕ) :
    Received (pre ++ [mark, x]) d.level (receive protocolNec d x) := by
  obtain ⟨hyes, hno⟩ := hh.receive_space pdwm_nec x
  cases hb : pairBit necTimings mark x with
  | some b =>
    obtain ⟨d', hr, hc, -⟩ := hyes b hb
    rw [hr]
    apply Phase.received
    refine .collecting hc ?_ (hm.snoc hb)
    rw [List.length_append, List.length_singleton]
    omega
  | none =>
    obtain ⟨d', hr, hl', ht', -⟩ := hno hb
    rw [hr]
    exact Phase.received (phase_stepWaitPreamble_pair rfl hl' ht')

theorem received_processRepeat (hd : d = decoderAfter protocolNec irdaCommonDecoderAlloc ts)
    (hs : d.state = .processRepeat) (he : ts = pre ++ d.timings)
    (hm : messageAt protocolNec pre = some d.message) (hlt : d.timings.length < 4)
    (hl : d.level = decide (d.timings.length % 2 = 1)) (x : ℕ) :
    Received (ts ++ [x]) d.level (receive protocolNec d x) := by
  have hr : receive protocolNec d x = stepProcessRepeat protocolNec (d.push x) := by
    rw [receive_eq, hs]
  have ht' : (d.push x).timings = d.timings ++ [x] := rfl
  rcases Nat.lt_or_ge (d.timings.length + 1) 4 with hlt' | hge
  · rw [hr, stepProcessRepeat_nec_short (by simpa [ht'] using hlt')]
    apply Phase.received
    refine .processRepeat (p := pre) hs ?_ hm (by simpa [ht'] using hlt') ?_
    · rw [ht', ← List.append_assoc, ← he]
    · simp only [IrdaCommonDecoder.push, hl, List.length_append, List.length_singleton]
      rcases Nat.mod_two_eq_zero_or_one d.timings.length with h | h <;> simp [h, Nat.add_mod]
  · have h3 : d.timings.length = 3 := by omega
    obtain ⟨pause, mark, space, ht⟩ := List.length_eq_three.mp h3
    have ht4 : (d.push x).timings = [pause, mark, space, x] := by rw [ht', ht]; rfl
    have hl4 : (d.push x).level = false := by simp [IrdaCommonDecoder.push, hl, h3]
    have hts : ts ++ [x] = pre ++ [pause, mark, space, x] := by rw [he, ht]; simp
    have hmsg := messageAt_concat protocolNec ts x
    rw [← hd, hr, stepProcessRepeat_nec ht4] at hmsg
    rw [hr, stepProcessRepeat_nec ht4]
    split
    · next h =>
      rw [if_pos h] at hmsg
      refine ⟨.processRepeat (p := ts ++ [x]) hs (by simp) hmsg (by simp) (by simp [hl4]),
        fun m hm' => .inr ?_⟩
      obtain rfl := Option.some.inj hm'
      exact ⟨rfl, pre, pause, mark, space, x, d.message, hts, hm, h, rfl⟩
    · next h =>
      rw [hts]
      exact Phase.received (phase_stepWaitPreamble_repeat rfl hl4 ht4)

theorem received_receive (hd : d = decoderAfter protocolNec irdaCommonDecoderAlloc ts)
    (hp : Phase ts d) (x : ℕ) : Received (ts ++ [x]) d.level (receive protocolNec d x) := by
  cases hp with
  | idle hs ht => exact received_idle hs ht x
  | @mark pre m hs hl ht he =>
    have hr : receive protocolNec d x = (none, stepWaitPreamble protocolNec (d.push x)) := by
      rw [receive_eq, hs]
    rw [hr, he, List.append_assoc]
    refine Phase.received (phase_stepWaitPreamble_pair hs ?_ ?_)
    · simp [IrdaCommonDecoder.push, hl]
    · simp [IrdaCommonDecoder.push, ht]
  | collecting hc hlen hm => exact received_collecting hd hc hlen hm x
  | holdsMark hh hlt hm he =>
    rw [he, List.append_assoc]
    exact received_holdsMark hh hlt hm x
  | processRepeat hs he hm hlt hl => exact received_processRepeat hd hs he hm hlt hl x

theorem phase_decoderAfter (ts : List ℕ) :
    Phase ts (decoderAfter protocolNec irdaCommonDecoderAlloc ts) := by
  induction ts using List.reverseRecOn with
  | nil => exact .idle rfl rfl
  | append_singleton ts x ih =>
    rw [decoderAfter_concat]
    exact (received_receive rfl ih x).phase

/-- A message is the one of a frame or of a repeat that ends at the last timing, a mark. -/
theorem ends_of_messageAt {m : IrdaMessage} (h : messageAt protocolNec ts = some m) :
    (ts.length % 2 = 0 ∧ m.repeat = false ∧ EndsFrame ts m) ∨
      (m.repeat = true ∧ EndsRepeat ts m) := by
  induction ts using List.reverseRecOn with
  | nil => cases h
  | append_singleton ts x _ =>
    rw [messageAt_concat] at h
    rcases (received_receive rfl (phase_decoderAfter ts) x).ends m h with ⟨hl, hm⟩ | hm
    · rw [(decoderAfter_nec ts).1, decide_eq_true_eq] at hl
      refine .inl ⟨?_, hm⟩
      rw [List.length_append, List.length_singleton]
      omega
    · exact .inr hm

/-- The decoder keeps the mark, waiting for a preamble or for the space of a bit. -/
def AtMark (d : IrdaCommonDecoder) (mark : ℕ) : Prop :=
  (d.state = .waitPreamble ∧ d.level = false ∧ d.timings = [mark]) ∨ ∃ bits, HoldsMark d bits mark

theorem collecting_of_preamble {mark space : ℕ} (hd : AtMark d mark)
    (h : necTimings.Preamble mark space) : Collecting (receive protocolNec d space).2 [] := by
  have h' : protocolNec.timings.Preamble mark space := h
  rcases hd with ⟨hs, hl, ht⟩ | ⟨bits, hh⟩
  · have hl' : (d.push space).level = true := by simp [IrdaCommonDecoder.push, hl]
    have ht' : (d.push space).timings = [mark, space] := by simp [IrdaCommonDecoder.push, ht]
    have hr : receive protocolNec d space = (none, stepWaitPreamble protocolNec (d.push space)) := by
      rw [receive_eq, hs]
    rw [hr, stepWaitPreamble_pair hl' ht', if_pos h']
    exact ⟨rfl, hl', rfl, rfl, packed_nil _⟩
  · obtain ⟨d', hr, hl', ht', -⟩ := (hh.receive_space pdwm_nec space).2 (pairBit_nec_of_preamble h)
    have hw := stepWaitPreamble_pair (p := protocolNec)
      (d := { d' with state := .waitPreamble }) hl' ht'
    rw [hr, hw, if_pos h']
    exact ⟨rfl, hl', rfl, rfl, packed_nil _⟩

theorem atMark_stepWaitPreamble_repeat {pause mark space stop : ℕ} (hs : d.state = .waitPreamble)
    (hl : d.level = false) (ht : d.timings = [pause, mark, space, stop]) :
    AtMark (stepWaitPreamble protocolNec d) stop := by
  obtain ⟨hyes, hno⟩ := stepWaitPreamble_nec_repeat hl ht
  by_cases h : necTimings.Preamble mark space
  · exact .inr ⟨[], hyes h⟩
  · rw [hno h]
    exact .inl ⟨hs, hl, rfl⟩

/-- Whatever came before a space, a preamble and the first mark after it start a frame. -/
theorem holdsMark_of_preamble (hp : Phase ts d) (hl : d.level = true) {mark space : ℕ}
    (h : necTimings.Preamble mark space) (x : ℕ) :
    HoldsMark (decoderAfter protocolNec d [mark, space, x]) [] x := by
  have hpre := preamble_nec_iff.mp h
  have hstart : AtMark (receive protocolNec d mark).2 mark →
      HoldsMark (decoderAfter protocolNec d [mark, space, x]) [] x := by
    intro hm
    obtain ⟨hr, hh⟩ := (collecting_of_preamble hm h).receive_mark pdwm_nec (by decide) x
    simp only [decoderAfter, hr]
    exact hh
  cases hp with
  | idle hs ht =>
    have hl' : (d.push mark).level = false := by simp [IrdaCommonDecoder.push, hl]
    have ht' : (d.push mark).timings = [mark] := by simp [IrdaCommonDecoder.push, ht]
    have hr : receive protocolNec d mark = (none, d.push mark) := by
      rw [receive_eq, hs]
      simp only [stepWaitPreamble_mark hl' ht']
    refine hstart (.inl ?_)
    rw [hr]
    exact ⟨hs, hl', ht'⟩
  | mark _ hl' => simp [hl] at hl'
  | @collecting bits hc hlen hm =>
    rcases Nat.lt_or_eq_of_le hlen with hlt | heq
    · obtain ⟨hr, hh⟩ := hc.receive_mark pdwm_nec hlt mark
      refine hstart (.inr ⟨bits, ?_⟩)
      rw [hr]
      exact hh
    · have hno : ¬ matchBitTiming mark necTimings.bit1Mark necTimings.bitTolerance := by
        rw [matchBitTiming_nec_mark]
        omega
      refine hstart (.inl ?_)
      rw [(hc.receive_stop pdwm_nec heq mark).2 hno]
      simp [IrdaCommonDecoder.push, hl, hc.timings]
  | holdsMark hh => simp [hh.level] at hl
  | @processRepeat pre hs he hm hlt hl' =>
    have hodd : d.timings.length % 2 = 1 := by simpa [hl] using hl'
    have hr : ∀ y, receive protocolNec d y = stepProcessRepeat protocolNec (d.push y) := by
      intro y
      rw [receive_eq, hs]
    rcases (by omega : d.timings.length = 1 ∨ d.timings.length = 3) with h1 | h3
    · obtain ⟨pause, ht⟩ := List.length_eq_one_iff.mp h1
      have hno : ¬ NecRepeat necTimings pause mark space x := by
        rw [necRepeat_iff]
        omega
      have hr1 : receive protocolNec d mark = (none, d.push mark) := by
        rw [hr, stepProcessRepeat_nec_short (by simp [IrdaCommonDecoder.push, ht])]
      have hr2 : receive protocolNec (d.push mark) space = (none, (d.push mark).push space) := by
        have hs' : (d.push mark).state = .processRepeat := hs
        rw [receive_eq, hs']
        exact stepProcessRepeat_nec_short (by simp [IrdaCommonDecoder.push, ht])
      have ht4 : (((d.push mark).push space).push x).timings = [pause, mark, space, x] := by
        simp [IrdaCommonDecoder.push, ht]
      have hr3 : receive protocolNec ((d.push mark).push space) x = (none, stepWaitPreamble
          protocolNec { ((d.push mark).push space).push x with state := .waitPreamble }) := by
        have hs' : ((d.push mark).push space).state = .processRepeat := hs
        rw [receive_eq, hs']
        simp only [stepProcessRepeat_nec ht4, if_neg hno]
      simp only [decoderAfter, hr1, hr2, hr3]
      refine (stepWaitPreamble_nec_repeat
        (d := { ((d.push mark).push space).push x with state := .waitPreamble }) ?_ ht4).1 h
      simp [IrdaCommonDecoder.push, hl]
    · obtain ⟨pause, mark', space', ht⟩ := List.length_eq_three.mp h3
      have hno : ¬ NecRepeat necTimings pause mark' space' mark := by
        rw [necRepeat_iff]
        omega
      have ht4 : (d.push mark).timings = [pause, mark', space', mark] := by
        simp [IrdaCommonDecoder.push, ht]
      apply hstart
      rw [hr, stepProcessRepeat_nec ht4, if_neg hno]
      refine atMark_stepWaitPreamble_repeat rfl ?_ ht4
      simp [IrdaCommonDecoder.push, hl]

theorem messageAt_of_isFrame (hw : IsFrame necTimings w frame) (hpre : pre.length % 2 = 1)
    (hsum : frameByte frame 2 = ~~~frameByte frame 3) :
    messageAt protocolNec (pre ++ w) = some (necMessage frame) := by
  obtain ⟨mark, space, body, stop, rfl, hp, hb, hs⟩ := hw
  set d := decoderAfter protocolNec irdaCommonDecoderAlloc pre with hd
  have hl : d.level = true := by
    rw [hd, (decoderAfter_nec pre).1, decide_eq_true hpre]
  obtain ⟨m, s, rest, b, bits, rfl, hbits, hb0, hrest⟩ : ∃ m s rest b bits, body = m :: s :: rest ∧
      frameBits frame = b :: bits ∧ pairBit necTimings m s = some b ∧
      BitPairs necTimings rest bits := by
    match body, hbits : frameBits frame with
    | _, [] => simpa [hbits] using length_frameBits frame
    | [], b :: bits => rw [hbits] at hb; cases hb
    | [_], b :: bits => rw [hbits] at hb; cases hb
    | m :: s :: rest, b :: bits =>
      rw [hbits] at hb
      exact ⟨m, s, rest, b, bits, rfl, rfl, hb⟩
  have hlen : bits.length + 1 = 32 := by
    rw [← length_frameBits frame, hbits, List.length_cons]
  have hm := holdsMark_of_preamble (phase_decoderAfter pre) hl hp m
  set d1 := decoderAfter protocolNec d [mark, space, m] with hd1
  obtain ⟨d2, hr2, hc2, hmsg2⟩ := (hm.receive_space pdwm_nec s).1 b hb0
  obtain ⟨-, hc3, hmsg3⟩ := hc2.pairs pdwm_nec hrest (by simp; omega)
  have hd3 : decoderAfter protocolNec irdaCommonDecoderAlloc
      (pre ++ [mark, space, m] ++ s :: rest) = decoderAfter protocolNec d2 rest := by
    rw [decoderAfter_append, decoderAfter_append, ← hd, ← hd1, decoderAfter, hr2]
  have hbits' : [] ++ [b] ++ bits = frameBits frame := by rw [hbits]; rfl
  rw [hbits'] at hc3
  obtain ⟨d4, hpk, -, -, hmsg4, hr4⟩ :=
    (hc3.receive_stop pdwm_nec (length_frameBits frame) stop).1 hs
  have hproto : d4.message.protocol = .samsung32 := by
    rw [hmsg4, ← hd3]
    exact (decoderAfter_nec _).2
  have hlist : pre ++ mark :: space :: (m :: s :: rest ++ [stop]) =
      pre ++ [mark, space, m] ++ s :: rest ++ [stop] := by simp
  rw [hlist, messageAt_concat, hd3, hr4, stepReady_nec hpk hproto, if_pos hsum]

theorem pdwmLoop_ready {tm : IrdaCommonDecoderTimings} {len cnt : ℕ} {data : ℕ → BitVec 8}
    (h : (pdwmLoop tm len ts cnt data).1 = .ready) : (pdwmLoop tm len ts cnt data).2.1 = [] := by
  induction ts, cnt, data using pdwmLoop.induct tm len with
  | case1 | case2 | case3 | case4 => simp_all [pdwmLoop]
  | case5 mark space rest cnt data data' h1 ih =>
    simp only [pdwmLoop, if_pos h1] at h ⊢
    exact ih h
  | case6 mark space rest cnt data data' h1 h0 ih =>
    simp only [pdwmLoop, if_neg h1, if_pos h0] at h ⊢
    exact ih h
  | case7 mark space rest cnt data h1 h0 =>
    simp only [pdwmLoop, if_neg h1, if_neg h0] at h
    cases h

theorem receive_nec_some {x : ℕ} {m : IrdaMessage} (h : (receive protocolNec d x).1 = some m) :
    (receive protocolNec d x).2.state = .processRepeat ∧
      (receive protocolNec d x).2.timings = [] ∧ (receive protocolNec d x).2.message = m := by
  rw [receive_eq] at h ⊢
  cases hs : d.state with
  | waitPreamble => simp [hs] at h
  | decode =>
    simp only [hs, stepDecode, protocolNec] at h ⊢
    split at h
    · next d' hr =>
      have ht : d'.timings = [] := by
        have := pdwmLoop_ready (congrArg Prod.fst hr)
        rw [← (Prod.mk.inj hr).2]
        exact this
      by_cases hc : d'.data 2 = ~~~d'.data 3
      · simp only [stepReady, interpretNec, if_pos hc, Option.some.injEq] at h ⊢
        exact ⟨trivial, ht, h⟩
      · simp [stepReady, interpretNec, if_neg hc] at h
    · cases h
    · cases h
  | processRepeat =>
    simp only [hs, stepProcessRepeat, protocolNec] at h ⊢
    split at h
    · cases h
    · next d' hr =>
      have ht : d'.timings = [] ∧ d'.state = d.state := by
        unfold decodeRepeatNec at hr
        split at hr
        · split at hr
          · obtain ⟨-, rfl⟩ := Prod.mk.inj hr
            exact ⟨rfl, rfl⟩
          · cases hr
        · cases hr
      exact ⟨ht.2.trans hs, ht.1, Option.some.inj h⟩
    · cases h

theorem messageAt_of_necRepeat {pause mark space stop : ℕ} {m : IrdaMessage}
    (hm : messageAt protocolNec ts = some m) (h : NecRepeat necTimings pause mark space stop) :
    messageAt protocolNec (ts ++ [pause, mark, space, stop]) =
      some { m with «repeat» := true } := by
  obtain ⟨hs, ht, hmsg⟩ : (decoderAfter protocolNec irdaCommonDecoderAlloc ts).state =
      .processRepeat ∧ (decoderAfter protocolNec irdaCommonDecoderAlloc ts).timings = [] ∧
      (decoderAfter protocolNec irdaCommonDecoderAlloc ts).message = m := by
    induction ts using List.reverseRecOn with
    | nil => cases hm
    | append_singleton ts x _ =>
      rw [messageAt_concat] at hm
      rw [decoderAfter_concat]
      exact receive_nec_some hm
  set d := decoderAfter protocolNec irdaCommonDecoderAlloc ts with hd
  have hshort : ∀ d' : IrdaCommonDecoder, d'.state = .processRepeat → d'.timings.length < 3 →
      ∀ x, receive protocolNec d' x = (none, d'.push x) := by
    intro d' hs' hlt x
    have hlt' : (d'.push x).timings.length < 4 := by
      simp only [IrdaCommonDecoder.push, List.length_append, List.length_singleton]
      omega
    rw [receive_eq, hs']
    exact stepProcessRepeat_nec_short hlt'
  have h1 := hshort d hs (by simp [ht]) pause
  have h2 := hshort (d.push pause) hs (by simp [IrdaCommonDecoder.push, ht]) mark
  have h3 := hshort ((d.push pause).push mark) hs (by simp [IrdaCommonDecoder.push, ht]) space
  have ht4 : ((((d.push pause).push mark).push space).push stop).timings =
      [pause, mark, space, stop] := by simp [IrdaCommonDecoder.push, ht]
  have hlist : ts ++ [pause, mark, space, stop] = (ts ++ [pause, mark, space]) ++ [stop] := by simp
  have hd' : decoderAfter protocolNec irdaCommonDecoderAlloc (ts ++ [pause, mark, space]) =
      ((d.push pause).push mark).push space := by
    rw [decoderAfter_append, ← hd]
    simp only [decoderAfter, h1, h2, h3]
  have hs4 : (((d.push pause).push mark).push space).state = .processRepeat := hs
  rw [hlist, messageAt_concat, hd', receive_eq, hs4]
  dsimp only
  rw [stepProcessRepeat_nec ht4, if_pos h, ← hmsg]
  rfl

/-- A fresh NEC decoder returns a message at a timing exactly when the stream ends there in a
frame with a valid checksum, and a repeat exactly when it ends in a repeat after a message. -/
theorem irda_common_decode_nec_exact (ts : List ℕ) (m : IrdaMessage) :
    (messageAt protocolNec ts = some m ∧ m.repeat = false ↔
      ts.length % 2 = 0 ∧ ∃ pre w frame, ts = pre ++ w ∧ w.length = 67 ∧
        IsFrame necTimings w frame ∧ frameByte frame 2 = ~~~frameByte frame 3 ∧
        m = necMessage frame) ∧
    (messageAt protocolNec ts = some m ∧ m.repeat = true ↔
      ∃ pre pause mark space stop m', ts = pre ++ [pause, mark, space, stop] ∧
        messageAt protocolNec pre = some m' ∧ NecRepeat necTimings pause mark space stop ∧
        m = { m' with «repeat» := true }) := by
  constructor
  · constructor
    · rintro ⟨hm, hrep⟩
      rcases ends_of_messageAt hm with ⟨heven, -, pre, w, frame, hts, hw, hsum, rfl⟩ | ⟨hrep', -⟩
      · exact ⟨heven, pre, w, frame, hts, hw.length, hw, hsum, rfl⟩
      · simp [hrep] at hrep'
    · rintro ⟨heven, pre, w, frame, rfl, hlen, hw, hsum, rfl⟩
      rw [List.length_append, hlen] at heven
      exact ⟨messageAt_of_isFrame hw (by omega) hsum, rfl⟩
  · constructor
    · rintro ⟨hm, hrep⟩
      rcases ends_of_messageAt hm with ⟨-, hrep', -⟩ | ⟨-, hends⟩
      · simp [hrep] at hrep'
      · exact hends
    · rintro ⟨pre, pause, mark, space, stop, m', rfl, hm, h, rfl⟩
      exact ⟨messageAt_of_necRepeat hm h, rfl⟩

end FlipperZero.Irda
