import FlipperZero.Irda.NecWaveform

/-! # Receiving through the capture interrupt

A timer latches its count at every edge of the line. The interrupt hands the count
on and clears the counter, some time after the edge, so a timing is short by the
delay of the interrupt before it. A NEC transmission is received as it was sent while
this delay and the jitter of the sender stay within the tolerance of a bit.
-/

namespace FlipperZero.Irda

section Interrupt

/-- The first channel latches at a falling edge, which ends a space. -/
inductive TimerIRQSource where
  | cci1
  | cci2
  deriving DecidableEq, Repr

def TimerIRQSource.level : TimerIRQSource → Bool
  | .cci1 => true
  | .cci2 => false

def TimerIRQSource.other : TimerIRQSource → TimerIRQSource
  | .cci1 => .cci2
  | .cci2 => .cci1

/-- An edge of the line, with the clock at which its interrupt clears the counter. -/
structure Edge where
  source : TimerIRQSource
  clock : ℕ
  served : ℕ

/-- The count of `TIM2` since it was cleared; its prescaler of 64 clocks runs on. -/
def timerCount (cleared clock : ℕ) : ℕ := (clock / 64 - cleared / 64) % 2 ^ 32

/-- The level and the duration for the callback, and the clock at which the counter is cleared. -/
def apiHalIrdaTimIsr (cleared : ℕ) (e : Edge) : (Bool × ℕ) × ℕ :=
  ((e.source.level, timerCount cleared e.clock), e.served)

/-- The messages that `irda_rx_callback` gets of the decoders over the edges. -/
def captured (handler : IrdaHandler) (cleared : ℕ) : List Edge → List IrdaMessage
  | [] => []
  | e :: es =>
    let ((level, duration), cleared) := apiHalIrdaTimIsr cleared e
    let (message, handler) := irdaDecode handler level duration
    message.toList ++ captured handler cleared es

/-- The edges so far end the timings in turn. From the interrupt before it, an edge is within 118
microseconds of what was sent. -/
inductive OnTime : ℕ → TimerIRQSource → List ℕ → List Edge → Prop where
  | nil {cleared source} (ts) : OnTime cleared source ts []
  | cons {cleared source t ts e es} : e.source = source → cleared ≤ e.clock →
      64 * t ≤ e.clock - cleared + 64 * 118 → e.clock - cleared ≤ 64 * (t + 118) →
      OnTime e.served source.other ts es → OnTime cleared source (t :: ts) (e :: es)

theorem measures_timerCount {cleared clock t : ℕ} (hle : cleared ≤ clock)
    (hlo : 64 * t ≤ clock - cleared + 64 * 118) (hhi : clock - cleared ≤ 64 * (t + 118)) :
    Measures t (timerCount cleared clock) := by
  intro ht
  have hlt : clock / 64 - cleared / 64 < 2 ^ 32 := by omega
  rw [timerCount, Nat.mod_eq_of_lt hlt]
  constructor <;> omega

/-- The messages of a handler over timings whose levels alternate from the given one on. -/
def handlerMessages (s : IrdaHandler × Bool) : List ℕ → List IrdaMessage
  | [] => []
  | x :: xs => (irdaDecode s.1 s.2 x).1.toList ++
      handlerMessages ((irdaDecode s.1 s.2 x).2, !s.2) xs

theorem handlerMessages_prefix (s : IrdaHandler × Bool) (xs ys : List ℕ) :
    handlerMessages s xs <+: handlerMessages s (xs ++ ys) := by
  induction xs generalizing s with
  | nil => exact List.nil_prefix
  | cons x xs ih => exact (List.prefix_append_right_inj _).mpr (ih _)

theorem OnTime.measures {cleared : ℕ} {source : TimerIRQSource} {ts : List ℕ} {es : List Edge}
    (h : OnTime cleared source ts es) (handler : IrdaHandler) :
    ∃ xs, xs.length = es.length ∧ List.Forall₂ Measures ts (xs ++ ts.drop es.length) ∧
      captured handler cleared es = handlerMessages (handler, source.level) xs := by
  induction h generalizing handler with
  | nil ts => exact ⟨[], rfl, List.forall₂_same.mpr fun t _ => .refl t, rfl⟩
  | @cons cleared source t ts e es hsource hle hlo hhi _ ih =>
    obtain ⟨xs, hlength, hmeasures, hcaptured⟩ :=
      ih (irdaDecode handler source.level (timerCount cleared e.clock)).2
    refine ⟨timerCount cleared e.clock :: xs, congrArg _ hlength,
      .cons (measures_timerCount hle hlo hhi) hmeasures, ?_⟩
    have hlevel : source.other.level = !source.level := by cases source <;> rfl
    simp only [captured, apiHalIrdaTimIsr, hsource, handlerMessages, hcaptured, hlevel]

end Interrupt

section Silent

variable {ts xs : List ℕ} {s : IrdaHandler × Bool}

theorem samsung32_silent (h : Tracking ts s) {x : ℕ} (hq : Quiet (ts ++ [x])) :
    (irdaCommonDecode protocolSamsung32 (s.1.ctx .samsung32) s.2 x).1 = none := by
  rw [← Option.not_isSome_iff_eq_none]
  intro hsome
  rcases (h.steps x .samsung32).ends hsome with
    ⟨w, frame, hw, mark, space, body, stop, rfl, hp, -⟩ |
    ⟨_, hw, -, pause, mark, space, bitMark, bitSpace, stop, rfl, hr⟩
  · exact (List.isChain_cons_cons.mp (hq.suffix hw)).1 (preamble_samsung32_iff.mp hp)
  · have htail := (List.isChain_cons_cons.mp (hq.suffix hw)).2
    exact (List.isChain_cons_cons.mp htail).1
      ⟨match_4500_iff.mp hr.2.2.1, match_4500_iff.mp hr.2.2.2.1⟩

/-- The NEC decoder with the protocol that `irda_decode` writes into its message. -/
def receiveNec (d : IrdaCommonDecoder) (x : ℕ) : Option IrdaMessage × IrdaCommonDecoder :=
  match receive protocolNec d x with
  | (none, d) => (none, d)
  | (some m, d) =>
    (some { m with protocol := .nec }, { d with message := { m with protocol := .nec } })

def necMessages (d : IrdaCommonDecoder) : List ℕ → List IrdaMessage
  | [] => []
  | x :: xs => (receiveNec d x).1.toList ++ necMessages (receiveNec d x).2 xs

theorem irdaDecode_nec {handler : IrdaHandler} {level : Bool} {x : ℕ}
    (hs : (irdaCommonDecode protocolSamsung32 (handler.ctx .samsung32) level x).1 = none)
    (hl : level = !(handler.ctx .nec).level) :
    (irdaDecode handler level x).1 = (receiveNec (handler.ctx .nec) x).1 ∧
      (irdaDecode handler level x).2.ctx .nec = (receiveNec (handler.ctx .nec) x).2 := by
  obtain ⟨d, hd⟩ : ∃ d, irdaCommonDecode protocolSamsung32 (handler.ctx .samsung32) level x =
      (none, d) := ⟨_, Prod.ext hs rfl⟩
  have hne : IrdaProtocol.nec ≠ IrdaProtocol.samsung32 := by decide
  simp only [irdaDecode, irdaProtocols, List.foldl, irdaDecodeStep, IrdaProtocol.spec, hd,
    Function.update_of_ne hne, receiveNec, receive, ← hl]
  rcases irdaCommonDecode protocolNec (handler.ctx .nec) level x with ⟨_ | m, d'⟩
  · exact ⟨rfl, by simp only [Function.update_self]⟩
  · exact ⟨rfl, by simp only [Function.update_self]⟩

theorem handlerMessages_nec (h : Tracking ts s) (hl : s.2 = !(s.1.ctx .nec).level)
    (hq : Quiet (ts ++ xs)) : handlerMessages s xs = necMessages (s.1.ctx .nec) xs := by
  induction xs generalizing ts s with
  | nil => rfl
  | cons x xs ih =>
    have happend : ts ++ x :: xs = ts ++ [x] ++ xs := by simp
    rw [happend] at hq
    obtain ⟨hmessage, hctx⟩ := irdaDecode_nec (samsung32_silent h hq.left_of_append) hl
    have hlevel : (!s.2) = !((irdaDecode s.1 s.2 x).2.ctx .nec).level := by
      obtain ⟨message, he⟩ := irdaDecode_ctx s.1 s.2 x .nec
      rw [he]
      exact congrArg _ (h.steps x .nec).level.symm
    rw [handlerMessages, necMessages, ← hctx, hmessage, ih (h.next x) hlevel hq]

theorem handlerMessages_alloc (hq : Quiet xs) :
    handlerMessages (irdaAllocDecoder, true) xs = necMessages irdaCommonDecoderAlloc xs :=
  handlerMessages_nec (tracking_alloc true) rfl hq

end Silent

section Receive

variable {d : IrdaCommonDecoder} {m : IrdaMessage} {bits bits' : List Bool} {frame : BitVec 32}
variable {xs ys w body : List ℕ}

theorem receiveNec_none {x : ℕ} {d' : IrdaCommonDecoder} (h : receive protocolNec d x = (none, d')) :
    receiveNec d x = (none, d') := by
  rw [receiveNec, h]

theorem receiveNec_some {x : ℕ} {d' : IrdaCommonDecoder}
    (h : receive protocolNec d x = (some m, d')) : receiveNec d x =
      (some { m with protocol := .nec }, { d' with message := { m with protocol := .nec } }) := by
  rw [receiveNec, h]

theorem necMessages_cons_none {x : ℕ} {d' : IrdaCommonDecoder}
    (h : receive protocolNec d x = (none, d')) : necMessages d (x :: ys) = necMessages d' ys := by
  rw [necMessages, receiveNec_none h]
  rfl

theorem necMessages_append (h : messages protocolNec d xs = []) :
    necMessages d (xs ++ ys) = necMessages (decoderAfter protocolNec d xs) ys := by
  induction xs generalizing d with
  | nil => rfl
  | cons x xs ih =>
    obtain ⟨hx, hxs⟩ := List.append_eq_nil_iff.mp h
    rw [Option.toList_eq_nil_iff] at hx
    rw [List.cons_append, necMessages_cons_none (Prod.ext hx rfl), ih hxs]
    rfl

theorem stepReady_nec_of_checksum (hd : Packed d.data (frameBits frame))
    (hsum : frameByte frame 2 = ~~~frameByte frame 3) : stepReady protocolNec d =
      (some { necMessage frame with protocol := d.message.protocol },
        { d with
          message := { necMessage frame with protocol := d.message.protocol }
          state := .processRepeat }) := by
  have h0 : d.data 0 = frameByte frame 0 := hd.data_eq (by decide)
  have h1 : d.data 1 = frameByte frame 1 := hd.data_eq (by decide)
  have h2 : d.data 2 = frameByte frame 2 := hd.data_eq (by decide)
  have h3 : d.data 3 = frameByte frame 3 := hd.data_eq (by decide)
  simp only [stepReady, protocolNec, interpretNec, h0, h1, h2, h3, if_pos hsum, necMessage]

theorem Collecting.receiveFrame (hc : Collecting d bits)
    (hb : BitPairs protocolNec.timings body bits') (hbits : bits ++ bits' = frameBits frame)
    (hsum : frameByte frame 2 = ~~~frameByte frame 3) {stop : ℕ}
    (hstop : matchBitTiming stop protocolNec.timings.bit1Mark protocolNec.timings.bitTolerance) :
    ∃ d', Returned d' { necMessage frame with protocol := .nec } ∧ ∀ ys,
      necMessages d (body ++ [stop] ++ ys) =
        { necMessage frame with protocol := .nec } :: necMessages d' ys := by
  have hlength : (bits ++ bits').length = 32 := by rw [hbits, length_frameBits]
  have hle : bits.length + bits'.length ≤ 32 := by rw [← hlength, List.length_append]
  obtain ⟨hnone, hc', -⟩ := hc.pairs pdwm_nec hb hle
  obtain ⟨d', hpacked, hlevel, htimings, -, hreceive⟩ := (hc'.receive_stop pdwm_nec hlength stop).1 hstop
  rw [stepReady_nec_of_checksum (hbits ▸ hpacked) hsum] at hreceive
  refine ⟨{ d' with
    message := { necMessage frame with protocol := .nec }
    state := .processRepeat }, ⟨rfl, hlevel, htimings, rfl⟩, fun ys => ?_⟩
  rw [List.append_assoc, necMessages_append hnone, List.singleton_append, necMessages,
    receiveNec_some hreceive]
  rfl

theorem Returned.push_three (h : Returned d m) (a b c : ℕ) : ∃ d', d'.state = .processRepeat ∧
    d'.level = true ∧ d'.timings = [a, b, c] ∧ d'.message = m ∧
      ∀ ys, necMessages d (a :: b :: c :: ys) = necMessages d' ys := by
  have hshort : ∀ d' : IrdaCommonDecoder, d'.state = .processRepeat → d'.timings.length < 3 →
      ∀ x, receive protocolNec d' x = (none, d'.push x) := by
    intro d' hs hlt x
    rw [receive_eq, hs]
    refine stepProcessRepeat_nec_short ?_
    simp only [IrdaCommonDecoder.push, List.length_append, List.length_singleton]
    omega
  have h1 := hshort d h.state (by simp [h.timings]) a
  have h2 := hshort (d.push a) h.state (by simp [IrdaCommonDecoder.push, h.timings]) b
  have h3 := hshort ((d.push a).push b) h.state (by simp [IrdaCommonDecoder.push, h.timings]) c
  refine ⟨((d.push a).push b).push c, h.state, ?_, ?_, h.message, fun ys => ?_⟩
  · simp [IrdaCommonDecoder.push, h.level]
  · simp [IrdaCommonDecoder.push, h.timings]
  · rw [necMessages_cons_none h1, necMessages_cons_none h2, necMessages_cons_none h3]

theorem Returned.fourth (h : Returned d m) (a b c e : ℕ) : ∃ d', d'.state = .processRepeat ∧
    d'.level = false ∧ d'.timings = [a, b, c, e] ∧ d'.message = m ∧
      ∀ ys, necMessages d (a :: b :: c :: e :: ys) =
        (match stepProcessRepeat protocolNec d' with
        | (none, d) => necMessages d ys
        | (some m, d) => { m with protocol := .nec } ::
          necMessages { d with message := { m with protocol := .nec } } ys) := by
  obtain ⟨d', hs, hl, ht, hm, hms⟩ := h.push_three a b c
  have hreceive : receive protocolNec d' e = stepProcessRepeat protocolNec (d'.push e) := by
    rw [receive_eq, hs]
  refine ⟨d'.push e, hs, ?_, ?_, hm, fun ys => ?_⟩
  · simp [IrdaCommonDecoder.push, hl]
  · simp [IrdaCommonDecoder.push, ht]
  · rw [hms, necMessages, receiveNec, hreceive]
    split <;> rfl

theorem Returned.receiveRepeat (h : Returned d m) (hm : m.protocol = .nec) (hw : IsNecRepeat w) :
    ∃ d', Returned d' { m with «repeat» := true } ∧
      ∀ ys, necMessages d (w ++ ys) = { m with «repeat» := true } :: necMessages d' ys := by
  obtain ⟨pause, mark, space, stop, rfl, hr⟩ := hw
  obtain ⟨d', hs, hl, ht, hmessage, hms⟩ := h.fourth pause mark space stop
  have hm' : ({ m with «repeat» := true, protocol := .nec } : IrdaMessage) =
      { m with «repeat» := true } := by rw [← hm]
  rw [stepProcessRepeat_nec ht, if_pos hr, hmessage] at hms
  refine ⟨{ d' with
    message := { m with «repeat» := true, protocol := .nec }
    timings := [] }, ⟨hs, hl, rfl, hm'⟩, fun ys => ?_⟩
  rw [← hm']
  exact hms ys

theorem Returned.receiveFrame (h : Returned d m) (pause : ℕ) (hw : IsFrame necTimings w frame)
    (hsum : frameByte frame 2 = ~~~frameByte frame 3) :
    ∃ d', Returned d' { necMessage frame with protocol := .nec } ∧ ∀ ys,
      necMessages d (pause :: (w ++ ys)) =
        { necMessage frame with protocol := .nec } :: necMessages d' ys := by
  obtain ⟨mark, space, body, stop, rfl, hp, hb, hstop⟩ := hw
  obtain ⟨b, bits, hbits⟩ := List.exists_cons_of_length_eq_add_one (length_frameBits frame)
  rw [hbits] at hb
  match body, hb with
  | e :: f :: body, hb =>
    obtain ⟨d', hs, hl, ht, -, hms⟩ := h.fourth pause mark space e
    have hspace := (preamble_nec_iff.mp hp).2
    have hno : ¬ NecRepeat necTimings pause mark space e := by
      rw [necRepeat_iff]
      omega
    have hholds := (stepWaitPreamble_nec_repeat (d := { d' with state := .waitPreamble }) hl ht).1 hp
    obtain ⟨d'', hreceive, hcollecting, -⟩ := (hholds.receive_space pdwm_nec f).1 b hb.1
    rw [stepProcessRepeat_nec ht, if_neg hno] at hms
    obtain ⟨d3, hreturned, hframe⟩ := hcollecting.receiveFrame hb.2 hbits.symm hsum hstop
    refine ⟨d3, hreturned, fun ys => ?_⟩
    have happend : pause :: (mark :: space :: (e :: f :: body ++ [stop]) ++ ys) =
        pause :: mark :: space :: e :: f :: (body ++ [stop] ++ ys) := by simp
    rw [happend, hms]
    dsimp only
    rw [necMessages_cons_none hreceive, hframe]

theorem receiveFrame_alloc (idle : ℕ) (hw : IsFrame necTimings w frame)
    (hsum : frameByte frame 2 = ~~~frameByte frame 3) :
    ∃ d', Returned d' { necMessage frame with protocol := .nec } ∧ ∀ ys,
      necMessages irdaCommonDecoderAlloc (idle :: (w ++ ys)) =
        { necMessage frame with protocol := .nec } :: necMessages d' ys := by
  obtain ⟨mark, space, body, stop, rfl, hp, hb, hstop⟩ := hw
  obtain ⟨d', hc, -, hms, hda⟩ := collecting_first (p := protocolNec) hp idle []
  obtain ⟨d'', hreturned, hframe⟩ := hc.receiveFrame hb (List.nil_append _) hsum hstop
  refine ⟨d'', hreturned, fun ys => ?_⟩
  have happend : idle :: (mark :: space :: (body ++ [stop]) ++ ys) =
      [idle, mark, space] ++ (body ++ [stop] ++ ys) := by simp
  rw [happend, necMessages_append hms, hda]
  exact hframe ys

end Receive

section Main

variable {d : IrdaCommonDecoder} {m : IrdaMessage} {t : NecTransmission}
variable {ts : List NecTransmission} {us xs : List ℕ}

theorem receiveRepeats (hd : Returned d m) (hm : m.protocol = .nec) (n : ℕ)
    (h : List.Forall₂ Measures ((List.replicate n necRepeatTimings).flatten ++ us) xs) :
    ∃ d' m' ys, Returned d' m' ∧ m'.protocol = .nec ∧ List.Forall₂ Measures us ys ∧
      necMessages d xs = List.replicate n { m with «repeat» := true } ++ necMessages d' ys := by
  induction n generalizing d m xs with
  | zero => exact ⟨d, m, xs, hd, hm, h, rfl⟩
  | succ n ih =>
    rw [List.replicate_succ, List.flatten_cons, List.append_assoc] at h
    obtain ⟨w, zs, rfl, hw, h⟩ := forall₂_append_left h
    obtain ⟨d1, h1, hrepeat⟩ := hd.receiveRepeat hm (isNecRepeat_of_measures hw)
    obtain ⟨d', m', ys, hd', hm', hys, hms⟩ := ih h1 hm h
    refine ⟨d', m', ys, hd', hm', hys, ?_⟩
    rw [hrepeat, hms, List.replicate_succ]
    rfl

theorem receive_entry {ms : List IrdaMessage} (hd : Returned d t.received)
    (h : List.Forall₂ Measures ((List.replicate (t.times - 1) necRepeatTimings).flatten ++ us) xs)
    (hrest : ∀ d' m' ys, Returned d' m' → m'.protocol = .nec → List.Forall₂ Measures us ys →
      necMessages d' ys = ms) :
    t.received :: necMessages d xs = t.expected ++ ms := by
  obtain ⟨d', m', ys, hd', hm', hys, hms⟩ := receiveRepeats hd rfl (t.times - 1) h
  rw [hms, hrest d' m' ys hd' hm' hys]
  rfl

theorem necMessages_wave (hd : Returned d m) (hm : m.protocol = .nec) (idle : ℕ)
    (h : List.Forall₂ Measures (necWaveTimings idle ts).dropLast xs) :
    necMessages d xs = ts.flatMap NecTransmission.expected := by
  induction ts generalizing d m idle xs with
  | nil =>
    cases h
    rfl
  | cons t ts ih =>
    rw [dropLast_necWaveTimings] at h
    obtain ⟨pause, _, -, h1, rfl⟩ := List.forall₂_cons_left_iff.mp h
    obtain ⟨w, zs, rfl, hw, h2⟩ := forall₂_append_left h1
    obtain ⟨d1, hreturned, hframe⟩ :=
      hd.receiveFrame pause (isFrame_of_measures hw) (checksum_sentFrame t.message)
    rw [necMessage_sentFrame] at hreturned hframe
    rw [hframe, List.flatMap_cons]
    exact receive_entry hreturned h2 fun d' m' ys hd' hm' hys => ih hd' hm' _ hys

theorem necMessages_alloc (idle : ℕ)
    (h : List.Forall₂ Measures (necWaveTimings idle ts).dropLast xs) :
    necMessages irdaCommonDecoderAlloc xs = ts.flatMap NecTransmission.expected := by
  cases ts with
  | nil =>
    cases h
    rfl
  | cons t ts =>
    rw [dropLast_necWaveTimings] at h
    obtain ⟨pause, _, -, h1, rfl⟩ := List.forall₂_cons_left_iff.mp h
    obtain ⟨w, zs, rfl, hw, h2⟩ := forall₂_append_left h1
    obtain ⟨d1, hreturned, hframe⟩ :=
      receiveFrame_alloc pause (isFrame_of_measures hw) (checksum_sentFrame t.message)
    rw [necMessage_sentFrame] at hreturned hframe
    rw [hframe, List.flatMap_cons]
    exact receive_entry hreturned h2 fun d' m' ys hd' hm' hys => necMessages_wave hd' hm' _ hys

theorem handlerMessages_wave (idle : ℕ)
    (h : List.Forall₂ Measures (necWaveTimings idle ts).dropLast xs) :
    handlerMessages (irdaAllocDecoder, true) xs = ts.flatMap NecTransmission.expected := by
  rw [handlerMessages_alloc (quiet_of_marks (marksEveryOther_wave idle ts) h)]
  exact necMessages_alloc idle h

/-- What the interrupts have received of a NEC transmission is the beginning of what was sent, and
after the last mark it is all of it. -/
theorem nec_captured (idle cleared : ℕ) (ts : List NecTransmission) {es : List Edge}
    (h : OnTime cleared .cci1 (timingsOf (necWaveform idle ts)).dropLast es) :
    captured irdaAllocDecoder cleared es <+: ts.flatMap NecTransmission.expected ∧
      (es.length = (timingsOf (necWaveform idle ts)).dropLast.length →
        captured irdaAllocDecoder cleared es = ts.flatMap NecTransmission.expected) := by
  rw [timingsOf_necWaveform] at h ⊢
  obtain ⟨xs, hlength, hmeasures, hcaptured⟩ := h.measures irdaAllocDecoder
  have hall := handlerMessages_wave idle hmeasures
  rw [hcaptured, ← hall]
  constructor
  · exact handlerMessages_prefix _ _ _
  · intro hlast
    rw [List.drop_eq_nil_of_le hlast.ge, List.append_nil]
    rfl

/-- Edges at the timings, each served a number of microseconds later. -/
def edgesOf (latency clock : ℕ) (source : TimerIRQSource) : List ℕ → List Edge
  | [] => []
  | t :: ts => ⟨source, clock + 64 * t, clock + 64 * t + 64 * latency⟩ ::
      edgesOf latency (clock + 64 * t) source.other ts

theorem length_edgesOf (latency clock : ℕ) (source : TimerIRQSource) (us : List ℕ) :
    (edgesOf latency clock source us).length = us.length := by
  induction us generalizing clock source with
  | nil => rfl
  | cons t us ih => exact congrArg _ (ih _ _)

theorem onTime_edgesOf {latency : ℕ} (hl : latency ≤ 118) (clock : ℕ) (source : TimerIRQSource)
    {us : List ℕ} (h : ∀ t ∈ us, latency ≤ t) :
    OnTime (clock + 64 * latency) source us (edgesOf latency clock source us) := by
  induction us generalizing clock source with
  | nil => exact .nil _
  | cons t us ih =>
    obtain ⟨ht, hus⟩ := List.forall_mem_cons.mp h
    refine .cons rfl ?_ ?_ ?_ (ih _ _ hus)
    · dsimp only
      omega
    · dsimp only
      omega
    · dsimp only
      omega

/-- A key held for three frames and another one, served 100 microseconds late. -/
theorem nec_captured_late :
    captured irdaAllocDecoder 6400 (edgesOf 100 0 .cci1 (timingsOf (necWaveform 50000
      [⟨0x08, 0x59, 3, 40000, by decide⟩, ⟨0x00, 0x11, 1, 0, by decide⟩])).dropLast) =
    [⟨.nec, 0xF708, 0x59, false⟩, ⟨.nec, 0xF708, 0x59, true⟩, ⟨.nec, 0xF708, 0x59, true⟩,
      ⟨.nec, 0xFF00, 0x11, false⟩] := by
  have hlong : ∀ t ∈ (timingsOf (necWaveform 50000 [⟨0x08, 0x59, 3, 40000, by decide⟩,
      ⟨0x00, 0x11, 1, 0, by decide⟩])).dropLast, 100 ≤ t := by
    rw [timingsOf_necWaveform]
    intro t ht
    exact (by decide : 100 ≤ 560).trans
      (le_necWaveTimings (by decide) (List.dropLast_subset _ ht))
  have hlate : OnTime 6400 .cci1 _ (edgesOf 100 0 .cci1 (timingsOf (necWaveform 50000
      [⟨0x08, 0x59, 3, 40000, by decide⟩, ⟨0x00, 0x11, 1, 0, by decide⟩])).dropLast) :=
    @onTime_edgesOf 100 (by decide) 0 .cci1 _ hlong
  exact (nec_captured 50000 6400 _ hlate).2 (length_edgesOf ..)

end Main

end FlipperZero.Irda
