import FlipperZero.Irda.Handler

/-! # Decoders after any timings

The timings come with their levels, which need not alternate. Of either protocol the decoder then
has a message with the protocol that was allocated, the bits of a frame in its bytes, and a buffer
that is short in each of its states.
-/

namespace FlipperZero.Irda

/-- What the decoder returns at each of the timings, which come with their levels. -/
def outputs (p : IrdaCommonProtocolSpec) :
    IrdaCommonDecoder → List (Bool × ℕ) → List (Option IrdaMessage)
  | _, [] => []
  | d, (level, x) :: ts =>
    (irdaCommonDecode p d level x).1 :: outputs p (irdaCommonDecode p d level x).2 ts

def feed (p : IrdaCommonProtocolSpec) : IrdaCommonDecoder → List (Bool × ℕ) → IrdaCommonDecoder
  | d, [] => d
  | d, (level, x) :: ts => feed p (irdaCommonDecode p d level x).2 ts

/-- The decoder with the next timing in its buffer. -/
def IrdaCommonDecoder.put (d : IrdaCommonDecoder) (level : Bool) (x : ℕ) : IrdaCommonDecoder :=
  { d with level := level, timings := (if d.level = level then [] else d.timings) ++ [x] }

def stepBuffered (p : IrdaCommonProtocolSpec) (d : IrdaCommonDecoder) :
    Option IrdaMessage × IrdaCommonDecoder :=
  match d.state with
  | .waitPreamble => (none, stepWaitPreamble p d)
  | .decode => stepDecode p d
  | .processRepeat => stepProcessRepeat p d

theorem irdaCommonDecode_eq (p : IrdaCommonProtocolSpec) (d : IrdaCommonDecoder) (level : Bool)
    (x : ℕ) : irdaCommonDecode p d level x = stepBuffered p (d.put level x) := rfl

/-! ## The protocols -/

/-- A protocol of 32 bits that tells a repeat by its timings. -/
structure Reads (p : IrdaCommonProtocolSpec) (n : ℕ) (status : List ℕ → DecodeStatus) : Prop
    extends Pdwm p where
  interpret : ∀ d, (p.interpret d).2 = { d with message := (p.interpret d).2.message }
  protocol : ∀ d, (p.interpret d).2.message.protocol = d.message.protocol
  congr : ∀ d e, (∀ k < 4, d.data k = e.data k) → d.message.protocol = e.message.protocol →
    (p.interpret d).1 = (p.interpret e).1 ∧
      ((p.interpret d).1 = true → (p.interpret d).2.message = (p.interpret e).2.message)
  decodeRepeat : ∃ r, p.decodeRepeat = some r ∧ ∀ d, r p.timings d =
    (status d.timings, if status d.timings = .ready then { d with timings := [] } else d)
  ok_iff : ∀ w, status w = .ok ↔ w.length < n
  repeats : ∃ w, w.length = n ∧ status w = .ready
  one_lt : 1 < n
  le_six : n ≤ 6
  shortBits : ShortBits p.timings
  long : ∀ mark space, p.timings.Preamble mark space → 2000 ≤ mark
  pair : ∀ b, ∃ mark space, pairBit p.timings mark space = some b
  stop : ∃ stop, matchBitTiming stop p.timings.bit1Mark p.timings.bitTolerance

def necRepeatStatus : List ℕ → DecodeStatus
  | pause :: mark :: space :: stop :: _ =>
    if NecRepeat necTimings pause mark space stop then .ready else .error
  | _ => .ok

def samsung32RepeatStatus : List ℕ → DecodeStatus
  | pause :: mark :: space :: bitMark :: bitSpace :: stop :: _ =>
    if Samsung32Repeat samsung32Timings pause mark space bitMark bitSpace stop then .ready
    else .error
  | _ => .ok

theorem reads_nec : Reads protocolNec 4 necRepeatStatus where
  toPdwm := pdwm_nec
  interpret d := by
    simp only [protocolNec, interpretNec]
    split <;> rfl
  protocol d := by
    simp only [protocolNec, interpretNec]
    split <;> rfl
  congr d e hdata hprotocol := by
    simp only [protocolNec, interpretNec, hdata 0 (by decide), hdata 1 (by decide),
      hdata 2 (by decide), hdata 3 (by decide), hprotocol]
    split
    · exact ⟨rfl, fun _ => rfl⟩
    · exact ⟨rfl, fun h => (by cases h)⟩
  decodeRepeat := by
    refine ⟨decodeRepeatNec, rfl, fun d => ?_⟩
    show decodeRepeatNec necTimings d = _
    rw [decodeRepeatNec]
    rcases d.timings with _ | ⟨pause, _ | ⟨mark, _ | ⟨space, _ | ⟨stop, rest⟩⟩⟩⟩
    · simp [necRepeatStatus]
    · simp [necRepeatStatus]
    · simp [necRepeatStatus]
    · simp [necRepeatStatus]
    · by_cases h : NecRepeat necTimings pause mark space stop
      · simp only [necRepeatStatus, if_pos h, if_true]
      · simp [necRepeatStatus, if_neg h]
  ok_iff w := by
    unfold necRepeatStatus
    split
    · split <;> simp
    · next hshort =>
      rcases w with _ | ⟨pause, _ | ⟨mark, _ | ⟨space, _ | ⟨stop, rest⟩⟩⟩⟩
      · simp
      · simp
      · simp
      · simp
      · exact absurd rfl (hshort pause mark space stop rest)
  repeats := by
    refine ⟨[40000, 9000, 2250, 560], rfl, ?_⟩
    rw [necRepeatStatus, if_pos (necRepeat_iff.mpr (by decide))]
  one_lt := by decide
  le_six := by decide
  shortBits := IrdaProtocol.nec.shortBits
  long mark space h := by
    have := preamble_nec_iff.mp h
    omega
  pair b := by
    cases b
    · exact ⟨560, 560, by decide⟩
    · exact ⟨560, 1600, by decide⟩
  stop := ⟨560, by decide⟩

theorem reads_samsung32 : Reads protocolSamsung32 6 samsung32RepeatStatus where
  toPdwm := pdwm_samsung32
  interpret d := by
    simp only [protocolSamsung32, interpretSamsung32]
    split <;> rfl
  protocol d := by
    simp only [protocolSamsung32, interpretSamsung32]
    split <;> rfl
  congr d e hdata hprotocol := by
    simp only [protocolSamsung32, interpretSamsung32, hdata 0 (by decide), hdata 1 (by decide),
      hdata 2 (by decide), hdata 3 (by decide), hprotocol]
    split
    · exact ⟨rfl, fun _ => rfl⟩
    · exact ⟨rfl, fun h => (by cases h)⟩
  decodeRepeat := by
    refine ⟨decodeRepeatSamsung32, rfl, fun d => ?_⟩
    show decodeRepeatSamsung32 samsung32Timings d = _
    rw [decodeRepeatSamsung32]
    rcases d.timings with _ | ⟨pause, _ | ⟨mark, _ | ⟨space, _ | ⟨bitMark, _ | ⟨bitSpace, _ |
      ⟨stop, rest⟩⟩⟩⟩⟩⟩
    · simp [samsung32RepeatStatus]
    · simp [samsung32RepeatStatus]
    · simp [samsung32RepeatStatus]
    · simp [samsung32RepeatStatus]
    · simp [samsung32RepeatStatus]
    · simp [samsung32RepeatStatus]
    · by_cases h : Samsung32Repeat samsung32Timings pause mark space bitMark bitSpace stop
      · simp only [samsung32RepeatStatus, if_pos h, if_true]
      · simp [samsung32RepeatStatus, if_neg h]
  ok_iff w := by
    unfold samsung32RepeatStatus
    split
    · split <;> simp
    · next hshort =>
      rcases w with _ | ⟨pause, _ | ⟨mark, _ | ⟨space, _ | ⟨bitMark, _ | ⟨bitSpace, _ |
        ⟨stop, rest⟩⟩⟩⟩⟩⟩
      · simp
      · simp
      · simp
      · simp
      · simp
      · simp
      · exact absurd rfl (hshort pause mark space bitMark bitSpace stop rest)
  repeats := by
    refine ⟨[40000, 4500, 4500, 550, 1650, 550], rfl, ?_⟩
    have h : Samsung32Repeat samsung32Timings 40000 4500 4500 550 1650 550 :=
      (samsung32Repeat_iff 40000 true).mpr (by decide)
    rw [samsung32RepeatStatus, if_pos h]
  one_lt := by decide
  le_six := by decide
  shortBits := IrdaProtocol.samsung32.shortBits
  long mark space h := by
    have := preamble_samsung32_iff.mp h
    omega
  pair b := by
    cases b
    · exact ⟨550, 550, pairBit_samsung32_zero⟩
    · exact ⟨550, 1650, pairBit_samsung32_one⟩
  stop := ⟨550, stop_samsung32⟩

variable {p : IrdaCommonProtocolSpec} {d e : IrdaCommonDecoder} {n x : ℕ} {level : Bool}
  {status : List ℕ → DecodeStatus} {bits : List Bool}

theorem Reads.stepProcessRepeat (hr : Reads p n status) (d : IrdaCommonDecoder) :
    stepProcessRepeat p d =
      match status d.timings with
      | .error => (none, stepWaitPreamble p { d with state := .waitPreamble })
      | .ready => (some { d.message with «repeat» := true },
          { d with message := { d.message with «repeat» := true }, timings := [] })
      | .ok => (none, d) := by
  obtain ⟨r, hsome, hdecode⟩ := hr.decodeRepeat
  simp only [Irda.stepProcessRepeat, hsome, hdecode]
  cases status d.timings <;> rfl

/-! ## The two loops -/

/-- Of the data only the bits matter that have been read. -/
structure SameLoop (len : ℕ) (r r' : DecodeStatus × List ℕ × ℕ × (ℕ → BitVec 8)) : Prop where
  status : r.1 = r'.1
  timings : r.2.1 = r'.2.1
  packed : r.1 ≠ .error → ∃ bits, r.2.2.1 = bits.length ∧ r'.2.2.1 = bits.length ∧
    Packed r.2.2.2 bits ∧ Packed r'.2.2.2 bits
  full : r.1 = .ready → r.2.2.1 = len

theorem pdwmLoop_same (tm : IrdaCommonDecoderTimings) (len : ℕ) :
    ∀ (ts : List ℕ) {bits : List Bool} {data data' : ℕ → BitVec 8},
      Packed data bits → Packed data' bits →
      SameLoop len (pdwmLoop tm len ts bits.length data) (pdwmLoop tm len ts bits.length data')
  | [], bits, _, _, h, h' => ⟨rfl, rfl, fun _ => ⟨bits, rfl, rfl, h, h'⟩, fun h => (by cases h)⟩
  | [mark], bits, data, data', h, h' => by
    by_cases hc : bits.length = len
    · by_cases hm : matchBitTiming mark tm.bit1Mark tm.bitTolerance
      · simp only [pdwmLoop, if_pos hc, if_pos hm]
        exact ⟨rfl, rfl, fun _ => ⟨bits, rfl, rfl, h, h'⟩, fun _ => hc⟩
      · simp only [pdwmLoop, if_pos hc, if_neg hm]
        exact ⟨rfl, rfl, fun h => absurd rfl h, fun h => (by cases h)⟩
    · simp only [pdwmLoop, if_neg hc]
      exact ⟨rfl, rfl, fun _ => ⟨bits, rfl, rfl, h, h'⟩, fun h => (by cases h)⟩
  | mark :: space :: rest, bits, data, data', h, h' => by
    rw [pdwmLoop_pair, pdwmLoop_pair]
    cases pairBit tm mark space with
    | none => exact ⟨rfl, rfl, fun h => absurd rfl h, fun h => (by cases h)⟩
    | some b =>
      have hlength : bits.length + 1 = (bits ++ [b]).length := by
        rw [List.length_append, List.length_singleton]
      simp only [hlength]
      exact pdwmLoop_same tm len rest (h.store b) (h'.store b)

theorem pdwmLoop_counts (tm : IrdaCommonDecoderTimings) (len : ℕ) :
    ∀ (ts : List ℕ) (cnt : ℕ) (data : ℕ → BitVec 8),
      ((pdwmLoop tm len ts cnt data).1 = .ok →
        2 * (pdwmLoop tm len ts cnt data).2.2.1 + (pdwmLoop tm len ts cnt data).2.1.length =
          2 * cnt + ts.length ∧
        (pdwmLoop tm len ts cnt data).2.1.length ≤ 1 ∧
        ((pdwmLoop tm len ts cnt data).2.2.1 = len → (pdwmLoop tm len ts cnt data).2.1 = [])) ∧
      ((pdwmLoop tm len ts cnt data).1 = .ready → 2 * cnt + ts.length = 2 * len + 1) ∧
      (pdwmLoop tm len ts cnt data).2.1.length ≤ ts.length
  | [], cnt, data =>
    ⟨fun _ => ⟨rfl, Nat.zero_le _, fun _ => rfl⟩, fun h => (by cases h), Nat.le_refl _⟩
  | [mark], cnt, data => by
    by_cases hc : cnt = len
    · by_cases hm : matchBitTiming mark tm.bit1Mark tm.bitTolerance
      · simp only [pdwmLoop, if_pos hc, if_pos hm]
        exact ⟨fun h => (by cases h), fun _ => (by rw [hc]; rfl), Nat.zero_le _⟩
      · simp only [pdwmLoop, if_pos hc, if_neg hm]
        exact ⟨fun h => (by cases h), fun h => (by cases h), Nat.le_refl _⟩
    · simp only [pdwmLoop, if_neg hc]
      exact ⟨fun _ => ⟨trivial, Nat.le_refl _, fun h => absurd h hc⟩, fun h => (by cases h),
        Nat.le_refl _⟩
  | mark :: space :: rest, cnt, data => by
    rw [pdwmLoop_pair]
    cases pairBit tm mark space with
    | none => exact ⟨fun h => (by cases h), fun h => (by cases h), Nat.le_refl _⟩
    | some b =>
      obtain ⟨hok, hready, hle⟩ := pdwmLoop_counts tm len rest (cnt + 1) (storeBit data cnt b)
      simp only [List.length_cons]
      refine ⟨fun h => ?_, fun h => ?_, by omega⟩
      · obtain ⟨hcount, hone, hnil⟩ := hok h
        exact ⟨by omega, hone, hnil⟩
      · have := hready h
        omega

theorem checkPreambleLoop_counts (tm : IrdaCommonDecoderTimings) (ts : List ℕ) :
    ((checkPreambleLoop tm ts).1 = true → (checkPreambleLoop tm ts).2.length + 2 ≤ ts.length) ∧
      ((checkPreambleLoop tm ts).1 = false → (checkPreambleLoop tm ts).2.length ≤ 1) := by
  induction ts using checkPreambleLoop.induct tm with
  | case1 mark space rest h =>
    rw [checkPreambleLoop, if_pos h]
    exact ⟨fun _ => Nat.le_refl _, fun h => (by cases h)⟩
  | case2 mark space rest h ih =>
    rw [checkPreambleLoop, if_neg h]
    exact ⟨fun hfound => (ih.1 hfound).trans (Nat.le_add_right _ 2), ih.2⟩
  | case3 ts h =>
    rcases ts with _ | ⟨mark, _ | ⟨space, rest⟩⟩
    · exact ⟨fun h => (by cases h), fun _ => Nat.zero_le _⟩
    · exact ⟨fun h => (by cases h), fun _ => Nat.le_refl _⟩
    · exact absurd rfl (h mark space rest)

/-! ## Reachable decoders -/

/-- The frame of which some bits have been read has room for the next timings. -/
def Room (cnt len : ℕ) : Prop := cnt = 0 ∧ len ≤ 4 ∨ cnt < 32 ∧ len ≤ 1 ∨ cnt = 32 ∧ len = 0

structure Valid (n : ℕ) (d : IrdaCommonDecoder) : Prop where
  protocol : d.message.protocol = .samsung32
  waits : d.state = .waitPreamble → d.timings.length ≤ 1
  packed : d.state = .decode → ∃ bits, d.databitCnt = bits.length ∧ Packed d.data bits
  room : d.state = .decode → Room d.databitCnt d.timings.length
  repeats : d.state = .processRepeat → d.timings.length < n

theorem valid_alloc : Valid n irdaCommonDecoderAlloc where
  protocol := rfl
  waits _ := Nat.zero_le _
  packed h := by cases h
  room h := by cases h
  repeats h := by cases h

theorem valid_stepWaitPreamble (hs : d.state = .waitPreamble)
    (hprotocol : d.message.protocol = .samsung32) (hlen : d.timings.length ≤ 6) :
    Valid n (stepWaitPreamble p d) := by
  obtain ⟨hyes, hno⟩ := checkPreambleLoop_counts p.timings
    (if startLevel d then d.timings.drop 1 else d.timings)
  have hsearched : (if startLevel d then d.timings.drop 1 else d.timings).length ≤ 6 := by
    split
    · rw [List.length_drop]
      omega
    · exact hlen
  rcases hloop : checkPreambleLoop p.timings
    (if startLevel d then d.timings.drop 1 else d.timings) with ⟨found, rest⟩
  rw [hloop] at hyes hno
  rw [stepWaitPreamble_eq p d hloop]
  cases found with
  | false =>
    rw [if_neg Bool.false_ne_true]
    exact ⟨hprotocol, fun _ => hno rfl, fun h => (by simp [hs] at h), fun h => (by simp [hs] at h),
      fun h => (by simp [hs] at h)⟩
  | true =>
    rw [if_pos rfl]
    have hrest : rest.length ≤ 4 := by
      have := hyes rfl
      dsimp only at this
      omega
    exact ⟨hprotocol, fun h => (by cases h), fun _ => ⟨[], rfl, packed_nil _⟩,
      fun _ => .inl ⟨rfl, hrest⟩, fun h => (by cases h)⟩

theorem valid_stepReady (hr : Reads p n status) (hprotocol : d.message.protocol = .samsung32)
    (ht : d.timings = []) : Valid n (stepReady p d).2 := by
  have hpos : 0 < n := Nat.zero_lt_of_lt hr.one_lt
  have hkeeps := hr.interpret d
  have hmessage := hr.protocol d
  rcases hi : p.interpret d with ⟨taken, d'⟩
  rw [hi] at hkeeps hmessage
  dsimp only at hkeeps hmessage
  have hbuffer : d'.timings.length = 0 := by
    rw [hkeeps, ht]
    rfl
  cases taken with
  | true =>
    rw [stepReady, hi]
    exact ⟨hmessage.trans hprotocol, fun h => (by cases h), fun h => (by cases h),
      fun h => (by cases h), fun _ => hbuffer ▸ hpos⟩
  | false =>
    rw [stepReady, hi]
    exact ⟨hmessage.trans hprotocol, fun _ => hbuffer ▸ Nat.zero_le _, fun h => (by cases h),
      fun h => (by cases h), fun h => (by cases h)⟩

theorem Reads.stepDecode (hr : Reads p n status) (d : IrdaCommonDecoder) :
    stepDecode p d = match pdwmLoop p.timings 32 d.timings d.databitCnt d.data with
      | (.ready, ts, cnt, data) =>
        stepReady p { d with timings := ts, databitCnt := cnt, data := data }
      | (.error, ts, cnt, data) => (none, stepWaitPreamble p
          { d with timings := ts, databitCnt := cnt, data := data, state := .waitPreamble })
      | (.ok, ts, cnt, data) =>
        (none, { d with timings := ts, databitCnt := cnt, data := data }) := by
  simp only [Irda.stepDecode, hr.decode, hr.databitLen, irdaCommonDecodePdwm]
  rcases pdwmLoop p.timings 32 d.timings d.databitCnt d.data with ⟨st, ts, cnt, data⟩
  cases st <;> rfl

theorem valid_stepDecode (hr : Reads p n status) (hs : d.state = .decode)
    (hprotocol : d.message.protocol = .samsung32) (hlen : d.timings.length ≤ 6)
    (hpacked : ∃ bits, d.databitCnt = bits.length ∧ Packed d.data bits)
    (hroom : d.databitCnt = 0 ∨ d.databitCnt < 32 ∧ d.timings.length ≤ 2 ∨
      d.databitCnt = 32 ∧ d.timings.length = 1) : Valid n (stepDecode p d).2 := by
  obtain ⟨bits, hcnt, hpk⟩ := hpacked
  obtain ⟨hok, hready, -⟩ := pdwmLoop_spec p.timings 32 d.timings d.data hpk
  obtain ⟨hcounts, -, hle⟩ := pdwmLoop_counts p.timings 32 d.timings d.databitCnt d.data
  rw [← hcnt] at hok hready
  rw [hr.stepDecode]
  rcases hloop : pdwmLoop p.timings 32 d.timings d.databitCnt d.data with ⟨st, ts, cnt, data⟩
  rw [hloop] at hok hready hcounts hle
  cases st with
  | ok =>
    obtain ⟨hcount, hone, hfull⟩ := hcounts rfl
    obtain ⟨body, bits', rest, data', he, -, -, hpk'⟩ := hok rfl
    cases he
    dsimp only at hcount hone hfull
    refine ⟨hprotocol, fun h => (by simp [hs] at h), fun _ => ⟨_, rfl, hpk'⟩, fun _ => ?_,
      fun h => (by simp [hs] at h)⟩
    have hnil : (bits ++ bits').length = 32 → ts.length = 0 :=
      fun h => List.length_eq_zero_iff.mpr (hfull h)
    rw [Room]
    dsimp only
    omega
  | ready =>
    obtain ⟨_, _, _, _, he, -⟩ := hready rfl
    cases he
    exact valid_stepReady hr hprotocol rfl
  | error => exact valid_stepWaitPreamble rfl hprotocol (hle.trans hlen)

theorem valid_stepProcessRepeat (hr : Reads p n status) (hs : d.state = .processRepeat)
    (hprotocol : d.message.protocol = .samsung32) (hlen : d.timings.length ≤ n) :
    Valid n (stepProcessRepeat p d).2 := by
  have hok := hr.ok_iff d.timings
  rw [hr.stepProcessRepeat]
  cases hst : status d.timings with
  | ok =>
    exact ⟨hprotocol, fun h => (by simp [hs] at h), fun h => (by simp [hs] at h),
      fun h => (by simp [hs] at h), fun _ => hok.mp hst⟩
  | ready =>
    exact ⟨hprotocol, fun h => (by simp [hs] at h), fun h => (by simp [hs] at h),
      fun h => (by simp [hs] at h), fun _ => Nat.zero_lt_of_lt hr.one_lt⟩
  | error => exact valid_stepWaitPreamble rfl hprotocol (hlen.trans hr.le_six)

theorem length_put (d : IrdaCommonDecoder) (level : Bool) (x : ℕ) :
    (d.put level x).timings.length = 1 ∨
      (d.put level x).timings.length = d.timings.length + 1 := by
  rw [IrdaCommonDecoder.put]
  split
  · exact .inl rfl
  · exact .inr List.length_append

theorem Valid.next (hr : Reads p n status) (h : Valid n d) (level : Bool) (x : ℕ) :
    Valid n (irdaCommonDecode p d level x).2 := by
  have hlen := length_put d level x
  have hle := hr.le_six
  have hone := hr.one_lt
  rw [irdaCommonDecode_eq, stepBuffered]
  cases hs : d.state with
  | waitPreamble =>
    have hput : (d.put level x).state = .waitPreamble := hs
    have := h.waits hs
    rw [hput]
    exact valid_stepWaitPreamble hput h.protocol (by omega)
  | decode =>
    have hput : (d.put level x).state = .decode := hs
    have hroom := h.room hs
    rw [Room] at hroom
    rw [hput]
    apply valid_stepDecode hr hput h.protocol (by omega) (h.packed hs)
    show d.databitCnt = 0 ∨ d.databitCnt < 32 ∧ _ ∨ d.databitCnt = 32 ∧ _
    omega
  | processRepeat =>
    have hput : (d.put level x).state = .processRepeat := hs
    have := h.repeats hs
    rw [hput]
    exact valid_stepProcessRepeat hr hput h.protocol (by omega)

theorem valid_feed (hr : Reads p n status) (h : Valid n d) (ts : List (Bool × ℕ)) :
    Valid n (feed p d ts) := by
  induction ts generalizing d with
  | nil => exact h
  | cons t ts ih =>
    obtain ⟨level, x⟩ := t
    exact ih (h.next hr level x)

end FlipperZero.Irda
