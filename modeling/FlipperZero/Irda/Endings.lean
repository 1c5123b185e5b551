import FlipperZero.Irda.Recognition
import FlipperZero.Irda.Transmission

/-! # What a stream ends in when a decoder returns a message

Whatever levels a stream starts with, a decoder of either protocol keeps the end
of the stream in its buffer, and behind a preamble the pairs of the bits that it
has read. So a message is returned only at the end of a frame or of a repeat.
-/

namespace FlipperZero.Irda

variable {p : IrdaCommonProtocolSpec} {d : IrdaCommonDecoder} {n : ℕ} {R : List ℕ → Prop}
variable {ts body rest : List ℕ} {bits : List Bool}

/-- A protocol of 32 bits whose repeats are `n` timings with the property `R`. -/
structure Repeats (p : IrdaCommonProtocolSpec) (n : ℕ) (R : List ℕ → Prop) : Prop extends Pdwm p where
  pos : 0 < n
  interpret : ∀ d, (p.interpret d).2.timings = d.timings ∧ (p.interpret d).2.level = d.level
  short : ∀ d : IrdaCommonDecoder, d.timings.length < n → stepProcessRepeat p d = (none, d)
  full : ∀ d : IrdaCommonDecoder, d.timings.length = n → (R d.timings ∧ stepProcessRepeat p d =
    (some { d.message with «repeat» := true },
      { d with message := { d.message with «repeat» := true }, timings := [] })) ∨
    stepProcessRepeat p d = (none, stepWaitPreamble p { d with state := .waitPreamble })

/-- The four timings are a repeat of the NEC protocol. -/
def IsNecRepeat (w : List ℕ) : Prop :=
  ∃ pause mark space stop, w = [pause, mark, space, stop] ∧
    NecRepeat necTimings pause mark space stop

/-- The six timings are a repeat of the Samsung32 protocol. -/
def IsSamsung32Repeat (w : List ℕ) : Prop :=
  ∃ pause mark space bitMark bitSpace stop, w = [pause, mark, space, bitMark, bitSpace, stop] ∧
    Samsung32Repeat samsung32Timings pause mark space bitMark bitSpace stop

theorem repeats_nec : Repeats protocolNec 4 IsNecRepeat where
  toPdwm := pdwm_nec
  pos := by decide
  interpret d := by
    simp only [protocolNec, interpretNec]
    split <;> exact ⟨rfl, rfl⟩
  short d h := stepProcessRepeat_nec_short h
  full d h := by
    obtain ⟨pause, mark, space, stop, ht⟩ : ∃ a b c e, d.timings = [a, b, c, e] := by
      obtain ⟨a, ts, hd⟩ := List.exists_cons_of_length_eq_add_one h
      rw [hd] at h ⊢
      obtain ⟨b, c, e, rfl⟩ := List.length_eq_three.mp (Nat.succ.inj h)
      exact ⟨a, b, c, e, rfl⟩
    rw [stepProcessRepeat_nec ht]
    split
    · next hr => exact .inl ⟨⟨pause, mark, space, stop, ht, hr⟩, rfl⟩
    · exact .inr rfl

theorem repeats_samsung32 : Repeats protocolSamsung32 6 IsSamsung32Repeat where
  toPdwm := pdwm_samsung32
  pos := by decide
  interpret d := by
    simp only [protocolSamsung32, interpretSamsung32]
    split <;> exact ⟨rfl, rfl⟩
  short d h := stepProcessRepeat_samsung32_short h
  full d h := by
    obtain ⟨a, b, c, e, f, g, ht⟩ : ∃ a b c e f g, d.timings = [a, b, c, e, f, g] := by
      obtain ⟨a, ts, hd⟩ := List.exists_cons_of_length_eq_add_one h
      rw [hd] at h ⊢
      obtain ⟨b, ts, rfl⟩ := List.exists_cons_of_length_eq_add_one (Nat.succ.inj h)
      obtain ⟨c, ts, rfl⟩ := List.exists_cons_of_length_eq_add_one (Nat.succ.inj (Nat.succ.inj h))
      obtain ⟨e, f, g, rfl⟩ := List.length_eq_three.mp (Nat.succ.inj (Nat.succ.inj (Nat.succ.inj h)))
      exact ⟨a, b, c, e, f, g, rfl⟩
    rw [stepProcessRepeat_samsung32 ht]
    split
    · next hr => exact .inl ⟨⟨a, b, c, e, f, g, ht, hr⟩, rfl⟩
    · exact .inr rfl

theorem BitPairs.append {tm : IrdaCommonDecoderTimings} {body' : List ℕ} {bits' : List Bool}
    (h : BitPairs tm body bits) (h' : BitPairs tm body' bits') :
    BitPairs tm (body ++ body') (bits ++ bits') := by
  induction body, bits using BitPairs.induct with
  | case1 => exact h'
  | case2 mark space rest b bits ih => exact ⟨h.1, ih h.2⟩
  | case3 => simp_all [BitPairs]

theorem pdwmLoop_spec (tm : IrdaCommonDecoderTimings) (len : ℕ) (ts : List ℕ)
    (data : ℕ → BitVec 8) (hd : Packed data bits) :
    ((pdwmLoop tm len ts bits.length data).1 = .ok → ∃ body bits' rest data',
      pdwmLoop tm len ts bits.length data = (.ok, rest, (bits ++ bits').length, data') ∧
        ts = body ++ rest ∧ BitPairs tm body bits' ∧ Packed data' (bits ++ bits')) ∧
    ((pdwmLoop tm len ts bits.length data).1 = .ready → ∃ body bits' stop data',
      pdwmLoop tm len ts bits.length data = (.ready, [], (bits ++ bits').length, data') ∧
        ts = body ++ [stop] ∧ BitPairs tm body bits' ∧ Packed data' (bits ++ bits') ∧
        (bits ++ bits').length = len ∧ matchBitTiming stop tm.bit1Mark tm.bitTolerance) ∧
    ((pdwmLoop tm len ts bits.length data).1 = .error →
      (pdwmLoop tm len ts bits.length data).2.1 <:+ ts) := by
  induction hts : ts.length using Nat.strong_induction_on generalizing ts bits data with
  | _ k ih =>
    match ts with
    | [] =>
      refine ⟨fun _ => ⟨[], [], [], data, ?_, rfl, trivial, ?_⟩, fun h => (by cases h), fun h => by cases h⟩
      · simp [pdwmLoop]
      · simpa using hd
    | [mark] =>
      by_cases hc : bits.length = len
      · by_cases hm : matchBitTiming mark tm.bit1Mark tm.bitTolerance
        · simp only [pdwmLoop, if_pos hc, if_pos hm]
          refine ⟨fun h => (by cases h), fun _ => ⟨[], [], mark, data, ?_, rfl, trivial, ?_, ?_, hm⟩,
            fun h => by cases h⟩
          · simp
          · simpa using hd
          · simpa using hc
        · simp only [pdwmLoop, if_pos hc, if_neg hm]
          exact ⟨fun h => (by cases h), fun h => (by cases h), fun _ => List.suffix_rfl⟩
      · simp only [pdwmLoop, if_neg hc]
        refine ⟨fun _ => ⟨[], [], [mark], data, ?_, rfl, trivial, ?_⟩, fun h => (by cases h),
          fun h => by cases h⟩
        · simp
        · simpa using hd
    | mark :: space :: rest =>
      rw [pdwmLoop_pair]
      cases hb : pairBit tm mark space with
      | none => exact ⟨fun h => (by cases h), fun h => (by cases h), fun _ => List.suffix_rfl⟩
      | some b =>
        have hlen : bits.length + 1 = (bits ++ [b]).length := by simp
        have hlt : rest.length < k := by
          rw [← hts]
          simp only [List.length_cons]
          omega
        obtain ⟨hok, hready, herror⟩ := ih rest.length hlt rest
          (storeBit data bits.length b) (hd.store b) rfl
        simp only [hlen]
        refine ⟨fun h => ?_, fun h => ?_, fun h => ?_⟩
        · obtain ⟨body, bits', rest', data', he, rfl, hbody, hp⟩ := hok h
          refine ⟨mark :: space :: body, b :: bits', rest', data', ?_, rfl, ⟨hb, hbody⟩, ?_⟩
          · simpa using he
          · simpa using hp
        · obtain ⟨body, bits', stop, data', he, rfl, hbody, hp, hl, hs⟩ := hready h
          refine ⟨mark :: space :: body, b :: bits', stop, data', ?_, rfl, ⟨hb, hbody⟩, ?_, ?_, hs⟩
          · simpa using he
          · simpa using hp
          · simpa using hl
        · exact (herror h).trans ((List.suffix_cons _ _).trans (List.suffix_cons _ _))

theorem checkPreambleLoop_spec (tm : IrdaCommonDecoderTimings) (ts : List ℕ) :
    ((checkPreambleLoop tm ts).1 = true → ∃ pre mark space,
      ts = pre ++ mark :: space :: (checkPreambleLoop tm ts).2 ∧ tm.Preamble mark space) ∧
    (checkPreambleLoop tm ts).2 <:+ ts := by
  induction ts using checkPreambleLoop.induct tm with
  | case1 mark space rest h =>
    simp only [checkPreambleLoop, if_pos h]
    exact ⟨fun _ => ⟨[], mark, space, rfl, h⟩,
      (List.suffix_cons _ _).trans (List.suffix_cons _ _)⟩
  | case2 mark space rest h ih =>
    obtain ⟨hyes, hsuf⟩ := ih
    simp only [checkPreambleLoop, if_neg h]
    refine ⟨fun ht => ?_, hsuf.trans ((List.suffix_cons _ _).trans (List.suffix_cons _ _))⟩
    obtain ⟨pre, mark', space', he, hp⟩ := hyes ht
    exact ⟨mark :: space :: pre, mark', space', by rw [List.cons_append, List.cons_append, ← he], hp⟩
  | case3 ts h =>
    have hno : checkPreambleLoop tm ts = (false, ts) := by
      unfold checkPreambleLoop
      split
      · next mark space rest => exact absurd rfl (h mark space rest)
      · rfl
    rw [hno]
    exact ⟨fun ht => (by simp at ht), List.suffix_rfl⟩

/-- What the buffer and the bits of a decoder say about the end of the stream. -/
structure Tracks (p : IrdaCommonProtocolSpec) (n : ℕ) (ts : List ℕ) (d : IrdaCommonDecoder) :
    Prop where
  buffer : d.timings <:+ ts
  decode : d.state = .decode → ∃ pre mark space body bits,
    ts = pre ++ mark :: space :: (body ++ d.timings) ∧ p.timings.Preamble mark space ∧
      BitPairs p.timings body bits ∧ d.databitCnt = bits.length ∧ Packed d.data bits
  processRepeat : d.state = .processRepeat → d.timings.length < n

def Ends (p : IrdaCommonProtocolSpec) (n : ℕ) (R : List ℕ → Prop) (ts : List ℕ) : Prop :=
  (∃ w frame, w <:+ ts ∧ IsFrame p.timings w frame) ∨ ∃ w, w <:+ ts ∧ w.length = n ∧ R w

/-- What a step makes of a stream that it has read: a message only at an ending. -/
structure Steps (p : IrdaCommonProtocolSpec) (n : ℕ) (R : List ℕ → Prop) (ts : List ℕ)
    (level : Bool) (r : Option IrdaMessage × IrdaCommonDecoder) : Prop where
  tracks : Tracks p n ts r.2
  level : r.2.level = level
  ends : r.1.isSome = true → Ends p n R ts

theorem tracks_alloc : Tracks p n [] irdaCommonDecoderAlloc where
  buffer := List.suffix_rfl
  decode h := by cases h
  processRepeat h := by cases h

theorem tracks_stepWaitPreamble (hb : d.timings <:+ ts) (hs : d.state = .waitPreamble) :
    Tracks p n ts (stepWaitPreamble p d) := by
  set l := if startLevel d then d.timings.drop 1 else d.timings with hl
  have hsuf : l <:+ ts := by
    rw [hl]
    split
    · exact (List.drop_suffix 1 _).trans hb
    · exact hb
  obtain ⟨hyes, hrest⟩ := checkPreambleLoop_spec p.timings l
  simp only [stepWaitPreamble, irdaCheckPreamble, ← hl]
  cases hc : (checkPreambleLoop p.timings l).1 with
  | false => exact ⟨hrest.trans hsuf, fun h => (by simp [hs] at h), fun h => by simp [hs] at h⟩
  | true =>
    obtain ⟨pre, mark, space, he, hp⟩ := hyes hc
    refine ⟨hrest.trans hsuf, fun _ => ?_, fun h => by cases h⟩
    obtain ⟨pre', hpre⟩ := hsuf
    refine ⟨pre' ++ pre, mark, space, [], [], ?_, hp, trivial, rfl, packed_nil _⟩
    calc ts = pre' ++ l := hpre.symm
      _ = pre' ++ (pre ++ mark :: space :: (checkPreambleLoop p.timings l).2) := congrArg _ he
      _ = pre' ++ pre ++ mark :: space :: ([] ++ (checkPreambleLoop p.timings l).2) := by simp

theorem ends_frame {pre : List ℕ} {mark space stop : ℕ} (hlen : bits.length = 32)
    (he : ts = pre ++ mark :: space :: (body ++ [stop])) (hp : p.timings.Preamble mark space)
    (hb : BitPairs p.timings body bits)
    (hs : matchBitTiming stop p.timings.bit1Mark p.timings.bitTolerance) : Ends p n R ts := by
  obtain ⟨frame, rfl⟩ := exists_frameBits hlen
  exact .inl ⟨_, frame, ⟨pre, he.symm⟩, mark, space, body, stop, rfl, hp, hb, hs⟩

theorem steps_error (hb : d.timings <:+ ts) :
    Steps p n R ts d.level (none, stepWaitPreamble p { d with state := .waitPreamble }) where
  tracks := tracks_stepWaitPreamble hb rfl
  level := (keeps_error p d).level
  ends h := by cases h

theorem steps_stepReady (hr : Repeats p n R) (ht : d.timings = []) (hends : Ends p n R ts) :
    Steps p n R ts d.level (stepReady p d) := by
  obtain ⟨htimings, hlevel⟩ := hr.interpret d
  rw [ht] at htimings
  simp only [stepReady]
  cases hi : p.interpret d with
  | mk ok d' =>
    rw [hi] at htimings hlevel
    have hsuf : d'.timings <:+ ts := by
      rw [show d'.timings = [] from htimings]
      exact List.nil_suffix
    cases ok with
    | true =>
      have hlt : d'.timings.length < n := by
        rw [show d'.timings = [] from htimings]
        exact hr.pos
      exact ⟨⟨hsuf, fun h => (by cases h), fun _ => hlt⟩, hlevel, fun _ => hends⟩
    | false =>
      exact ⟨⟨hsuf, fun h => (by cases h), fun h => (by cases h)⟩, hlevel, fun h => (by cases h)⟩

theorem steps_stepDecode (hr : Repeats p n R) (hd : Tracks p n ts d) (hs : d.state = .decode) :
    Steps p n R ts d.level (stepDecode p d) := by
  obtain ⟨pre, mark, space, body, bits, hts, hpre, hbody, hcnt, hpk⟩ := hd.decode hs
  obtain ⟨hok, hready, herror⟩ := pdwmLoop_spec p.timings 32 d.timings d.data hpk
  rw [← hcnt] at hok hready herror
  simp only [stepDecode, hr.decode, hr.databitLen, irdaCommonDecodePdwm]
  cases hst : (pdwmLoop p.timings 32 d.timings d.databitCnt d.data).1 with
  | ok =>
    obtain ⟨body', bits', rest, data', he, ht, hbody', hpk'⟩ := hok hst
    have hts' : ts = pre ++ mark :: space :: (body ++ body' ++ rest) := by
      rw [hts, ht, List.append_assoc]
    simp only [he]
    refine ⟨⟨?_, fun _ => ?_, fun h => (by simp [hs] at h)⟩, rfl, fun h => (by cases h)⟩
    · exact (List.suffix_append body' rest).trans (ht ▸ hd.buffer)
    · exact ⟨pre, mark, space, body ++ body', bits ++ bits', hts', hpre, hbody.append hbody', rfl, hpk'⟩
  | ready =>
    obtain ⟨body', bits', stop, data', he, ht, hbody', hpk', hlen, hstop⟩ := hready hst
    have hts' : ts = pre ++ mark :: space :: (body ++ body' ++ [stop]) := by
      rw [hts, ht, List.append_assoc]
    simp only [he]
    have hends : Ends p n R ts := ends_frame hlen hts' hpre (hbody.append hbody') hstop
    exact steps_stepReady hr (d := { d with
      timings := [], databitCnt := (bits ++ bits').length, data := data' }) rfl hends
  | error =>
    have hsuf := (herror hst).trans hd.buffer
    cases he : pdwmLoop p.timings 32 d.timings d.databitCnt d.data with
    | mk st q =>
      rw [he] at hst hsuf
      obtain rfl : st = .error := hst
      exact steps_error (d := { d with timings := q.1, databitCnt := q.2.1, data := q.2.2 }) hsuf

theorem steps_stepProcessRepeat (hr : Repeats p n R) (hb : d.timings <:+ ts)
    (hs : d.state = .processRepeat) (hlen : d.timings.length ≤ n) :
    Steps p n R ts d.level (stepProcessRepeat p d) := by
  rcases Nat.lt_or_eq_of_le hlen with hlt | heq
  · rw [hr.short d hlt]
    exact ⟨⟨hb, fun h => (by simp [hs] at h), fun _ => hlt⟩, rfl, fun h => (by cases h)⟩
  · rcases hr.full d heq with ⟨hR, he⟩ | he
    · rw [he]
      have hends : Ends p n R ts := .inr ⟨d.timings, hb, heq, hR⟩
      exact ⟨⟨List.nil_suffix, fun h => (by simp [hs] at h), fun _ => hr.pos⟩, rfl, fun _ => hends⟩
    · rw [he]
      exact steps_error hb

theorem steps_irdaCommonDecode (hr : Repeats p n R) (hd : Tracks p n ts d) (level : Bool)
    (hl : d.level = level → d.timings = []) (x : ℕ) :
    Steps p n R (ts ++ [x]) level (irdaCommonDecode p d level x) := by
  have hb : d.timings ++ [x] <:+ ts ++ [x] := by
    obtain ⟨pre, hpre⟩ := hd.buffer
    exact ⟨pre, by rw [← List.append_assoc, hpre]⟩
  simp only [irdaCommonDecode, timings_of_alternates hl]
  cases hs : d.state with
  | waitPreamble =>
    exact ⟨tracks_stepWaitPreamble hb rfl, (keeps_stepWaitPreamble p _).level, fun h => (by cases h)⟩
  | decode =>
    obtain ⟨pre, mark, space, body, bits, hts, hrest⟩ := hd.decode hs
    have hts' : ts ++ [x] = pre ++ mark :: space :: (body ++ (d.timings ++ [x])) := by simp [hts]
    exact steps_stepDecode hr
      (d := { d with state := .decode, level := level, timings := d.timings ++ [x] })
      ⟨hb, fun _ => ⟨pre, mark, space, body, bits, hts', hrest⟩, fun h => (by cases h)⟩ rfl
  | processRepeat =>
    have hlen : (d.timings ++ [x]).length ≤ n := by
      have := hd.processRepeat hs
      rw [List.length_append, List.length_singleton]
      omega
    exact steps_stepProcessRepeat hr
      (d := { d with state := .processRepeat, level := level, timings := d.timings ++ [x] })
      hb rfl hlen

end FlipperZero.Irda
