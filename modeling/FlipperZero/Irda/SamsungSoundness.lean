import FlipperZero.Irda.Endings

/-! # Soundness of the Samsung32 decoder

A stream of alternating levels is fed to a fresh decoder. Its buffer ends the stream, the first
timing behind a preamble is a mark, and while it waits for a repeat the stream before the buffer
ends where a message was returned. Each message is therefore the one of a frame or of a repeat.
-/

namespace FlipperZero.Irda

/-- The level of the timing with that number in a stream of alternating levels. -/
def levelAt (level : Bool) (k : ℕ) : Bool := if k % 2 = 0 then level else !level

/-- A fresh decoder after a stream of alternating levels. -/
def decoderFrom (p : IrdaCommonProtocolSpec) (level : Bool) (ts : List ℕ) : IrdaCommonDecoder :=
  (ts.foldl (fun s x => ((irdaCommonDecode p s.1 s.2 x).2, !s.2)) (irdaCommonDecoderAlloc, level)).1

/-- The message that the decoder returns at the last timing of the stream. -/
def messageFrom (p : IrdaCommonProtocolSpec) (level : Bool) (ts : List ℕ) : Option IrdaMessage :=
  match ts.getLast? with
  | none => none
  | some x =>
    (irdaCommonDecode p (decoderFrom p level ts.dropLast) (levelAt level ts.dropLast.length) x).1

/-- The bytes of a frame that its address and its command have to agree in. -/
def Samsung32Frame (frame : BitVec 32) : Prop :=
  frameByte frame 0 = frameByte frame 1 ∧ frameByte frame 2 = ~~~frameByte frame 3

instance (frame : BitVec 32) : Decidable (Samsung32Frame frame) :=
  inferInstanceAs (Decidable (_ ∧ _))

/-- The stream ends in a frame, from its first mark on, with the address and the command. -/
def EndsSamsung32Frame (level : Bool) (ts : List ℕ) (m : IrdaMessage) : Prop :=
  ∃ pre w frame, ts = pre ++ w ∧ w.length = 67 ∧ levelAt level pre.length = false ∧
    IsFrame samsung32Timings w frame ∧ Samsung32Frame frame ∧
    m.address = (frameByte frame 0).zeroExtend 32 ∧ m.command = (frameByte frame 2).zeroExtend 32

/-- The stream ends in a repeat that starts where a message was returned. -/
def EndsSamsung32Repeat (level : Bool) (ts : List ℕ) (m : IrdaMessage) : Prop :=
  ∃ pre w m', ts = pre ++ w ∧ IsSamsung32Repeat w ∧
    messageFrom protocolSamsung32 level pre = some m' ∧ m.address = m'.address ∧
    m.command = m'.command

variable {p : IrdaCommonProtocolSpec} {d : IrdaCommonDecoder} {level : Bool} {ts : List ℕ}
  {frame : BitVec 32} {m : IrdaMessage}

theorem levelAt_succ (level : Bool) (k : ℕ) : levelAt level (k + 1) = !levelAt level k := by
  simp only [levelAt]
  rcases Nat.mod_two_eq_zero_or_one k with h | h
  · have h' : (k + 1) % 2 ≠ 0 := by omega
    rw [if_pos h, if_neg h']
  · have h' : (k + 1) % 2 = 0 := by omega
    have hne : k % 2 ≠ 0 := by omega
    rw [if_neg hne, if_pos h', Bool.not_not]

theorem levelAt_add_even (level : Bool) {j k : ℕ} (h : (j + k) % 2 = 0) :
    levelAt level j = levelAt level k := by
  have hiff : j % 2 = 0 ↔ k % 2 = 0 := by omega
  simp only [levelAt, hiff]

theorem foldl_decode (p : IrdaCommonProtocolSpec) (level : Bool) (ts : List ℕ) :
    ts.foldl (fun s x => ((irdaCommonDecode p s.1 s.2 x).2, !s.2)) (irdaCommonDecoderAlloc, level) =
      (decoderFrom p level ts, levelAt level ts.length) := by
  induction ts using List.reverseRecOn with
  | nil => rfl
  | append_singleton ts x ih =>
    rw [decoderFrom, List.foldl_append, ih, List.length_append, List.length_singleton, levelAt_succ]
    rfl

theorem decoderFrom_concat (p : IrdaCommonProtocolSpec) (level : Bool) (ts : List ℕ) (x : ℕ) :
    decoderFrom p level (ts ++ [x]) =
      (irdaCommonDecode p (decoderFrom p level ts) (levelAt level ts.length) x).2 := by
  rw [decoderFrom, List.foldl_append, foldl_decode]
  rfl

theorem messageFrom_concat (p : IrdaCommonProtocolSpec) (level : Bool) (ts : List ℕ) (x : ℕ) :
    messageFrom p level (ts ++ [x]) =
      (irdaCommonDecode p (decoderFrom p level ts) (levelAt level ts.length) x).1 := by
  simp only [messageFrom, List.getLast?_concat, List.dropLast_concat]

/-! ## The marks -/

theorem length_checkPreambleLoop (tm : IrdaCommonDecoderTimings) (ts : List ℕ) :
    (checkPreambleLoop tm ts).2.length % 2 = ts.length % 2 := by
  induction ts using checkPreambleLoop.induct tm with
  | case1 mark space rest h =>
    rw [checkPreambleLoop, if_pos h, List.length_cons, List.length_cons, Nat.add_assoc,
      Nat.add_mod_right]
  | case2 mark space rest h ih =>
    rw [checkPreambleLoop, if_neg h, ih, List.length_cons, List.length_cons]
    omega
  | case3 ts h =>
    unfold checkPreambleLoop
    split
    · next mark space rest => exact absurd rfl (h mark space rest)
    · rfl

def AtMarks (d : IrdaCommonDecoder) : Prop := (d.level.toNat + d.timings.length) % 2 = 1

theorem atMarks_stepWaitPreamble (hs : d.state = .waitPreamble)
    (hfound : (stepWaitPreamble p d).state = .decode) : AtMarks (stepWaitPreamble p d) := by
  have hlength := length_checkPreambleLoop p.timings
    (if startLevel d then d.timings.drop 1 else d.timings)
  rcases hloop : checkPreambleLoop p.timings
    (if startLevel d then d.timings.drop 1 else d.timings) with ⟨found, rest⟩
  rw [hloop] at hlength
  rw [stepWaitPreamble_eq p d hloop] at hfound ⊢
  cases found with
  | false =>
    rw [if_neg Bool.false_ne_true] at hfound
    exact absurd (hs.symm.trans hfound) (by simp)
  | true =>
    rw [if_pos rfl, AtMarks]
    cases hstart : startLevel d with
    | false =>
      have heven : (d.level.toNat + d.timings.length + 1) % 2 ≠ 1 := of_decide_eq_false hstart
      rw [hstart, if_neg Bool.false_ne_true] at hlength
      dsimp only at hlength ⊢
      omega
    | true =>
      have hne : d.timings.length ≠ 0 := by
        intro hnil
        rw [hstart, if_pos rfl, List.length_eq_zero_iff.mp hnil] at hloop
        cases hloop
      have hodd : (d.level.toNat + d.timings.length + 1) % 2 = 1 := of_decide_eq_true hstart
      rw [hstart, if_pos rfl, List.length_drop] at hlength
      dsimp only at hlength ⊢
      omega

/-! ## One timing -/

theorem stepReady_samsung32_frame (hd : Packed d.data (frameBits frame)) :
    stepReady protocolSamsung32 d =
      if Samsung32Frame frame then
        let message := { d.message with
          command := (frameByte frame 2).zeroExtend 32
          address := (frameByte frame 0).zeroExtend 32
          «repeat» := false }
        (some message, { d with message := message, state := .processRepeat })
      else (none, { d with state := .waitPreamble }) := by
  have h0 : d.data 0 = frameByte frame 0 := hd.data_eq (by decide)
  have h1 : d.data 1 = frameByte frame 1 := hd.data_eq (by decide)
  have h2 : d.data 2 = frameByte frame 2 := hd.data_eq (by decide)
  have h3 : d.data 3 = frameByte frame 3 := hd.data_eq (by decide)
  by_cases h : Samsung32Frame frame
  · rw [if_pos h]
    rw [Samsung32Frame] at h
    simp only [stepReady, protocolSamsung32, interpretSamsung32, h0, h1, h2, h3, if_pos h]
  · rw [if_neg h]
    rw [Samsung32Frame] at h
    simp only [stepReady, protocolSamsung32, interpretSamsung32, h0, h1, h2, h3, if_neg h]

/-- While the decoder waits for a repeat, the stream before its buffer ended in a message. -/
def AfterMessage (level : Bool) (ts : List ℕ) (d : IrdaCommonDecoder) : Prop :=
  ∃ pre m, ts = pre ++ d.timings ∧ messageFrom protocolSamsung32 level pre = some m ∧
    d.message.address = m.address ∧ d.message.command = m.command

/-- What a step makes of a stream that it has read. -/
structure Sounds (level : Bool) (ts : List ℕ) (r : Option IrdaMessage × IrdaCommonDecoder) :
    Prop where
  marks : r.2.state = .decode → AtMarks r.2
  waits : r.2.state = .processRepeat → AfterMessage level ts r.2 ∨
    r.2.timings = [] ∧ r.1 = some r.2.message
  ends : ∀ m, r.1 = some m → m.repeat = false ∧ EndsSamsung32Frame level ts m ∨
    m.repeat = true ∧ EndsSamsung32Repeat level ts m

theorem state_stepWaitPreamble (hs : d.state = .waitPreamble) :
    (stepWaitPreamble p d).state ≠ .processRepeat := by
  rcases hloop : checkPreambleLoop p.timings
    (if startLevel d then d.timings.drop 1 else d.timings) with ⟨found, rest⟩
  rw [stepWaitPreamble_eq p d hloop]
  cases found with
  | false =>
    rw [if_neg Bool.false_ne_true]
    exact fun h => absurd (hs.symm.trans h) (by simp)
  | true =>
    rw [if_pos rfl]
    exact fun h => (by cases h)

theorem sounds_stepWaitPreamble (hs : d.state = .waitPreamble) :
    Sounds level ts (none, stepWaitPreamble p d) where
  marks := atMarks_stepWaitPreamble hs
  waits h := absurd h (state_stepWaitPreamble hs)
  ends m h := by cases h

theorem sounds_stepDecode (hs : d.state = .decode) (hmarks : AtMarks d)
    (hd : Tracks protocolSamsung32 6 ts d) (hlevel : d.level = !levelAt level ts.length) :
    Sounds level ts (stepDecode protocolSamsung32 d) := by
  obtain ⟨pre, mark, space, body, bits, hts, hpre, hbody, hcnt, hpk⟩ := hd.decode hs
  obtain ⟨hok, hready, -⟩ := pdwmLoop_spec samsung32Timings 32 d.timings d.data hpk
  rw [← hcnt] at hok hready
  cases hst : (pdwmLoop samsung32Timings 32 d.timings d.databitCnt d.data).1 with
  | ok =>
    obtain ⟨body', bits', rest, data', he, ht, hbody', -⟩ := hok hst
    have hlength := congrArg List.length ht
    rw [List.length_append, hbody'.length] at hlength
    have hstep : stepDecode protocolSamsung32 d = (none, { d with
        timings := rest, databitCnt := (bits ++ bits').length, data := data' }) := by
      simp only [stepDecode, protocolSamsung32, irdaCommonDecodePdwm, he]
    rw [hstep]
    constructor
    · intro _
      rw [AtMarks] at hmarks ⊢
      dsimp only
      omega
    · exact fun h => absurd (hs.symm.trans h) (by simp)
    · exact fun m h => (by cases h)
  | error =>
    obtain ⟨rest, cnt, data', he⟩ : ∃ rest cnt data',
        pdwmLoop samsung32Timings 32 d.timings d.databitCnt d.data = (.error, rest, cnt, data') :=
      ⟨_, _, _, Prod.ext hst rfl⟩
    have hstep : stepDecode protocolSamsung32 d = (none, stepWaitPreamble protocolSamsung32
        { d with timings := rest, databitCnt := cnt, data := data', state := .waitPreamble }) := by
      simp only [stepDecode, protocolSamsung32, irdaCommonDecodePdwm, he]
    rw [hstep]
    exact sounds_stepWaitPreamble rfl
  | ready =>
    obtain ⟨body', bits', stop, data', he, ht, hbody', hpk', hlen, hstop⟩ := hready hst
    obtain ⟨frame, hframe⟩ := exists_frameBits hlen
    rw [hframe] at hpk'
    have hstep : stepDecode protocolSamsung32 d = stepReady protocolSamsung32 { d with
        timings := [], databitCnt := (bits ++ bits').length, data := data' } := by
      simp only [stepDecode, protocolSamsung32, irdaCommonDecodePdwm, he]
    rw [hstep, stepReady_samsung32_frame hpk']
    split
    · next hsum =>
      refine ⟨fun h => (by cases h), fun _ => .inr ⟨rfl, rfl⟩, ?_⟩
      rintro _ ⟨⟩
      have hw : IsFrame samsung32Timings (mark :: space :: (body ++ body' ++ [stop])) frame :=
        ⟨mark, space, _, stop, rfl, hpre, hframe ▸ hbody.append hbody', hstop⟩
      have hts' : ts = pre ++ mark :: space :: (body ++ body' ++ [stop]) := by
        rw [hts, ht, List.append_assoc]
      refine .inl ⟨rfl, pre, _, frame, hts', hw.length, ?_, hw, hsum, rfl, rfl⟩
      have hlength := congrArg List.length hts'
      rw [List.length_append, hw.length] at hlength
      have hbuffer := congrArg List.length ht
      rw [List.length_append, hbody'.length, List.length_singleton] at hbuffer
      rw [levelAt_add_even level (k := ts.length + 1) (by omega), levelAt_succ, ← hlevel]
      rw [AtMarks] at hmarks
      cases hl : d.level with
      | false => rfl
      | true =>
        rw [hl, Bool.toNat_true] at hmarks
        omega
    · exact ⟨fun h => (by cases h), fun h => (by cases h), fun m h => (by cases h)⟩

theorem sounds_stepProcessRepeat (hs : d.state = .processRepeat) (hlen : d.timings.length ≤ 6)
    (hafter : AfterMessage level ts d) :
    Sounds level ts (stepProcessRepeat protocolSamsung32 d) := by
  obtain ⟨pre, m, hts, hm, haddress, hcommand⟩ := hafter
  rcases Nat.lt_or_eq_of_le hlen with hlt | heq
  · rw [stepProcessRepeat_samsung32_short hlt]
    constructor
    · exact fun h => absurd (hs.symm.trans h) (by simp)
    · exact fun _ => .inl ⟨pre, m, hts, hm, haddress, hcommand⟩
    · exact fun m h => (by cases h)
  · rcases repeats_samsung32.full d heq with ⟨hR, he⟩ | he
    · rw [he]
      refine ⟨fun h => absurd (hs.symm.trans h) (by simp), fun _ => .inr ⟨rfl, rfl⟩, ?_⟩
      rintro _ ⟨⟩
      exact .inr ⟨rfl, pre, d.timings, m, hts, hR, hm, haddress, hcommand⟩
    · rw [he]
      exact sounds_stepWaitPreamble rfl

/-! ## A stream -/

/-- What the decoder knows of the stream that it has been fed. -/
structure Sound (level : Bool) (ts : List ℕ) (d : IrdaCommonDecoder) : Prop where
  tracks : Tracks protocolSamsung32 6 ts d
  /-- Only the first timing may have the level of a fresh decoder. -/
  alternates : d.level = levelAt level ts.length → d.timings = [] ∧ d.state = .waitPreamble
  marks : d.state = .decode → AtMarks d
  waits : d.state = .processRepeat → AfterMessage level ts d

theorem sound_alloc (level : Bool) : Sound level [] irdaCommonDecoderAlloc where
  tracks := tracks_alloc
  alternates _ := ⟨rfl, rfl⟩
  marks h := by cases h
  waits h := by cases h

theorem Sound.sounds (h : Sound level ts d) (x : ℕ) :
    Sounds level (ts ++ [x])
      (irdaCommonDecode protocolSamsung32 d (levelAt level ts.length) x) := by
  have hl := fun hl => (h.alternates hl).1
  have hlevel : levelAt level ts.length = !levelAt level (ts ++ [x]).length := by
    rw [List.length_append, List.length_singleton, levelAt_succ, Bool.not_not]
  have hb : d.timings ++ [x] <:+ ts ++ [x] := by
    obtain ⟨pre, hpre⟩ := h.tracks.buffer
    exact ⟨pre, by rw [← List.append_assoc, hpre]⟩
  simp only [irdaCommonDecode, timings_of_alternates hl]
  cases hs : d.state with
  | waitPreamble => exact sounds_stepWaitPreamble rfl
  | decode =>
    obtain ⟨pre, mark, space, body, bits, hts, hrest⟩ := h.tracks.decode hs
    have hts' : ts ++ [x] = pre ++ mark :: space :: (body ++ (d.timings ++ [x])) := by simp [hts]
    have hne : d.level ≠ levelAt level ts.length := fun heq =>
      absurd (hs.symm.trans (h.alternates heq).2) (by simp)
    refine sounds_stepDecode rfl ?_
      ⟨hb, fun _ => ⟨pre, mark, space, body, bits, hts', hrest⟩, fun h => (by cases h)⟩ hlevel
    have hmarks := h.marks hs
    rw [AtMarks] at hmarks ⊢
    rw [List.length_append, List.length_singleton]
    cases hd : d.level <;> cases hn : levelAt level ts.length <;> simp_all <;> omega
  | processRepeat =>
    have hlt := h.tracks.processRepeat hs
    obtain ⟨pre, m, hts, hm, hmessage⟩ := h.waits hs
    apply sounds_stepProcessRepeat rfl
    · rw [List.length_append, List.length_singleton]
      omega
    · exact ⟨pre, m, by rw [hts, List.append_assoc], hm, hmessage⟩

theorem sound_decoderFrom (level : Bool) (ts : List ℕ) :
    Sound level ts (decoderFrom protocolSamsung32 level ts) := by
  induction ts using List.reverseRecOn with
  | nil => exact sound_alloc level
  | append_singleton ts x ih =>
    have hsteps := steps_irdaCommonDecode repeats_samsung32 ih.tracks (levelAt level ts.length)
      (fun hl => (ih.alternates hl).1) x
    have hsounds := ih.sounds x
    have hmessage := messageFrom_concat protocolSamsung32 level ts x
    rw [decoderFrom_concat]
    constructor
    · exact hsteps.tracks
    · intro hlevel
      rw [hsteps.level, List.length_append, List.length_singleton, levelAt_succ] at hlevel
      exact absurd hlevel (Bool.not_ne_self _).symm
    · exact hsounds.marks
    · intro hs
      rcases hsounds.waits hs with hafter | ⟨hbuffer, hreturned⟩
      · exact hafter
      · refine ⟨ts ++ [x], _, ?_, hmessage.trans hreturned, rfl, rfl⟩
        rw [hbuffer, List.append_nil]

/-- Whatever alternating stream a fresh Samsung32 decoder is fed, a message is returned at the end
of a valid frame with its address and command, and a repeat at the end of the timings of a repeat
that follow a returned message, with the address and the command of that. -/
theorem samsung32_sound (level : Bool) (ts : List ℕ) (m : IrdaMessage)
    (h : messageFrom protocolSamsung32 level ts = some m) :
    (m.repeat = false → EndsSamsung32Frame level ts m) ∧
      (m.repeat = true → EndsSamsung32Repeat level ts m) := by
  induction ts using List.reverseRecOn with
  | nil => cases h
  | append_singleton ts x _ =>
    rw [messageFrom_concat] at h
    rcases ((sound_decoderFrom level ts).sounds x).ends m h with ⟨hrepeat, hends⟩ | ⟨hrepeat, hends⟩
    · exact ⟨fun _ => hends, fun h => absurd (hrepeat.symm.trans h) Bool.false_ne_true⟩
    · exact ⟨fun h => absurd (hrepeat.symm.trans h) Bool.false_ne_true.symm, fun _ => hends⟩

/-- A stream that starts with a space alternates with the level that the decoder keeps. -/
theorem decoderFrom_true (ts : List ℕ) : decoderFrom protocolSamsung32 true ts =
      decoderAfter protocolSamsung32 irdaCommonDecoderAlloc ts ∧
    (decoderFrom protocolSamsung32 true ts).level = !levelAt true ts.length := by
  induction ts using List.reverseRecOn with
  | nil => exact ⟨rfl, rfl⟩
  | append_singleton ts x ih =>
    have hsteps := steps_irdaCommonDecode repeats_samsung32 (sound_decoderFrom true ts).tracks
      (levelAt true ts.length) (fun hl => ((sound_decoderFrom true ts).alternates hl).1) x
    rw [decoderFrom_concat]
    constructor
    · rw [decoderAfter_concat, ← ih.1, receive, ih.2, Bool.not_not]
    · rw [hsteps.level, List.length_append, List.length_singleton, levelAt_succ, Bool.not_not]

theorem messageFrom_frameTimings (idle : ℕ) (t : Transmission) :
    messageFrom protocolSamsung32 true (idle :: frameTimings t) = some t.message := by
  have hpairs : BitPairs protocolSamsung32.timings
      (bitTimings samsung32EncoderTimings t.bits) t.bits :=
    bitPairs_bitTimings pairBit_samsung32_one pairBit_samsung32_zero t.bits
  have hbits : t.bits.length = 32 := length_frameBits _
  obtain ⟨d', hc, hmessage, -, hafter⟩ := collecting_first (p := protocolSamsung32)
    preamble_samsung32 idle (bitTimings samsung32EncoderTimings t.bits)
  obtain ⟨-, hc', hmessage'⟩ := hc.pairs pdwm_samsung32 hpairs hbits.le
  obtain ⟨d₂, hpacked, -, -, hmessage₂, hstop⟩ :=
    (hc'.receive_stop pdwm_samsung32 hbits 550).1 stop_samsung32
  have hprotocol : d₂.message.protocol = .samsung32 := by
    rw [hmessage₂, hmessage', hmessage]
    rfl
  have hsplit : idle :: frameTimings t =
      (idle :: 4500 :: 4500 :: bitTimings samsung32EncoderTimings t.bits) ++ [550] := rfl
  rw [hsplit, messageFrom_concat, (decoderFrom_true _).1, hafter]
  have hlevel := (decoderFrom_true (idle :: 4500 :: 4500 ::
    bitTimings samsung32EncoderTimings t.bits)).2
  rw [(decoderFrom_true _).1, hafter] at hlevel
  rw [receive, hlevel, Bool.not_not] at hstop
  rw [hstop, stepReady_samsung32 hpacked hprotocol]

def plainEntry : Transmission := ⟨0x07, 0x02, 1, 47000, by decide, by decide⟩

theorem samsung32_sound_plain :
    EndsSamsung32Frame true (1000 :: frameTimings plainEntry) plainEntry.message :=
  (samsung32_sound true _ _ (messageFrom_frameTimings 1000 plainEntry)).1 rfl

end FlipperZero.Irda
