import FlipperZero.Irda.Endings

/-! # All decoders on one stream

A handler feeds every timing to the decoders of all protocols and returns the
first message. The last timings of a NEC frame or repeat are not those of a
Samsung32 frame or repeat, so no other message is lost.
-/

namespace FlipperZero.Irda

def IrdaProtocol.spec : IrdaProtocol → IrdaCommonProtocolSpec
  | .samsung32 => protocolSamsung32
  | .nec => protocolNec

/-- The protocols in the order of the table `irda_protocols`. -/
def irdaProtocols : List IrdaProtocol := [.samsung32, .nec]

structure IrdaHandler where
  ctx : IrdaProtocol → IrdaCommonDecoder

def irdaAllocDecoder : IrdaHandler where
  ctx _ := irdaCommonDecoderAlloc

/-- A pass of the loop of `irda_decode`; the protocol is written where the decoder keeps the message. -/
def irdaDecodeStep (level : Bool) (duration : ℕ) (s : Option IrdaMessage × IrdaHandler)
    (i : IrdaProtocol) : Option IrdaMessage × IrdaHandler :=
  let (result, handler) := s
  let (message, d) := irdaCommonDecode i.spec (handler.ctx i) level duration
  match result, message with
  | none, some message =>
    let message := { message with protocol := i }
    (some message, ⟨Function.update handler.ctx i { d with message := message }⟩)
  | result, _ => (result, ⟨Function.update handler.ctx i d⟩)

def irdaDecode (handler : IrdaHandler) (level : Bool) (duration : ℕ) :
    Option IrdaMessage × IrdaHandler :=
  irdaProtocols.foldl (irdaDecodeStep level duration) (none, handler)

/-- The handler and the next level after a stream whose levels alternate from `level` on. -/
def handlerAfter (level : Bool) (ts : List ℕ) : IrdaHandler × Bool :=
  ts.foldl (fun s x => ((irdaDecode s.1 s.2 x).2, !s.2)) (irdaAllocDecoder, level)

/-- The messages of all decoders at a timing, each with its protocol. -/
def produced (handler : IrdaHandler) (level : Bool) (duration : ℕ) : List IrdaMessage :=
  irdaProtocols.filterMap fun i =>
    (irdaCommonDecode i.spec (handler.ctx i) level duration).1.map ({ · with protocol := i })

/-- The number of timings of a repeat of the protocol. -/
def IrdaProtocol.repeatLen : IrdaProtocol → ℕ
  | .samsung32 => 6
  | .nec => 4

def IrdaProtocol.IsRepeat : IrdaProtocol → List ℕ → Prop
  | .samsung32 => IsSamsung32Repeat
  | .nec => IsNecRepeat

theorem IrdaProtocol.repeats (i : IrdaProtocol) : Repeats i.spec i.repeatLen i.IsRepeat := by
  cases i
  · exact repeats_samsung32
  · exact repeats_nec

variable {level : Bool} {ts w body : List ℕ} {x : ℕ} {handler : IrdaHandler}

section Exclusive

variable {tm : IrdaCommonDecoderTimings} {bits : List Bool} {frame : BitVec 32}

theorem preamble_samsung32_iff {mark space : ℕ} : samsung32Timings.Preamble mark space ↔
    (4185 < mark ∧ mark < 4815) ∧ 4185 < space ∧ space < 4815 :=
  and_congr match_4500_iff match_4500_iff

/-- The timings of a bit are short in both protocols. -/
structure ShortBits (tm : IrdaCommonDecoderTimings) : Prop where
  mark : ∀ x, matchBitTiming x tm.bit1Mark tm.bitTolerance → x < 2000
  pair : ∀ mark space b, pairBit tm mark space = some b → mark < 2000 ∧ space < 2000

theorem shortBits_of_lt (h1 : tm.bit1Mark + tm.bitTolerance ≤ 2000)
    (h2 : tm.bit1Space + tm.bitTolerance ≤ 2000) (h3 : tm.bit0Mark + tm.bitTolerance ≤ 2000)
    (h4 : tm.bit0Space + tm.bitTolerance ≤ 2000) : ShortBits tm where
  mark x hx := Nat.lt_of_lt_of_le hx.1 h1
  pair mark space b hb := by
    simp only [pairBit] at hb
    split at hb
    · next h => exact ⟨Nat.lt_of_lt_of_le h.1.1 h1, Nat.lt_of_lt_of_le h.2.1 h2⟩
    · split at hb
      · next h => exact ⟨Nat.lt_of_lt_of_le h.1.1 h3, Nat.lt_of_lt_of_le h.2.1 h4⟩
      · cases hb

theorem IrdaProtocol.shortBits (i : IrdaProtocol) : ShortBits i.spec.timings := by
  cases i <;> exact shortBits_of_lt (by decide) (by decide) (by decide) (by decide)

theorem BitPairs.short (hs : ShortBits tm) (h : BitPairs tm body bits) : ∀ t ∈ body, t < 2000 := by
  induction body, bits using BitPairs.induct with
  | case1 => simp
  | case2 mark space rest b bits ih =>
    obtain ⟨hm, hsp⟩ := hs.pair mark space b h.1
    intro t ht
    rcases List.mem_cons.mp ht with rfl | ht
    · exact hm
    rcases List.mem_cons.mp ht with rfl | ht
    · exact hsp
    · exact ih h.2 t ht
  | case3 => simp_all [BitPairs]

/-- The timing that is `k` before the last one. -/
def fromEnd (ts : List ℕ) (k : ℕ) : Option ℕ := ts.reverse[k]?

theorem fromEnd_of_suffix (h : w <:+ ts) {k t : ℕ} (hk : fromEnd w k = some t) : fromEnd ts k = some t := by
  obtain ⟨pre, rfl⟩ := h
  rw [fromEnd, List.reverse_append, List.getElem?_append_left]
  · exact hk
  · exact (List.getElem?_eq_some_iff.mp hk).1

/-- The last 65 timings of a frame are short, and its first one is the mark of a preamble. -/
theorem IsFrame.fromEnd (hs : ShortBits tm) (h : IsFrame tm w frame) :
    (∀ k < 65, ∃ t < 2000, fromEnd w k = some t) ∧
      ∃ mark space, fromEnd w 66 = some mark ∧ tm.Preamble mark space := by
  obtain ⟨mark, space, body, stop, rfl, hp, hb, hstop⟩ := h
  have hlen : body.length = 64 := by
    rw [hb.length, length_frameBits]
  have hrev : (mark :: space :: (body ++ [stop])).reverse =
      (stop :: body.reverse) ++ [space, mark] := by simp
  have hlen' : (stop :: body.reverse).length = 65 := by simp [hlen]
  constructor
  · intro k hk
    have hk' : k < (stop :: body.reverse).length := by rw [hlen']; exact hk
    refine ⟨(stop :: body.reverse)[k], ?_, ?_⟩
    · rcases List.mem_cons.mp (List.getElem_mem hk') with he | hm
      · rw [he]
        exact hs.mark stop hstop
      · exact hb.short hs _ (List.mem_reverse.mp hm)
    · rw [Irda.fromEnd, hrev, List.getElem?_append_left hk', List.getElem?_eq_getElem hk']
  · refine ⟨mark, space, ?_, hp⟩
    rw [Irda.fromEnd, hrev, List.getElem?_append_right (by rw [hlen']; decide), hlen']
    rfl

theorem not_ends_both (hn : Ends protocolNec 4 IsNecRepeat ts)
    (hs : Ends protocolSamsung32 6 IsSamsung32Repeat ts) : False := by
  have hnec : ShortBits necTimings := IrdaProtocol.nec.shortBits
  have hsam : ShortBits samsung32Timings := IrdaProtocol.samsung32.shortBits
  rcases hn with ⟨w, frame, hw, hf⟩ | ⟨_, hw, -, pause, mark, space, stop, rfl, hr⟩ <;>
    rcases hs with ⟨w', frame', hw', hf'⟩ |
      ⟨_, hw', -, pause', mark', space', bitMark, bitSpace, stop', rfl, hr'⟩
  · obtain ⟨mark, space, hm, hp⟩ := (IsFrame.fromEnd hnec hf).2
    obtain ⟨mark', space', hm', hp'⟩ := (IsFrame.fromEnd hsam hf').2
    have he := (fromEnd_of_suffix hw hm).symm.trans (fromEnd_of_suffix hw' hm')
    have h1 := (preamble_nec_iff.mp hp).1
    have h2 := (preamble_samsung32_iff.mp hp').1
    obtain rfl := Option.some.inj he
    omega
  · obtain ⟨t, ht, hb⟩ := (IsFrame.fromEnd hnec hf).1 5 (by decide)
    have hp : fromEnd ts 5 = some pause' := fromEnd_of_suffix hw' rfl
    have hlong : 30000 < pause' := hr'.1
    obtain rfl := Option.some.inj ((fromEnd_of_suffix hw hb).symm.trans hp)
    omega
  · obtain ⟨t, ht, hb⟩ := (IsFrame.fromEnd hsam hf').1 3 (by decide)
    have hp : fromEnd ts 3 = some pause := fromEnd_of_suffix hw rfl
    have hlong : 30000 < pause := hr.1
    obtain rfl := Option.some.inj ((fromEnd_of_suffix hw' hb).symm.trans hp)
    omega
  · have hp : fromEnd ts 3 = some pause := fromEnd_of_suffix hw rfl
    have hsp : fromEnd ts 3 = some space' := fromEnd_of_suffix hw' rfl
    have hlong : 30000 < pause := hr.1
    have hshort := (match_4500_iff.mp hr'.2.2.2.1).2
    obtain rfl := Option.some.inj (hp.symm.trans hsp)
    omega

end Exclusive

section Run

theorem irdaDecodeStep_self (s : Option IrdaMessage × IrdaHandler) (i : IrdaProtocol) :
    ∃ message, (irdaDecodeStep level x s i).2.ctx i =
      { (irdaCommonDecode i.spec (s.2.ctx i) level x).2 with message := message } := by
  obtain ⟨result, handler⟩ := s
  simp only [irdaDecodeStep]
  split
  · exact ⟨_, Function.update_self ..⟩
  · exact ⟨_, Function.update_self ..⟩

theorem irdaDecodeStep_of_ne (s : Option IrdaMessage × IrdaHandler) {i j : IrdaProtocol}
    (h : j ≠ i) : (irdaDecodeStep level x s i).2.ctx j = s.2.ctx j := by
  obtain ⟨result, handler⟩ := s
  simp only [irdaDecodeStep]
  split
  · exact Function.update_of_ne h ..
  · exact Function.update_of_ne h ..

theorem irdaDecodeStep_fst (s : Option IrdaMessage × IrdaHandler) (i : IrdaProtocol) :
    (irdaDecodeStep level x s i).1 = s.1.or
      ((irdaCommonDecode i.spec (s.2.ctx i) level x).1.map ({ · with protocol := i })) := by
  obtain ⟨result, handler⟩ := s
  simp only [irdaDecodeStep]
  cases result with
  | some m => rfl
  | none =>
    cases hm : (irdaCommonDecode i.spec (handler.ctx i) level x).1 <;> rfl

theorem irdaDecode_ctx (handler : IrdaHandler) (level : Bool) (x : ℕ) (i : IrdaProtocol) :
    ∃ message, (irdaDecode handler level x).2.ctx i =
      { (irdaCommonDecode i.spec (handler.ctx i) level x).2 with message := message } := by
  simp only [irdaDecode, irdaProtocols, List.foldl]
  cases i with
  | samsung32 =>
    rw [irdaDecodeStep_of_ne _ (by decide)]
    exact irdaDecodeStep_self (none, handler) .samsung32
  | nec =>
    have hkeep : (irdaDecodeStep level x (none, handler) .samsung32).2.ctx .nec = handler.ctx .nec :=
      irdaDecodeStep_of_ne (none, handler) (by decide)
    rw [← hkeep]
    exact irdaDecodeStep_self (irdaDecodeStep level x (none, handler) .samsung32) .nec

theorem irdaDecode_fst (handler : IrdaHandler) (level : Bool) (x : ℕ) :
    (irdaDecode handler level x).1 = (produced handler level x).head? := by
  have hnec : (irdaDecodeStep level x (none, handler) .samsung32).2.ctx .nec = handler.ctx .nec :=
    irdaDecodeStep_of_ne (none, handler) (by decide)
  simp only [irdaDecode, irdaProtocols, List.foldl, irdaDecodeStep_fst, produced, hnec,
    List.filterMap_cons, List.filterMap_nil]
  cases (irdaCommonDecode IrdaProtocol.samsung32.spec (handler.ctx .samsung32) level x).1 <;>
    cases (irdaCommonDecode IrdaProtocol.nec.spec (handler.ctx .nec) level x).1 <;> rfl

/-- All decoders of the handler track the stream, whose next level is the other one. -/
structure Tracking (ts : List ℕ) (s : IrdaHandler × Bool) : Prop where
  tracks : ∀ i : IrdaProtocol, Tracks i.spec i.repeatLen ts (s.1.ctx i)
  level : ∀ i, (s.1.ctx i).level = s.2 → (s.1.ctx i).timings = []

theorem Tracking.steps {s : IrdaHandler × Bool} (h : Tracking ts s) (x : ℕ) (i : IrdaProtocol) :
    Steps i.spec i.repeatLen i.IsRepeat (ts ++ [x]) s.2
      (irdaCommonDecode i.spec (s.1.ctx i) s.2 x) :=
  steps_irdaCommonDecode i.repeats (h.tracks i) s.2 (h.level i) x

theorem tracking_alloc (level : Bool) : Tracking [] (irdaAllocDecoder, level) where
  tracks _ := tracks_alloc
  level _ _ := rfl

theorem Tracking.next {s : IrdaHandler × Bool} (h : Tracking ts s) (x : ℕ) :
    Tracking (ts ++ [x]) ((irdaDecode s.1 s.2 x).2, !s.2) where
  tracks i := by
    obtain ⟨message, he⟩ := irdaDecode_ctx s.1 s.2 x i
    have ht := (h.steps x i).tracks
    rw [he]
    exact ⟨ht.buffer, ht.decode, ht.processRepeat⟩
  level i hl := by
    obtain ⟨message, he⟩ := irdaDecode_ctx s.1 s.2 x i
    rw [he] at hl
    have hlevel := (h.steps x i).level
    rw [hlevel] at hl
    cases hs : s.2 <;> simp [hs] at hl

theorem tracking_handlerAfter (level : Bool) (ts : List ℕ) :
    Tracking ts (handlerAfter level ts) := by
  induction ts using List.reverseRecOn with
  | nil => exact tracking_alloc level
  | append_singleton ts x ih =>
    rw [handlerAfter, List.foldl_append]
    exact ih.next x

/-- At every timing of an alternating stream at most one decoder has a message, and the handler
returns it. -/
theorem irda_decode_unique (level : Bool) (ts : List ℕ) (x : ℕ) :
    (produced (handlerAfter level ts).1 (handlerAfter level ts).2 x).length ≤ 1 ∧
      (irdaDecode (handlerAfter level ts).1 (handlerAfter level ts).2 x).1.toList =
        produced (handlerAfter level ts).1 (handlerAfter level ts).2 x := by
  have ht := tracking_handlerAfter level ts
  set s := handlerAfter level ts
  have hone : (produced s.1 s.2 x).length ≤ 1 := by
    have hnot : ¬ ((irdaCommonDecode protocolNec (s.1.ctx .nec) s.2 x).1.isSome = true ∧
        (irdaCommonDecode protocolSamsung32 (s.1.ctx .samsung32) s.2 x).1.isSome = true) := by
      rintro ⟨hn, hs⟩
      exact not_ends_both ((ht.steps x .nec).ends hn) ((ht.steps x .samsung32).ends hs)
    simp only [produced, irdaProtocols, List.filterMap_cons, List.filterMap_nil, IrdaProtocol.spec]
    cases hs : (irdaCommonDecode protocolSamsung32 (s.1.ctx .samsung32) s.2 x).1 <;>
      cases hn : (irdaCommonDecode protocolNec (s.1.ctx .nec) s.2 x).1 <;> simp_all
  refine ⟨hone, ?_⟩
  rw [irdaDecode_fst]
  match hp : produced s.1 s.2 x with
  | [] => rfl
  | [m] => rfl
  | _ :: _ :: _ =>
    rw [hp] at hone
    simp at hone

end Run

end FlipperZero.Irda
