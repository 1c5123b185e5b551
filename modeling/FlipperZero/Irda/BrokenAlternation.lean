import FlipperZero.Irda.Histories

/-! # Timings that do not alternate

A timing with the level of the timing before it empties the buffer, but the decoder keeps its
state and its bits. A fresh decoder that is fed the stream from that timing on is compared with it,
over all continuations.
-/

namespace FlipperZero.Irda

variable {p : IrdaCommonProtocolSpec} {d e : IrdaCommonDecoder} {n x : ℕ} {level : Bool}
  {status : List ℕ → DecodeStatus} {bits : List Bool}

/-- Some bits behind those that the decoder has make a frame that the protocol takes. -/
def Completable (p : IrdaCommonProtocolSpec) (d : IrdaCommonDecoder) : Prop :=
  ∃ data : ℕ → BitVec 8, (∀ j < d.databitCnt,
      (data (j / 8)).getLsbD (j % 8) = (d.data (j / 8)).getLsbD (j % 8)) ∧
    (p.interpret { d with data := data }).1 = true

/-- The decoder waits for a preamble, or no message can come of the bits that it has. -/
def Forgets (p : IrdaCommonProtocolSpec) (d : IrdaCommonDecoder) (x : ℕ) : Prop :=
  d.state = .waitPreamble ∨ d.state = .decode ∧ (Completable p d →
    d.databitCnt = 32 ∧ ¬ matchBitTiming x p.timings.bit1Mark p.timings.bitTolerance)

/-! ## Decoders that return the same -/

/-- The decoders differ in nothing that is read again. -/
structure Same (d e : IrdaCommonDecoder) : Prop where
  state : d.state = e.state
  timings : d.timings = e.timings
  level : d.level = e.level
  protocol : d.message.protocol = e.message.protocol
  packed : d.state = .decode → ∃ bits, d.databitCnt = bits.length ∧ e.databitCnt = bits.length ∧
    Packed d.data bits ∧ Packed e.data bits
  repeats : d.state = .processRepeat → d.message = e.message

theorem same_stepWaitPreamble (hs : d.state = .waitPreamble) (hs' : e.state = .waitPreamble)
    (ht : d.timings = e.timings) (hl : d.level = e.level)
    (hprotocol : d.message.protocol = e.message.protocol) :
    Same (stepWaitPreamble p d) (stepWaitPreamble p e) := by
  have hstart : startLevel d = startLevel e := by rw [startLevel, startLevel, ht, hl]
  rcases hloop : checkPreambleLoop p.timings
    (if startLevel d then d.timings.drop 1 else d.timings) with ⟨found, rest⟩
  rw [stepWaitPreamble_eq p d hloop]
  rw [hstart, ht] at hloop
  rw [stepWaitPreamble_eq p e hloop]
  cases found with
  | false =>
    rw [if_neg Bool.false_ne_true, if_neg Bool.false_ne_true]
    exact ⟨hs.trans hs'.symm, rfl, hl, hprotocol, fun h => (by simp [hs] at h),
      fun h => (by simp [hs] at h)⟩
  | true =>
    rw [if_pos rfl, if_pos rfl]
    exact ⟨rfl, rfl, hl, hprotocol, fun _ => ⟨[], rfl, rfl, packed_nil _, packed_nil _⟩,
      fun h => (by cases h)⟩

/-- A step of each, with the same result and to decoders of the same relation. -/
structure Steps₂ (P : IrdaCommonDecoder → IrdaCommonDecoder → Prop)
    (r r' : Option IrdaMessage × IrdaCommonDecoder) : Prop where
  message : r.1 = r'.1
  next : P r.2 r'.2

theorem same_stepReady (hr : Reads p n status) (ht : d.timings = e.timings) (hl : d.level = e.level)
    (hprotocol : d.message.protocol = e.message.protocol) {bits : List Bool}
    (hpacked : Packed d.data bits) (hpacked' : Packed e.data bits) (hlen : bits.length = 32) :
    Steps₂ Same (stepReady p d) (stepReady p e) := by
  obtain ⟨frame, rfl⟩ := exists_frameBits hlen
  have hdata : ∀ k < 4, d.data k = e.data k := fun k hk =>
    (hpacked.data_eq hk).trans (hpacked'.data_eq hk).symm
  obtain ⟨htaken, hmessage⟩ := hr.congr d e hdata hprotocol
  have hkeeps := hr.interpret d
  have hkeeps' := hr.interpret e
  have hp := hr.protocol d
  have hp' := hr.protocol e
  rcases hi : p.interpret d with ⟨taken, d'⟩
  rcases hi' : p.interpret e with ⟨taken', e'⟩
  rw [hi, hi'] at htaken hmessage
  rw [hi] at hkeeps hp
  rw [hi'] at hkeeps' hp'
  dsimp only at htaken hmessage hkeeps hkeeps' hp hp'
  subst htaken
  rw [stepReady, stepReady, hi, hi']
  have ht' : d'.timings = e'.timings := by
    rw [hkeeps, hkeeps']
    exact ht
  have hl' : d'.level = e'.level := by
    rw [hkeeps, hkeeps']
    exact hl
  cases taken with
  | true =>
    have hm := hmessage rfl
    exact ⟨congrArg some hm, rfl, ht', hl', hp.trans (hprotocol.trans hp'.symm),
      fun h => (by cases h), fun _ => hm⟩
  | false =>
    exact ⟨rfl, rfl, ht', hl', hp.trans (hprotocol.trans hp'.symm), fun h => (by cases h),
      fun h => (by cases h)⟩

theorem same_stepBuffered (hr : Reads p n status) (h : Same d e) :
    Steps₂ Same (stepBuffered p d) (stepBuffered p e) := by
  obtain ⟨hstate, ht, hl, hprotocol, hpacked, hrepeats⟩ := h
  cases hs : d.state with
  | waitPreamble =>
    rw [stepBuffered, stepBuffered, ← hstate, hs]
    exact ⟨rfl, same_stepWaitPreamble hs (hstate.symm.trans hs) ht hl hprotocol⟩
  | decode =>
    obtain ⟨bits, hcnt, hcnt', hpk, hpk'⟩ := hpacked hs
    obtain ⟨hst, hts, hpacked, hfull⟩ := pdwmLoop_same p.timings 32 e.timings hpk hpk'
    rw [stepBuffered, stepBuffered, ← hstate, hs]
    dsimp only
    rw [hr.stepDecode, hr.stepDecode, ht, hcnt, hcnt']
    rcases hloop : pdwmLoop p.timings 32 e.timings bits.length d.data with ⟨st, ts, cnt, data⟩
    rcases hloop' : pdwmLoop p.timings 32 e.timings bits.length e.data with ⟨st', ts', cnt', data'⟩
    rw [hloop, hloop'] at hst hts hpacked
    rw [hloop] at hfull
    dsimp only at hst hts hpacked hfull
    subst hst hts
    cases st with
    | ok =>
      exact ⟨rfl, hstate, rfl, hl, hprotocol, fun _ => hpacked (by simp),
        fun h => (by simp [hs] at h)⟩
    | ready =>
      obtain ⟨bits', hcnt, -, hpk, hpk'⟩ := hpacked (by simp)
      exact same_stepReady hr rfl hl hprotocol hpk hpk' (hcnt.symm.trans (hfull rfl))
    | error => exact ⟨rfl, same_stepWaitPreamble rfl rfl rfl hl hprotocol⟩
  | processRepeat =>
    have hm := hrepeats hs
    rw [stepBuffered, stepBuffered, ← hstate, hs]
    dsimp only
    rw [hr.stepProcessRepeat, hr.stepProcessRepeat, ht, hm]
    cases status e.timings with
    | ok => exact ⟨rfl, hstate, ht, hl, hprotocol, fun h => (by simp [hs] at h), fun _ => hm⟩
    | ready => exact ⟨rfl, hstate, rfl, hl, rfl, fun h => (by simp [hs] at h), fun _ => rfl⟩
    | error => exact ⟨rfl, same_stepWaitPreamble rfl rfl rfl hl rfl⟩

theorem Same.put (h : Same d e) (level : Bool) (x : ℕ) : Same (d.put level x) (e.put level x) where
  state := h.state
  timings := by rw [IrdaCommonDecoder.put, IrdaCommonDecoder.put, h.level, h.timings]
  level := rfl
  protocol := h.protocol
  packed := h.packed
  repeats := h.repeats

/-! ## A frame that cannot be completed -/

theorem completable_mono (hr : Reads p n status) (h : Completable p e)
    (hprotocol : d.message.protocol = e.message.protocol) (hle : d.databitCnt ≤ e.databitCnt)
    (hbits : ∀ j < d.databitCnt,
      (e.data (j / 8)).getLsbD (j % 8) = (d.data (j / 8)).getLsbD (j % 8)) :
    Completable p d := by
  obtain ⟨data, hdata, htaken⟩ := h
  refine ⟨data, fun j hj => (hdata j (hj.trans_le hle)).trans (hbits j hj), ?_⟩
  have hsame := hr.congr { d with data := data } { e with data := data } (fun _ _ => rfl) hprotocol
  exact hsame.1.trans htaken

theorem completable_self (hr : Reads p n status)
    (hprotocol : d.message.protocol = e.message.protocol) (hdata : d.data = e.data)
    (h : (p.interpret e).1 = true) : Completable p d := by
  refine ⟨d.data, fun _ _ => rfl, ?_⟩
  exact (hr.congr { d with data := d.data } e (fun _ _ => by rw [hdata]) hprotocol).1.trans h

/-- One decoder is in a frame that it cannot complete, the other one waits for a preamble. -/
structure Lost (p : IrdaCommonProtocolSpec) (d e : IrdaCommonDecoder) : Prop where
  state : d.state = .decode
  waits : e.state = .waitPreamble
  level : d.level = e.level
  protocol : d.message.protocol = e.message.protocol
  packed : ∃ bits, d.databitCnt = bits.length ∧ Packed d.data bits
  le : d.databitCnt ≤ 32
  hopeless : ¬ Completable p d

/-- How the buffers of the two differ: what the one takes for a pair the other one drops. -/
inductive Buffers (d e : IrdaCommonDecoder) : Prop where
  | empty (hd : d.timings = []) (hl : d.level = true) (he : e.timings = [])
  | mark (a : ℕ) (hd : d.timings = [a]) (hl : d.level = false) (he : e.timings = [a])
      (hlt : d.databitCnt < 32)
  | space (a : ℕ) (hd : d.timings = [a]) (hl : d.level = true) (he : e.timings = [])
      (hlt : d.databitCnt < 32)
  | behind (b : ℕ) (hd : d.timings = []) (hl : d.level = false) (he : e.timings = [b])
      (hb : b < 2000)

/-- Both wait for a preamble, one with a mark that begins none. -/
structure Stale (d e : IrdaCommonDecoder) : Prop where
  state : d.state = .waitPreamble
  waits : e.state = .waitPreamble
  level : d.level = false
  level' : e.level = false
  protocol : d.message.protocol = e.message.protocol
  timings : d.timings = []
  mark : ∃ b < 2000, e.timings = [b]

inductive Alike (p : IrdaCommonProtocolSpec) (d e : IrdaCommonDecoder) : Prop where
  | same (h : Same d e)
  | lost (h : Lost p d e) (hbuffers : Buffers d e)
  | stale (h : Stale d e)

theorem stepWaitPreamble_short_pair {b : ℕ} (hr : Reads p n status) (hl : d.level = true)
    (ht : d.timings = [b, x]) (hb : b < 2000) :
    stepWaitPreamble p d = { d with timings := [] } := by
  rw [stepWaitPreamble_pair hl ht, if_neg]
  exact fun h => absurd (hr.long b x h) (Nat.not_le_of_lt hb)

theorem stepWaitPreamble_space_mark {a : ℕ} (hl : d.level = false) (ht : d.timings = [a, x]) :
    stepWaitPreamble p d = { d with timings := [x] } := by
  have hs : d.searched = [x] := by simp [IrdaCommonDecoder.searched, startLevel, hl, ht]
  have hloop : checkPreambleLoop p.timings d.searched = (false, [x]) := by rw [hs]; rfl
  rw [stepWaitPreamble_eq p d hloop]
  rfl

theorem stepDecode_single (hr : Reads p n status) (ht : d.timings = [x]) :
    stepDecode p d =
      if d.databitCnt = 32 then
        if matchBitTiming x p.timings.bit1Mark p.timings.bitTolerance then
          stepReady p { d with timings := [] }
        else (none, stepWaitPreamble p { d with state := .waitPreamble })
      else (none, d) := by
  obtain ⟨state, message, timings, level, cnt, data⟩ := d
  dsimp only at ht
  subst ht
  rw [hr.stepDecode]
  by_cases hc : cnt = 32
  · by_cases hm : matchBitTiming x p.timings.bit1Mark p.timings.bitTolerance
    · simp only [pdwmLoop, if_pos hc, if_pos hm]
    · simp only [pdwmLoop, if_pos hc, if_neg hm]
  · simp only [pdwmLoop, if_neg hc]

theorem stepReady_of_not (hr : Reads p n status) (h : (p.interpret d).1 = false) :
    ∃ m : IrdaMessage, m.protocol = d.message.protocol ∧
      stepReady p d = (none, { d with message := m, state := .waitPreamble }) := by
  have hkeeps := hr.interpret d
  have hp := hr.protocol d
  rcases hi : p.interpret d with ⟨taken, d'⟩
  rw [hi] at h hkeeps hp
  dsimp only at h hkeeps hp
  subst h
  refine ⟨d'.message, hp, ?_⟩
  rw [stepReady, hi]
  dsimp only
  rw [hkeeps]

theorem alike_single (hr : Reads p n status) (hs : d.state = .decode)
    (hs' : e.state = .waitPreamble) (hl : d.level = e.level)
    (hprotocol : d.message.protocol = e.message.protocol)
    (hpacked : ∃ bits, d.databitCnt = bits.length ∧ Packed d.data bits) (hle : d.databitCnt ≤ 32)
    (ht : d.timings = [x]) (ht' : e.timings = [x]) (hforgets : Completable p d →
      d.databitCnt = 32 ∧ ¬ matchBitTiming x p.timings.bit1Mark p.timings.bitTolerance) :
    Steps₂ (Alike p) (stepBuffered p d) (stepBuffered p e) := by
  rw [stepBuffered, stepBuffered, hs, hs']
  dsimp only
  rw [stepDecode_single hr ht]
  by_cases hc : d.databitCnt = 32
  · rw [if_pos hc]
    by_cases hm : matchBitTiming x p.timings.bit1Mark p.timings.bitTolerance
    · have hnot : ¬ Completable p d := fun h => (hforgets h).2 hm
      have htaken : (p.interpret { d with timings := [] }).1 = false := by
        cases hi : (p.interpret { d with timings := [] }).1 with
        | false => rfl
        | true =>
          have hself := completable_self (d := d) (e := { d with timings := [] }) hr rfl rfl hi
          exact absurd hself hnot
      obtain ⟨m, hm', hready⟩ := stepReady_of_not hr htaken
      rw [if_pos hm, hready]
      rcases Bool.eq_false_or_eq_true d.level with hlevel | hlevel
      · rw [stepWaitPreamble_space (hl.symm.trans hlevel) ht']
        exact ⟨rfl, .same ⟨hs'.symm, rfl, hl, hm'.trans hprotocol, fun h => (by cases h),
          fun h => (by cases h)⟩⟩
      · rw [stepWaitPreamble_mark (hl.symm.trans hlevel) ht']
        exact ⟨rfl, .stale ⟨rfl, hs', hlevel, hl.symm.trans hlevel, hm'.trans hprotocol, rfl, x,
          hr.shortBits.mark x hm, ht'⟩⟩
    · rw [if_neg hm]
      exact ⟨rfl, .same (same_stepWaitPreamble rfl hs' (ht.trans ht'.symm) hl hprotocol)⟩
  · have hnot : ¬ Completable p d := fun h => hc (hforgets h).1
    have hlt : d.databitCnt < 32 := Nat.lt_of_le_of_ne hle hc
    rw [if_neg hc]
    rcases Bool.eq_false_or_eq_true d.level with hlevel | hlevel
    · rw [stepWaitPreamble_space (hl.symm.trans hlevel) ht']
      exact ⟨rfl, .lost ⟨hs, hs', hl, hprotocol, hpacked, hle, hnot⟩ (.space x ht hlevel rfl hlt)⟩
    · rw [stepWaitPreamble_mark (hl.symm.trans hlevel) ht']
      exact ⟨rfl, .lost ⟨hs, hs', hl, hprotocol, hpacked, hle, hnot⟩ (.mark x ht hlevel ht' hlt)⟩

theorem stepDecode_two (hr : Reads p n status) {a : ℕ} (ht : d.timings = [a, x]) :
    stepDecode p d = match pairBit p.timings a x with
      | some b => (none, { d with
          timings := [], databitCnt := d.databitCnt + 1, data := storeBit d.data d.databitCnt b })
      | none => (none, stepWaitPreamble p
          { d with data := clearByte d.data d.databitCnt, state := .waitPreamble }) := by
  obtain ⟨state, message, timings, level, cnt, data⟩ := d
  dsimp only at ht
  subst ht
  rw [hr.stepDecode, pdwmLoop_pair]
  cases pairBit p.timings a x <;> rfl

theorem Lost.bit {e' : IrdaCommonDecoder} (hr : Reads p n status) (h : Lost p d e)
    (hlt : d.databitCnt < 32) (b : Bool) (hs : e'.state = .waitPreamble) (hl : d.level = e'.level)
    (hprotocol : d.message.protocol = e'.message.protocol) :
    Lost p { d with
        timings := []
        databitCnt := d.databitCnt + 1
        data := storeBit d.data d.databitCnt b } e' := by
  obtain ⟨bits, hcnt, hpk⟩ := h.packed
  have hpk' := hpk.store b
  refine ⟨h.state, hs, hl, hprotocol, ⟨bits ++ [b], ?_, ?_⟩, hlt, ?_⟩
  · rw [List.length_append, List.length_singleton, hcnt]
  · rwa [hcnt]
  · intro hcomplete
    apply h.hopeless
    refine completable_mono hr hcomplete rfl (Nat.le_succ _) fun j hj => ?_
    rw [hcnt] at hj ⊢
    have hbyte : j / 8 * 8 < bits.length := by omega
    have hbyte' : j / 8 * 8 < (bits ++ [b]).length := by
      rw [List.length_append]
      omega
    dsimp only
    rw [hpk' j hbyte', hpk j hbyte, List.getD_append _ _ _ _ hj]

theorem alike_pair (hr : Reads p n status) {a : ℕ} (h : Lost p d e) (hlt : d.databitCnt < 32)
    (ht : d.timings = [a, x]) (he : d.level = true ∧ e.timings = [a, x] ∨
      d.level = false ∧ e.timings = [x]) :
    Steps₂ (Alike p) (stepBuffered p d) (stepBuffered p e) := by
  rw [stepBuffered, stepBuffered, h.state, h.waits]
  dsimp only
  rw [stepDecode_two hr ht]
  cases hb : pairBit p.timings a x with
  | none =>
    dsimp only
    rcases he with ⟨-, he⟩ | ⟨hl, he⟩
    · exact ⟨rfl, .same (same_stepWaitPreamble rfl h.waits (ht.trans he.symm) h.level h.protocol)⟩
    · rw [stepWaitPreamble_mark (h.level.symm.trans hl) he]
      rw [stepWaitPreamble_space_mark (d := { d with
        data := clearByte d.data d.databitCnt, state := .waitPreamble }) hl ht]
      exact ⟨rfl, .same ⟨h.waits.symm, he.symm, h.level, h.protocol, fun h => (by cases h),
        fun h => (by cases h)⟩⟩
  | some b =>
    obtain ⟨ha, hx⟩ := hr.shortBits.pair a x b hb
    dsimp only
    rcases he with ⟨hl, he⟩ | ⟨hl, he⟩
    · rw [stepWaitPreamble_short_pair hr (h.level.symm.trans hl) he ha]
      exact ⟨rfl, .lost (h.bit hr hlt b h.waits h.level h.protocol)
        (.empty rfl hl rfl)⟩
    · rw [stepWaitPreamble_mark (h.level.symm.trans hl) he]
      exact ⟨rfl, .lost (h.bit hr hlt b h.waits h.level h.protocol) (.behind x rfl hl he hx)⟩

theorem put_of_eq (h : d.level = level) : (d.put level x).timings = [x] := by
  rw [IrdaCommonDecoder.put, if_pos h]
  rfl

theorem put_of_ne (h : d.level ≠ level) : (d.put level x).timings = d.timings ++ [x] := by
  rw [IrdaCommonDecoder.put, if_neg h]

theorem Lost.put (hr : Reads p n status) (h : Lost p d e) (level : Bool) (x : ℕ) :
    Lost p (d.put level x) (e.put level x) where
  state := h.state
  waits := h.waits
  level := rfl
  protocol := h.protocol
  packed := h.packed
  le := h.le
  hopeless hcomplete :=
    h.hopeless (completable_mono hr hcomplete rfl (Nat.le_refl _) fun _ _ => rfl)

theorem alike_lost (hr : Reads p n status) (h : Lost p d e) (hbuffers : Buffers d e) (level : Bool)
    (x : ℕ) : Steps₂ (Alike p) (irdaCommonDecode p d level x) (irdaCommonDecode p e level x) := by
  have hput := h.put hr level x
  have hsingle := fun ht ht' => alike_single (x := x) hr hput.state hput.waits hput.level
    hput.protocol hput.packed hput.le ht ht' fun hc => absurd hc hput.hopeless
  rw [irdaCommonDecode_eq, irdaCommonDecode_eq]
  by_cases hl : d.level = level
  · exact hsingle (put_of_eq hl) (put_of_eq (h.level.symm.trans hl))
  · have ht := put_of_ne (x := x) hl
    have ht' := put_of_ne (x := x) (h.level ▸ hl)
    cases hbuffers with
    | empty hd hlevel he =>
      rw [hd] at ht
      rw [he] at ht'
      exact hsingle ht ht'
    | mark a hd hlevel he hlt =>
      rw [hd] at ht
      rw [he] at ht'
      rw [hlevel] at hl
      exact alike_pair hr hput hlt ht (.inl ⟨(Bool.eq_false_or_eq_true level).resolve_right
        (Ne.symm hl), ht'⟩)
    | space a hd hlevel he hlt =>
      rw [hd] at ht
      rw [he] at ht'
      rw [hlevel] at hl
      exact alike_pair hr hput hlt ht (.inr ⟨(Bool.eq_false_or_eq_true level).resolve_left
        (Ne.symm hl), ht'⟩)
    | behind b hd hlevel he hb =>
      rw [hd] at ht
      rw [he] at ht'
      rw [hlevel] at hl
      have hup : level = true := (Bool.eq_false_or_eq_true level).resolve_right (Ne.symm hl)
      rw [stepBuffered, stepBuffered, hput.state, hput.waits]
      dsimp only
      rw [stepDecode_single hr ht, stepWaitPreamble_short_pair hr hup ht' hb]
      by_cases hc : (d.put level x).databitCnt = 32
      · rw [if_pos hc]
        by_cases hm : matchBitTiming x p.timings.bit1Mark p.timings.bitTolerance
        · have htaken : (p.interpret { d.put level x with timings := [] }).1 = false := by
            cases hi : (p.interpret { d.put level x with timings := [] }).1 with
            | false => rfl
            | true =>
              exact absurd (completable_self (d := d.put level x)
                (e := { d.put level x with timings := [] }) hr rfl rfl hi) hput.hopeless
          obtain ⟨m, hm', hready⟩ := stepReady_of_not hr htaken
          rw [if_pos hm, hready]
          exact ⟨rfl, .same ⟨h.waits.symm, rfl, rfl, hm'.trans h.protocol, fun h => (by cases h),
            fun h => (by cases h)⟩⟩
        · rw [if_neg hm, stepWaitPreamble_space (d := { d.put level x with state := .waitPreamble })
            hup ht]
          exact ⟨rfl, .same ⟨h.waits.symm, rfl, rfl, h.protocol, fun h => (by cases h),
            fun h => (by cases h)⟩⟩
      · rw [if_neg hc]
        have hlt := Nat.lt_of_le_of_ne hput.le hc
        exact ⟨rfl, .lost ⟨hput.state, hput.waits, rfl, h.protocol, hput.packed, hput.le,
          hput.hopeless⟩ (.space x ht hup rfl hlt)⟩

theorem alike_stale (hr : Reads p n status) (h : Stale d e) (level : Bool) (x : ℕ) :
    Steps₂ (Alike p) (irdaCommonDecode p d level x) (irdaCommonDecode p e level x) := by
  obtain ⟨hs, hs', hl, hl', hprotocol, hd, b, hb, he⟩ := h
  have hput : (d.put level x).state = .waitPreamble := hs
  have hput' : (e.put level x).state = .waitPreamble := hs'
  rw [irdaCommonDecode_eq, irdaCommonDecode_eq, stepBuffered, stepBuffered, hput, hput']
  dsimp only
  cases level with
  | false =>
    have ht : (d.put false x).timings = [x] := put_of_eq hl
    have ht' : (e.put false x).timings = [x] := put_of_eq hl'
    exact ⟨rfl, .same (same_stepWaitPreamble hput hput' (ht.trans ht'.symm) rfl hprotocol)⟩
  | true =>
    have ht : (d.put true x).timings = d.timings ++ [x] := put_of_ne (by rw [hl]; decide)
    have ht' : (e.put true x).timings = e.timings ++ [x] := put_of_ne (by rw [hl']; decide)
    rw [hd] at ht
    rw [he] at ht'
    rw [stepWaitPreamble_space rfl ht, stepWaitPreamble_short_pair hr rfl ht' hb]
    exact ⟨rfl, .same ⟨hs.trans hs'.symm, rfl, rfl, hprotocol, fun h => absurd (hs.symm.trans h)
      (by simp), fun h => absurd (hs.symm.trans h) (by simp)⟩⟩

theorem Alike.outputs (hr : Reads p n status) (h : Alike p d e) (ts : List (Bool × ℕ)) :
    outputs p d ts = outputs p e ts := by
  induction ts generalizing d e with
  | nil => rfl
  | cons t ts ih =>
    obtain ⟨level, x⟩ := t
    have hstep : Steps₂ (Alike p) (irdaCommonDecode p d level x)
        (irdaCommonDecode p e level x) := by
      cases h with
      | same h =>
        have hsame := same_stepBuffered hr (h.put level x)
        exact ⟨hsame.message, .same hsame.next⟩
      | lost h hbuffers => exact alike_lost hr h hbuffers level x
      | stale h => exact alike_stale hr h level x
    rw [Irda.outputs, Irda.outputs, hstep.message, ih hstep.next]

theorem outputs_of_forgets (hr : Reads p n status) (hd : Valid n d) (hforgets : Forgets p d x)
    (ts : List (Bool × ℕ)) : outputs p d ((d.level, x) :: ts) =
      outputs p irdaCommonDecoderAlloc ((d.level, x) :: ts) := by
  have ht : (d.put d.level x).timings = [x] := put_of_eq rfl
  have ht' : (irdaCommonDecoderAlloc.put d.level x).timings = [x] := by
    rw [IrdaCommonDecoder.put]
    split <;> rfl
  have hstep : Steps₂ (Alike p) (irdaCommonDecode p d d.level x)
      (irdaCommonDecode p irdaCommonDecoderAlloc d.level x) := by
    rw [irdaCommonDecode_eq, irdaCommonDecode_eq]
    rcases hforgets with hs | ⟨hs, hforgets⟩
    · have hsame := same_stepBuffered hr (d := d.put d.level x)
        (e := irdaCommonDecoderAlloc.put d.level x) ⟨hs, ht.trans ht'.symm, rfl, hd.protocol,
          fun h => absurd (hs.symm.trans h) (by simp), fun h => absurd (hs.symm.trans h) (by simp)⟩
      exact ⟨hsame.message, .same hsame.next⟩
    · have hle : d.databitCnt ≤ 32 := by
        have hroom := hd.room hs
        rw [Room] at hroom
        omega
      have hputs : Completable p (d.put d.level x) → Completable p d :=
        fun h => completable_mono hr h rfl (Nat.le_refl _) fun _ _ => rfl
      exact alike_single (d := d.put d.level x) (e := irdaCommonDecoderAlloc.put d.level x) hr hs
        rfl rfl hd.protocol (hd.packed hs) hle ht ht' fun h => hforgets (hputs h)
  rw [outputs, outputs, hstep.message, hstep.next.outputs hr]

/-! ## A fresh decoder returns nothing for a while -/

/-- The decoder has been fed at most so many timings. -/
structure Young (k : ℕ) (d : IrdaCommonDecoder) : Prop where
  state : d.state ≠ .processRepeat
  timings : d.timings.length ≤ k
  decode : d.state = .decode → 2 * d.databitCnt + d.timings.length + 2 ≤ k

theorem young_stepWaitPreamble {k : ℕ} (hs : d.state = .waitPreamble) (ht : d.timings.length ≤ k) :
    Young k (stepWaitPreamble p d) := by
  have hsearched : (if startLevel d then d.timings.drop 1 else d.timings).length ≤ k := by
    split
    · rw [List.length_drop]
      omega
    · exact ht
  obtain ⟨hyes, hno⟩ := checkPreambleLoop_counts p.timings
    (if startLevel d then d.timings.drop 1 else d.timings)
  have hle := (checkPreambleLoop_spec p.timings
    (if startLevel d then d.timings.drop 1 else d.timings)).2.length_le
  rcases hloop : checkPreambleLoop p.timings
    (if startLevel d then d.timings.drop 1 else d.timings) with ⟨found, rest⟩
  rw [hloop] at hyes hno hle
  dsimp only at hyes hno hle
  rw [stepWaitPreamble_eq p d hloop]
  cases found with
  | false =>
    rw [if_neg Bool.false_ne_true]
    exact ⟨fun h => (by simp [hs] at h), hle.trans hsearched, fun h => (by simp [hs] at h)⟩
  | true =>
    rw [if_pos rfl]
    have hrest := hyes rfl
    exact ⟨fun h => (by cases h), hle.trans hsearched, fun _ => (by dsimp only; omega)⟩

theorem Young.next {k : ℕ} (hr : Reads p n status) (h : Young k d) (hk : k < 66) (level : Bool)
    (x : ℕ) : (irdaCommonDecode p d level x).1 = none ∧
      Young (k + 1) (irdaCommonDecode p d level x).2 := by
  have hlen := length_put d level x
  have ht := h.timings
  rw [irdaCommonDecode_eq, stepBuffered]
  cases hs : d.state with
  | waitPreamble =>
    have hput : (d.put level x).state = .waitPreamble := hs
    rw [hput]
    exact ⟨rfl, young_stepWaitPreamble hput (by omega)⟩
  | processRepeat => exact absurd hs h.state
  | decode =>
    have hput : (d.put level x).state = .decode := hs
    have hcnt : (d.put level x).databitCnt = d.databitCnt := rfl
    have hroom := h.decode hs
    obtain ⟨hok, hready, hle⟩ := pdwmLoop_counts p.timings 32 (d.put level x).timings
      (d.put level x).databitCnt (d.put level x).data
    rw [hput]
    dsimp only
    rw [hr.stepDecode]
    rcases hloop : pdwmLoop p.timings 32 (d.put level x).timings (d.put level x).databitCnt
      (d.put level x).data with ⟨st, ts, cnt, data⟩
    rw [hloop] at hok hready hle
    dsimp only at hok hready hle
    cases st with
    | ok =>
      obtain ⟨hcount, -, -⟩ := hok rfl
      refine ⟨rfl, fun h => ?_, ?_, fun _ => ?_⟩
      · exact absurd (hput.symm.trans h) (by simp)
      · dsimp only
        omega
      · dsimp only
        omega
    | ready =>
      have := hready rfl
      omega
    | error =>
      refine ⟨rfl, young_stepWaitPreamble rfl ?_⟩
      dsimp only
      omega

theorem Young.outputs {k : ℕ} (hr : Reads p n status) (h : Young k d) {ts : List (Bool × ℕ)}
    (hk : k + ts.length ≤ 66) : ∀ o ∈ outputs p d ts, o = none := by
  induction ts generalizing d k with
  | nil => exact fun o ho => absurd ho List.not_mem_nil
  | cons t ts ih =>
    obtain ⟨level, x⟩ := t
    rw [List.length_cons] at hk
    obtain ⟨hnone, hyoung⟩ := h.next hr (by omega) level x
    rw [Irda.outputs]
    intro o ho
    rcases List.mem_cons.mp ho with rfl | ho
    · exact hnone
    · exact ih hyoung (by omega) o ho

theorem young_alloc : Young 0 irdaCommonDecoderAlloc :=
  ⟨fun h => (by cases h), Nat.le_refl _, fun h => (by cases h)⟩

/-! ## What a decoder that was not reset goes on with -/

def alternating (level : Bool) : List ℕ → List (Bool × ℕ)
  | [] => []
  | x :: xs => (level, x) :: alternating (!level) xs

theorem length_alternating (level : Bool) (xs : List ℕ) :
    (alternating level xs).length = xs.length := by
  induction xs generalizing level with
  | nil => rfl
  | cons x xs ih => rw [alternating, List.length_cons, ih, List.length_cons]

theorem outputs_alternating (p : IrdaCommonProtocolSpec) (hl : d.level = level) (xs : List ℕ) :
    outputs p d (alternating level xs) =
      outputs p { d with timings := [] } (alternating level xs) := by
  cases xs with
  | nil => rfl
  | cons x xs =>
    have hput : d.put level x = ({ d with timings := [] } : IrdaCommonDecoder).put level x := by
      simp only [IrdaCommonDecoder.put, if_pos hl]
    rw [alternating, outputs, outputs, irdaCommonDecode_eq, hput]
    rfl

/-- A frame of which the bits have been read, whatever the last level was. -/
structure Inside (d : IrdaCommonDecoder) (bits : List Bool) : Prop where
  state : d.state = .decode
  timings : d.timings = []
  databitCnt : d.databitCnt = bits.length
  packed : Packed d.data bits

theorem put_of_nil (h : d.timings = []) : (d.put level x).timings = [x] := by
  rw [IrdaCommonDecoder.put, h]
  split <;> rfl

theorem Inside.pair {a : ℕ} {b : Bool} (hr : Reads p n status) (h : Inside d bits)
    (hlt : bits.length < 32) (hb : pairBit p.timings a x = some b) (level : Bool) :
    ∃ d', (irdaCommonDecode p (irdaCommonDecode p d level a).2 (!level) x).2 = d' ∧
      Inside d' (bits ++ [b]) ∧ d'.message = d.message := by
  have hput : (d.put level a).state = .decode := h.state
  have ht : (d.put level a).timings = [a] := put_of_nil h.timings
  have hcnt : (d.put level a).databitCnt ≠ 32 := (h.databitCnt.trans_lt hlt).ne
  have hfirst : irdaCommonDecode p d level a = (none, d.put level a) := by
    rw [irdaCommonDecode_eq, stepBuffered, hput]
    dsimp only
    rw [stepDecode_single hr ht, if_neg hcnt]
  have hput' : ((d.put level a).put (!level) x).state = .decode := h.state
  have ht' : ((d.put level a).put (!level) x).timings = [a, x] := by
    rw [put_of_ne (Bool.not_ne_self level).symm, ht]
    rfl
  rw [hfirst, irdaCommonDecode_eq, stepBuffered, hput']
  dsimp only
  rw [stepDecode_two hr ht', hb]
  refine ⟨_, rfl, ⟨h.state, rfl, ?_, ?_⟩, rfl⟩
  · rw [List.length_append, List.length_singleton, ← h.databitCnt]
    rfl
  · have hdata := h.packed.store b
    rwa [← h.databitCnt] at hdata

theorem Inside.run (hr : Reads p n status) (h : Inside d bits) {body : List ℕ} (stops : List ℕ)
    {bits' : List Bool} (hb : BitPairs p.timings body bits') (hle : bits.length + bits'.length ≤ 32)
    (level : Bool) : ∃ d', Inside d' (bits ++ bits') ∧ d'.message = d.message ∧
      ∀ o ∈ outputs p d' (alternating level stops),
        o ∈ outputs p d (alternating level (body ++ stops)) := by
  induction body, bits' using BitPairs.induct generalizing d bits with
  | case1 => exact ⟨d, by rwa [List.append_nil], rfl, fun o ho => ho⟩
  | case2 mark space rest b bits' ih =>
    rw [List.length_cons] at hle
    obtain ⟨d₁, hd₁, hinside, hmessage⟩ := h.pair hr (by omega) hb.1 level
    have hle' : (bits ++ [b]).length + bits'.length ≤ 32 := by
      rw [List.length_append, List.length_singleton]
      omega
    obtain ⟨d', hinside', hmessage', houtputs⟩ := ih hinside hb.2 hle'
    refine ⟨d', ?_, hmessage'.trans hmessage, fun o ho => ?_⟩
    · rwa [List.append_assoc] at hinside'
    · rw [List.cons_append, List.cons_append, alternating, alternating, Bool.not_not, outputs,
        outputs, hd₁]
      exact List.mem_cons_of_mem _ (List.mem_cons_of_mem _ (houtputs o ho))
  | case3 => simp_all [BitPairs]

theorem Reads.exists_bitPairs (hr : Reads p n status) (bits : List Bool) :
    ∃ body, BitPairs p.timings body bits := by
  induction bits with
  | nil => exact ⟨[], trivial⟩
  | cons b bits ih =>
    obtain ⟨body, hbody⟩ := ih
    obtain ⟨mark, space, hb⟩ := hr.pair b
    exact ⟨mark :: space :: body, hb, hbody⟩

theorem stepReady_of_taken (h : (p.interpret d).1 = true) : (stepReady p d).1 ≠ none := by
  rcases hi : p.interpret d with ⟨taken, d'⟩
  rw [hi] at h
  dsimp only at h
  subst h
  rw [stepReady, hi]
  exact Option.some_ne_none _

def bitsOf (data : ℕ → BitVec 8) : List Bool :=
  (List.range 32).map fun j => (data (j / 8)).getLsbD (j % 8)

theorem packed_bitsOf (data : ℕ → BitVec 8) : Packed data (bitsOf data) := by
  intro j hj
  rw [bitsOf, List.length_map, List.length_range] at hj
  have hlt : j < 32 := by omega
  simp [bitsOf, hlt]

theorem take_bitsOf {data : ℕ → BitVec 8} {data' : ℕ → BitVec 8} (hpacked : Packed data' bits)
    (hle : bits.length ≤ 32) (hdata : ∀ j < bits.length,
      (data (j / 8)).getLsbD (j % 8) = (data' (j / 8)).getLsbD (j % 8)) :
    (bitsOf data).take bits.length = bits := by
  apply List.ext_getElem
  · rw [List.length_take, bitsOf, List.length_map, List.length_range]
    omega
  · intro j hj hj'
    have hbit := hpacked j (by omega)
    rw [List.getD_eq_getElem _ _ hj'] at hbit
    rw [← hbit, ← hdata j hj']
    simp [bitsOf]

theorem exists_output_of_inside (hr : Reads p n status) (h : Inside d bits) (hle : bits.length ≤ 32)
    (hcomplete : Completable p d) (level : Bool) : ∃ ts : List ℕ,
      ts.length + 2 * bits.length = 65 ∧ ∃ o ∈ outputs p d (alternating level ts), o ≠ none := by
  obtain ⟨data, hdata, htaken⟩ := hcomplete
  obtain ⟨stop, hstop⟩ := hr.stop
  rw [h.databitCnt] at hdata
  have htake := take_bitsOf h.packed hle hdata
  have hlength : (bitsOf data).length = 32 := by rw [bitsOf, List.length_map, List.length_range]
  have hall : bits ++ (bitsOf data).drop bits.length = bitsOf data := by
    conv_lhs => rw [← htake, List.length_take, hlength, Nat.min_eq_left hle]
    exact List.take_append_drop _ _
  obtain ⟨body, hbody⟩ := hr.exists_bitPairs ((bitsOf data).drop bits.length)
  have hrest : ((bitsOf data).drop bits.length).length = 32 - bits.length := by
    rw [List.length_drop, hlength]
  obtain ⟨d', hinside, hmessage, houtputs⟩ := h.run hr [stop] hbody (by omega) level
  rw [hall] at hinside
  refine ⟨body ++ [stop], ?_, (irdaCommonDecode p d' level stop).1, houtputs _ ?_, ?_⟩
  · rw [List.length_append, hbody.length, hrest, List.length_singleton]
    omega
  · rw [alternating, outputs]
    exact List.mem_cons_self
  · have hput : (d'.put level stop).state = .decode := hinside.state
    have ht : (d'.put level stop).timings = [stop] := put_of_nil hinside.timings
    have hcnt : (d'.put level stop).databitCnt = 32 := hinside.databitCnt.trans hlength
    rw [irdaCommonDecode_eq, stepBuffered, hput]
    dsimp only
    rw [stepDecode_single hr ht, if_pos hcnt, if_pos hstop]
    apply stepReady_of_taken
    obtain ⟨frame, hframe⟩ := exists_frameBits hlength
    have hpk := hinside.packed
    have hpk' := packed_bitsOf data
    rw [hframe] at hpk hpk'
    have hcongr := (hr.congr { d'.put level stop with timings := [] } { d with data := data }
      (fun k hk => (hpk.data_eq hk).trans (hpk'.data_eq hk).symm)
      (congrArg IrdaMessage.protocol hmessage)).1
    exact hcongr.trans htaken

theorem exists_output_of_repeat (hr : Reads p n status) {v : List ℕ} {stop : ℕ} {level : Bool}
    (hs : d.state = .processRepeat) (hlevel : d.timings = [] ∨ d.level ≠ level)
    (hlength : (d.timings ++ v ++ [stop]).length = n)
    (hready : status (d.timings ++ v ++ [stop]) = .ready) :
    ∃ o ∈ outputs p d (alternating level (v ++ [stop])), o ≠ none := by
  have hput : ∀ x, (d.put level x).state = .processRepeat := fun _ => hs
  have ht : ∀ x, (d.put level x).timings = d.timings ++ [x] := by
    intro x
    rcases hlevel with hnil | hne
    · rw [put_of_nil hnil, hnil]
      rfl
    · exact put_of_ne hne
  induction v generalizing d level with
  | nil =>
    rw [List.append_nil] at hready
    refine ⟨(irdaCommonDecode p d level stop).1, List.mem_cons_self, ?_⟩
    rw [irdaCommonDecode_eq, stepBuffered, hput]
    dsimp only
    rw [hr.stepProcessRepeat, ht, hready]
    exact Option.some_ne_none _
  | cons x v ih =>
    have hok : status (d.put level x).timings = .ok := by
      rw [hr.ok_iff, ht, ← hlength]
      simp only [List.length_append, List.length_cons, List.length_nil]
      omega
    have hstep : irdaCommonDecode p d level x = (none, d.put level x) := by
      rw [irdaCommonDecode_eq, stepBuffered, hput]
      dsimp only
      rw [hr.stepProcessRepeat, hok]
    have happ : d.timings ++ x :: v ++ [stop] = (d.put level x).timings ++ v ++ [stop] := by
      rw [ht, List.append_assoc d.timings [x] v]
      rfl
    rw [happ] at hlength hready
    have hne : (d.put level x).level ≠ !level := (Bool.not_ne_self level).symm
    obtain ⟨o, ho, hsome⟩ := ih (d := d.put level x) hs (.inr hne) hlength hready (fun _ => hs)
      fun _ => put_of_ne hne
    refine ⟨o, ?_, hsome⟩
    rw [List.cons_append, alternating, outputs, hstep]
    exact List.mem_cons_of_mem _ ho

theorem exists_output (hr : Reads p n status) (hd : Valid n d) (hkeeps : ¬ Forgets p d x) :
    ∃ ts : List (Bool × ℕ), ts.length ≤ 65 ∧
      ∃ o ∈ outputs p d ((d.level, x) :: ts), o ≠ none := by
  have ht : (d.put d.level x).timings = [x] := put_of_eq rfl
  have hlevel : (d.put d.level x).level = d.level := rfl
  rw [Forgets, not_or, not_and] at hkeeps
  obtain ⟨hwaits, hforgets⟩ := hkeeps
  cases hs : d.state with
  | waitPreamble => exact absurd hs hwaits
  | decode =>
    have hput : (d.put d.level x).state = .decode := hs
    obtain ⟨bits, hcnt, hpk⟩ := hd.packed hs
    have hle : bits.length ≤ 32 := by
      have hroom := hd.room hs
      rw [Room] at hroom
      omega
    have hforgets' := hforgets hs
    rw [Classical.not_imp, not_and, not_not] at hforgets'
    obtain ⟨hcomplete, hstop⟩ := hforgets'
    by_cases hfull : d.databitCnt = 32
    · refine ⟨[], by decide, (irdaCommonDecode p d d.level x).1, List.mem_cons_self, ?_⟩
      have hinside : Inside { d with timings := [] } bits := ⟨hs, rfl, hcnt, hpk⟩
      obtain ⟨data, hdata, htaken⟩ := hcomplete
      have hcnt' : (d.put d.level x).databitCnt = 32 := hfull
      rw [irdaCommonDecode_eq, stepBuffered, hput]
      dsimp only
      rw [stepDecode_single hr ht, if_pos hcnt', if_pos (hstop hfull)]
      apply stepReady_of_taken
      rw [hfull] at hdata
      have hbytes : ∀ k < 4, d.data k = data k := by
        intro k hk
        apply BitVec.eq_of_getLsbD_eq
        intro i hi
        have hbit := hdata (8 * k + i) (by omega)
        rw [show (8 * k + i) / 8 = k by omega, show (8 * k + i) % 8 = i by omega] at hbit
        exact hbit.symm
      have hsame := hr.congr { d.put d.level x with timings := [] } { d with data := data } hbytes
        rfl
      exact hsame.1.trans htaken
    · have hcnt' : (d.put d.level x).databitCnt ≠ 32 := hfull
      have hstep : irdaCommonDecode p d d.level x = (none, d.put d.level x) := by
        rw [irdaCommonDecode_eq, stepBuffered, hput]
        dsimp only
        rw [stepDecode_single hr ht, if_neg hcnt']
      have hinside : Inside { d.put d.level x with timings := [] } bits := ⟨hs, rfl, hcnt, hpk⟩
      have hcomplete' : Completable p { d.put d.level x with timings := [] } :=
        completable_mono hr hcomplete rfl (Nat.le_refl _) fun _ _ => rfl
      obtain ⟨ts, hlength, o, ho, hsome⟩ :=
        exists_output_of_inside hr hinside hle hcomplete' d.level
      refine ⟨alternating d.level ts, ?_, o, ?_, hsome⟩
      · rw [length_alternating]
        omega
      · have hclear := outputs_alternating p (d := d.put d.level x) hlevel ts
        rw [outputs, hstep]
        apply List.mem_cons_of_mem
        rwa [hclear]
  | processRepeat =>
    have hput : (d.put d.level x).state = .processRepeat := hs
    obtain ⟨w, hlength, hready⟩ := hr.repeats
    have hone := hr.one_lt
    have hok : status (d.put d.level x).timings = .ok := by
      rw [hr.ok_iff, ht]
      exact hone
    have hstep : irdaCommonDecode p d d.level x = (none, d.put d.level x) := by
      rw [irdaCommonDecode_eq, stepBuffered, hput]
      dsimp only
      rw [hr.stepProcessRepeat, hok]
    rcases List.eq_nil_or_concat w with rfl | ⟨v, stop, rfl⟩
    · rw [List.length_nil] at hlength
      omega
    · rw [List.concat_eq_append] at hlength hready
      obtain ⟨o, ho, hsome⟩ := exists_output_of_repeat (d := { d.put d.level x with timings := [] })
        hr hs (.inl rfl) hlength hready
      refine ⟨alternating d.level (v ++ [stop]), ?_, o, ?_, hsome⟩
      · have hle := hr.le_six
        rw [length_alternating]
        omega
      · have hclear := outputs_alternating p (d := d.put d.level x) hlevel (v ++ [stop])
        rw [outputs, hstep]
        apply List.mem_cons_of_mem
        rwa [hclear]

/-- What the decoder of a protocol returns from a timing on whose level did not alternate is what a
fresh decoder returns, over all continuations, exactly when it forgets what it has. -/
theorem irda_common_decode_resets (i : IrdaProtocol) (history : List (Bool × ℕ)) (x : ℕ) :
    (∀ continuation : List (Bool × ℕ),
      outputs i.spec (feed i.spec irdaCommonDecoderAlloc history)
        (((feed i.spec irdaCommonDecoderAlloc history).level, x) :: continuation) =
      outputs i.spec irdaCommonDecoderAlloc
        (((feed i.spec irdaCommonDecoderAlloc history).level, x) :: continuation)) ↔
    Forgets i.spec (feed i.spec irdaCommonDecoderAlloc history) x := by
  obtain ⟨n, status, hr⟩ : ∃ n status, Reads i.spec n status := by
    cases i
    · exact ⟨6, _, reads_samsung32⟩
    · exact ⟨4, _, reads_nec⟩
  have hd : Valid n (feed i.spec irdaCommonDecoderAlloc history) :=
    valid_feed hr valid_alloc history
  constructor
  · intro hsame
    by_contra hkeeps
    obtain ⟨ts, hlength, o, ho, hsome⟩ := exists_output hr hd hkeeps
    rw [hsame] at ho
    refine hsome (young_alloc.outputs hr ?_ o ho)
    rw [List.length_cons]
    omega
  · exact fun hforgets => outputs_of_forgets hr hd hforgets

def begunFrame : List (Bool × ℕ) := [(true, 1000), (false, 9000), (true, 4500)]

theorem not_forgets_begunFrame :
    ¬ Forgets protocolNec (feed protocolNec irdaCommonDecoderAlloc begunFrame) 560 := by
  have hpreamble : protocolNec.timings.Preamble 9000 4500 := preamble_nec_iff.mpr (by decide)
  obtain ⟨d, hd, -, -, hafter⟩ := collecting_first hpreamble 1000 []
  have hfeed : feed protocolNec irdaCommonDecoderAlloc begunFrame = d := hafter
  rw [hfeed]
  rintro (hs | ⟨-, hforgets⟩)
  · exact absurd (hd.state.symm.trans hs) (by simp)
  · have hcnt : d.databitCnt = 0 := hd.databitCnt
    have hcomplete : Completable protocolNec d :=
      ⟨fun k => if k = 3 then 0xFF else 0, fun j hj => (by omega),
        by simp [protocolNec, interpretNec]⟩
    have hfull := (hforgets hcomplete).1
    omega

theorem irda_common_decode_keeps : ¬ ∀ (i : IrdaProtocol) (history : List (Bool × ℕ)) (x : ℕ)
    (continuation : List (Bool × ℕ)),
      outputs i.spec (feed i.spec irdaCommonDecoderAlloc history)
        (((feed i.spec irdaCommonDecoderAlloc history).level, x) :: continuation) =
      outputs i.spec irdaCommonDecoderAlloc
        (((feed i.spec irdaCommonDecoderAlloc history).level, x) :: continuation) := by
  intro h
  obtain ⟨ts, hlength, o, ho, hsome⟩ := exists_output reads_nec
    (valid_feed reads_nec valid_alloc begunFrame) not_forgets_begunFrame
  have hsame := h .nec begunFrame 560 ts
  rw [IrdaProtocol.spec] at hsame
  rw [hsame] at ho
  refine hsome (young_alloc.outputs reads_nec ?_ o ho)
  rw [List.length_cons]
  omega

end FlipperZero.Irda
