import FlipperZero.Irda.Protocols
import Mathlib.Data.List.GetD
import Mathlib.Tactic.Ring

/-! # Frames in a stream of timings

A frame is a preamble, the pairs of its bits and a stop mark. The tolerances of
the preamble are worked out once in binary floating point; a decoder that has
matched the preamble collects the bits of the pairs and reads them at the stop
mark.
-/

namespace FlipperZero.Irda

open FlipperZero.Lib

section Tolerance

theorem preambleTolerance_eq : binary32 (binary64 (7 / 100)) = 9395241 / 134217728 := by
  have h : binary64 (7 / 100) = 5044031582654956 * 2 ^ (-4 - ((53 : ℕ) - 1 : ℤ)) := by
    apply roundTo_eq (e := -4) (n := 5044031582654956) <;> norm_num
  rw [h, binary32, roundTo_eq (e := -4) (n := 9395241)] <;> norm_num

theorem one_add_tolerance : binary32 (1 + 9395241 / 134217728) = 8975811 / 8388608 := by
  rw [binary32, roundTo_eq (e := 0) (n := 8975811)] <;> norm_num

theorem one_sub_tolerance : binary32 (1 - 9395241 / 134217728) = 15602811 / 16777216 := by
  rw [binary32, roundTo_eq (e := -1) (n := 15602811)] <;> norm_num

theorem matchPreambleTiming_iff {x v : ℕ} {a b : ℚ}
    (hhi : binary32 (v * (8975811 / 8388608)) = b) (hlo : binary32 (v * (15602811 / 16777216)) = a)
    (hh : b ≤ 2 ^ 24) (hl : a < 2 ^ 24) :
    matchPreambleTiming x v (binary32 (binary64 (7 / 100))) ↔ a < (x : ℚ) ∧ (x : ℚ) < b := by
  rw [matchPreambleTiming, preambleTolerance_eq, one_add_tolerance, one_sub_tolerance, hhi, hlo,
    binary32, roundTo_natCast_lt_iff (by decide) hh, lt_roundTo_natCast_iff (by decide) hl, and_comm]

theorem match_9000_iff {x : ℕ} :
    matchPreambleTiming x 9000 (binary32 (binary64 (7 / 100))) ↔ 8370 < x ∧ x < 9630 := by
  rw [matchPreambleTiming_iff (a := 8370) (b := 9630)] <;> try norm_num
  · rw [binary32, roundTo_eq (e := 13) (n := 9861120)] <;> norm_num
  · rw [binary32, roundTo_eq (e := 13) (n := 8570880)] <;> norm_num

theorem match_4500_iff {x : ℕ} :
    matchPreambleTiming x 4500 (binary32 (binary64 (7 / 100))) ↔ 4185 < x ∧ x < 4815 := by
  rw [matchPreambleTiming_iff (a := 4185) (b := 4815)] <;> try norm_num
  · rw [binary32, roundTo_eq (e := 12) (n := 9861120)] <;> norm_num
  · rw [binary32, roundTo_eq (e := 12) (n := 8570880)] <;> norm_num

theorem match_2250_iff {x : ℕ} :
    matchPreambleTiming x 2250 (binary32 (binary64 (7 / 100))) ↔ 2092 < x ∧ x < 2408 := by
  rw [matchPreambleTiming_iff (a := 4185 / 2) (b := 4815 / 2)]
  · rw [div_lt_iff₀ two_pos, lt_div_iff₀ two_pos]
    norm_cast
    omega
  · rw [binary32, roundTo_eq (e := 11) (n := 9861120)] <;> norm_num
  · rw [binary32, roundTo_eq (e := 11) (n := 8570880)] <;> norm_num
  · norm_num
  · norm_num

end Tolerance

def pairBit (tm : IrdaCommonDecoderTimings) (mark space : ℕ) : Option Bool :=
  if matchBitTiming mark tm.bit1Mark tm.bitTolerance ∧
      matchBitTiming space tm.bit1Space tm.bitTolerance then some true
  else if matchBitTiming mark tm.bit0Mark tm.bitTolerance ∧
      matchBitTiming space tm.bit0Space tm.bitTolerance then some false
  else none

/-- The timings are pairs of a mark and a space that stand for the bits. -/
def BitPairs (tm : IrdaCommonDecoderTimings) : List ℕ → List Bool → Prop
  | [], [] => True
  | mark :: space :: rest, b :: bits => pairBit tm mark space = some b ∧ BitPairs tm rest bits
  | _, _ => False

variable {tm : IrdaCommonDecoderTimings} {d d' : IrdaCommonDecoder}
variable {ts body : List ℕ} {bits bits' : List Bool}

theorem BitPairs.length (h : BitPairs tm body bits) : body.length = 2 * bits.length := by
  induction body, bits using BitPairs.induct with
  | case1 => rfl
  | case2 mark space rest b bits ih =>
    have := ih h.2
    simp only [List.length_cons]
    omega
  | case3 => simp_all [BitPairs]

theorem BitPairs.snoc (h : BitPairs tm body bits) {mark space : ℕ} {b : Bool}
    (hb : pairBit tm mark space = some b) :
    BitPairs tm (body ++ [mark, space]) (bits ++ [b]) := by
  induction body, bits using BitPairs.induct with
  | case1 => exact ⟨hb, trivial⟩
  | case2 mark space rest b bits ih => exact ⟨h.1, ih h.2⟩
  | case3 => simp_all [BitPairs]

/-- Write the data bit `cnt` as `irda_common_decode_pdwm` does. -/
def storeBit (data : ℕ → BitVec 8) (cnt : ℕ) (b : Bool) : ℕ → BitVec 8 :=
  if b then setBit (clearByte data cnt) cnt else clearByte data cnt

theorem pdwmLoop_pair (tm : IrdaCommonDecoderTimings) (len mark space : ℕ) (rest : List ℕ) (cnt : ℕ)
    (data : ℕ → BitVec 8) : pdwmLoop tm len (mark :: space :: rest) cnt data =
      match pairBit tm mark space with
      | some b => pdwmLoop tm len rest (cnt + 1) (storeBit data cnt b)
      | none => (.error, mark :: space :: rest, cnt, clearByte data cnt) := by
  simp only [pdwmLoop, pairBit, storeBit]
  split
  · rfl
  · split <;> rfl

/-- The data bytes that have been started hold the bits, and zeros above them. -/
def Packed (data : ℕ → BitVec 8) (bits : List Bool) : Prop :=
  ∀ j, j / 8 * 8 < bits.length → (data (j / 8)).getLsbD (j % 8) = bits.getD j false

theorem packed_nil (data : ℕ → BitVec 8) : Packed data [] := by
  intro j hj
  cases hj

theorem getLsbD_one_shiftLeft {s i : ℕ} (hs : s < 8) (hi : i < 8) :
    (BitVec.ofNat 8 (1 <<< s)).getLsbD i = decide (i = s) := by
  have : ∀ s i : Fin 8, (BitVec.ofNat 8 (1 <<< s.val)).getLsbD i.val = decide (i.val = s.val) := by
    decide
  exact this ⟨s, hs⟩ ⟨i, hi⟩

theorem Packed.store {data : ℕ → BitVec 8} (h : Packed data bits) (b : Bool) :
    Packed (storeBit data bits.length b) (bits ++ [b]) := by
  set k := bits.length with hk
  have hclear : ∀ j, j / 8 * 8 < k + 1 →
      (clearByte data k (j / 8)).getLsbD (j % 8) = bits.getD j false := by
    intro j hj
    by_cases hjk : j / 8 * 8 < k
    · have hne : ¬ (k % 8 = 0 ∧ j / 8 = k / 8) := by omega
      rw [← h j hjk, clearByte]
      split
      · next hz => rw [Function.update_of_ne fun he => hne ⟨hz, he⟩]
      · rfl
    · have hz : k % 8 = 0 := by omega
      have he : j / 8 = k / 8 := by omega
      have hlen : bits.length ≤ j := by omega
      rw [clearByte, if_pos hz, he, Function.update_self, List.getD_eq_default _ _ hlen]
      simp
  intro j hj
  rw [List.length_append, List.length_singleton] at hj
  have hget : (bits ++ [b]).getD j false = (bits.getD j false || (b && decide (j = k))) := by
    rcases lt_trichotomy j k with hlt | rfl | hgt
    · rw [List.getD_append _ _ _ _ hlt]
      simp [Nat.ne_of_lt hlt]
    · simp [hk]
    · have hlen : (bits ++ [b]).length ≤ j := by
        rw [List.length_append, List.length_singleton]
        omega
      rw [List.getD_eq_default _ _ hlen, List.getD_eq_default _ _ (hk ▸ hgt.le)]
      simp [Nat.ne_of_gt hgt]
  rw [hget]
  cases b with
  | false => simpa [storeBit] using hclear j hj
  | true =>
    simp only [storeBit, if_true, setBit, Bool.true_and]
    by_cases he : j / 8 = k / 8
    · have hmod : (decide (j % 8 = k % 8)) = decide (j = k) := by
        congr 1
        apply propext
        omega
      rw [he, Function.update_self, BitVec.getLsbD_or, ← he, hclear j hj,
        getLsbD_one_shiftLeft (Nat.mod_lt _ (by decide)) (Nat.mod_lt _ (by decide)), hmod]
    · have hne : j ≠ k := by rintro rfl; exact he rfl
      rw [Function.update_of_ne he, hclear j hj]
      simp [hne]

/-- The bits of a frame, the least significant first. -/
def frameBits (frame : BitVec 32) : List Bool :=
  (List.range 32).map frame.getLsbD

def frameByte (frame : BitVec 32) (i : ℕ) : BitVec 8 := frame.extractLsb' (8 * i) 8

@[simp] theorem length_frameBits (frame : BitVec 32) : (frameBits frame).length = 32 := by
  simp [frameBits]

theorem getD_frameBits (frame : BitVec 32) (j : ℕ) :
    (frameBits frame).getD j false = frame.getLsbD j := by
  by_cases hj : j < 32
  · simp [frameBits, hj]
  · rw [List.getD_eq_default _ _ (by simpa using hj), BitVec.getLsbD_of_ge _ _ (by omega)]

theorem exists_frameBits (h : bits.length = 32) : ∃ frame, bits = frameBits frame := by
  refine ⟨(BitVec.ofBoolListLE bits).cast h, List.ext_getElem (by simp [h]) fun i h1 h2 => ?_⟩
  have hget := getD_frameBits ((BitVec.ofBoolListLE bits).cast h) i
  rw [List.getD_eq_getElem _ _ h2] at hget
  rw [hget, BitVec.getLsbD_cast, BitVec.getLsbD_ofBoolListLE, List.getD_eq_getElem _ _ h1]

theorem Packed.data_eq {data : ℕ → BitVec 8} {frame : BitVec 32} (h : Packed data (frameBits frame))
    {i : ℕ} (hi : i < 4) : data i = frameByte frame i := by
  ext j hj
  have hdiv : (8 * i + j) / 8 = i := by omega
  have hmod : (8 * i + j) % 8 = j := by omega
  have := h (8 * i + j) (by rw [hdiv, length_frameBits]; omega)
  rw [hdiv, hmod, getD_frameBits] at this
  simpa [frameByte, BitVec.getLsbD_eq_getElem, hj] using this

/-- A preamble, the pairs of 32 bits and a stop mark. -/
def IsFrame (tm : IrdaCommonDecoderTimings) (w : List ℕ) (frame : BitVec 32) : Prop :=
  ∃ mark space body stop, w = mark :: space :: (body ++ [stop]) ∧ tm.Preamble mark space ∧
    BitPairs tm body (frameBits frame) ∧ matchBitTiming stop tm.bit1Mark tm.bitTolerance

theorem IsFrame.length {w : List ℕ} {frame : BitVec 32} (h : IsFrame tm w frame) :
    w.length = 67 := by
  obtain ⟨mark, space, body, stop, rfl, -, hb, -⟩ := h
  have := hb.length
  simp only [List.length_cons, List.length_append, List.length_nil, length_frameBits] at this ⊢
  omega

section Run

variable {p : IrdaCommonProtocolSpec}

theorem decoderAfter_append (p : IrdaCommonProtocolSpec) (d : IrdaCommonDecoder) (xs ys : List ℕ) :
    decoderAfter p d (xs ++ ys) = decoderAfter p (decoderAfter p d xs) ys := by
  induction xs generalizing d with
  | nil => rfl
  | cons x xs ih => exact ih _

theorem messages_append (p : IrdaCommonProtocolSpec) (d : IrdaCommonDecoder) (xs ys : List ℕ) :
    messages p d (xs ++ ys) = messages p d xs ++ messages p (decoderAfter p d xs) ys := by
  induction xs generalizing d with
  | nil => rfl
  | cons x xs ih => simp only [List.cons_append, messages, ih, List.append_assoc, decoderAfter]

theorem messageAt_concat (p : IrdaCommonProtocolSpec) (ts : List ℕ) (x : ℕ) :
    messageAt p (ts ++ [x]) = (receive p (decoderAfter p irdaCommonDecoderAlloc ts) x).1 := by
  simp [messageAt]

/-- The decoder with the next timing in its buffer. -/
def IrdaCommonDecoder.push (d : IrdaCommonDecoder) (x : ℕ) : IrdaCommonDecoder :=
  { d with level := !d.level, timings := d.timings ++ [x] }

theorem receive_eq (p : IrdaCommonProtocolSpec) (d : IrdaCommonDecoder) (x : ℕ) :
    receive p d x = match d.state with
      | .waitPreamble => (none, stepWaitPreamble p (d.push x))
      | .decode => stepDecode p (d.push x)
      | .processRepeat => stepProcessRepeat p (d.push x) := by
  cases hs : d.state <;> simp [receive, irdaCommonDecode, IrdaCommonDecoder.push, hs]

theorem receive_waitPreamble (h : d.state = .waitPreamble) (x : ℕ) :
    receive p d x = (none, stepWaitPreamble p (d.push x)) := by
  rw [receive_eq, h]

/-- The part of the buffer that is searched for a preamble. -/
def IrdaCommonDecoder.searched (d : IrdaCommonDecoder) : List ℕ :=
  if startLevel d then d.timings.drop 1 else d.timings

theorem stepWaitPreamble_mark {x : ℕ} (hl : d.level = false) (ht : d.timings = [x]) :
    stepWaitPreamble p d = d := by
  have hs : d.searched = [x] := by simp [IrdaCommonDecoder.searched, startLevel, hl, ht]
  have hloop : checkPreambleLoop p.timings d.searched = (false, [x]) := by rw [hs]; rfl
  rw [stepWaitPreamble_eq p d hloop]
  cases d
  cases ht
  rfl

theorem stepWaitPreamble_space {x : ℕ} (hl : d.level = true) (ht : d.timings = [x]) :
    stepWaitPreamble p d = { d with timings := [] } := by
  have hs : d.searched = [] := by simp [IrdaCommonDecoder.searched, startLevel, hl, ht]
  have hloop : checkPreambleLoop p.timings d.searched = (false, []) := by rw [hs]; rfl
  rw [stepWaitPreamble_eq p d hloop]
  rfl

theorem stepWaitPreamble_pair {mark space : ℕ} (hl : d.level = true)
    (ht : d.timings = [mark, space]) :
    stepWaitPreamble p d = if p.timings.Preamble mark space then
      { d with timings := [], state := .decode, databitCnt := 0 } else { d with timings := [] } := by
  have hs : d.searched = [mark, space] := by
    simp [IrdaCommonDecoder.searched, startLevel, hl, ht]
  have hloop := checkPreambleLoop_pair p.timings mark space []
  rw [← hs] at hloop
  by_cases h : p.timings.Preamble mark space
  · rw [if_pos h] at hloop ⊢
    rw [stepWaitPreamble_eq p d hloop]
    rfl
  · rw [if_neg h] at hloop ⊢
    rw [stepWaitPreamble_eq p d hloop]
    rfl

/-- A failed repeat leaves its space out and is searched for a preamble from its mark on. -/
theorem stepWaitPreamble_repeat {pause mark space : ℕ} {rest : List ℕ} (hl : d.level = false)
    (ht : d.timings = pause :: mark :: space :: rest) (hr : rest.length % 2 = 1)
    (h : p.timings.Preamble mark space) :
    stepWaitPreamble p d = { d with timings := rest, state := .decode, databitCnt := 0 } := by
  have hstart : startLevel d = true := by
    simp only [startLevel, hl, ht, List.length_cons]
    simp
    omega
  have hs : d.searched = mark :: space :: rest := by
    rw [IrdaCommonDecoder.searched, hstart, ht]
    rfl
  have hloop := checkPreambleLoop_pair p.timings mark space rest
  rw [← hs, if_pos h] at hloop
  rw [stepWaitPreamble_eq p d hloop]
  rfl

end Run

/-- The protocols of 32 bits with pulse distance-width modulation. -/
structure Pdwm (p : IrdaCommonProtocolSpec) : Prop where
  decode : p.decode = irdaCommonDecodePdwm
  databitLen : p.databitLen = 32

theorem pdwm_nec : Pdwm protocolNec := ⟨rfl, rfl⟩

theorem pdwm_samsung32 : Pdwm protocolSamsung32 := ⟨rfl, rfl⟩

/-- After a preamble and a space the decoder has read the bits and its buffer is empty. -/
structure Collecting (d : IrdaCommonDecoder) (bits : List Bool) : Prop where
  state : d.state = .decode
  level : d.level = true
  timings : d.timings = []
  databitCnt : d.databitCnt = bits.length
  packed : Packed d.data bits

/-- After a preamble and a mark the decoder has read the bits and keeps the mark. -/
structure HoldsMark (d : IrdaCommonDecoder) (bits : List Bool) (mark : ℕ) : Prop where
  state : d.state = .decode
  level : d.level = false
  timings : d.timings = [mark]
  databitCnt : d.databitCnt = bits.length
  packed : Packed d.data bits

section Pdwm

variable {p : IrdaCommonProtocolSpec}

theorem Collecting.receive_mark (hp : Pdwm p) (hc : Collecting d bits) (hlt : bits.length < 32) (x : ℕ) :
    receive p d x = (none, d.push x) ∧ HoldsMark (d.push x) bits x := by
  have hne : bits.length ≠ 32 := Nat.ne_of_lt hlt
  refine ⟨?_, hc.state, ?_, ?_, hc.databitCnt, hc.packed⟩
  · simp only [receive_eq, hc.state, stepDecode, hp.decode, hp.databitLen, irdaCommonDecodePdwm,
      IrdaCommonDecoder.push, hc.timings, List.nil_append, pdwmLoop, hc.databitCnt, if_neg hne]
  · simp [IrdaCommonDecoder.push, hc.level]
  · simp [IrdaCommonDecoder.push, hc.timings]

theorem HoldsMark.receive_space {mark : ℕ} (hp : Pdwm p) (hm : HoldsMark d bits mark) (x : ℕ) :
    (∀ b, pairBit p.timings mark x = some b → ∃ d', receive p d x = (none, d') ∧
      Collecting d' (bits ++ [b]) ∧ d'.message = d.message) ∧
    (pairBit p.timings mark x = none → ∃ d' : IrdaCommonDecoder, receive p d x =
      (none, stepWaitPreamble p { d' with state := .waitPreamble }) ∧ d'.level = true ∧
        d'.timings = [mark, x] ∧ d'.message = d.message) := by
  have hr : receive p d x = stepDecode p (d.push x) := by
    rw [receive_eq, hm.state]
  have hl : (d.push x).level = true := by simp [IrdaCommonDecoder.push, hm.level]
  have ht : (d.push x).timings = [mark, x] := by simp [IrdaCommonDecoder.push, hm.timings]
  constructor
  · intro b hb
    refine ⟨{ d.push x with
      timings := [], databitCnt := d.databitCnt + 1, data := storeBit d.data d.databitCnt b }, ?_,
      ⟨hm.state, hl, rfl, ?_, ?_⟩, rfl⟩
    · simp only [hr, stepDecode, hp.decode, irdaCommonDecodePdwm, ht, pdwmLoop_pair, hb, pdwmLoop]
      rfl
    · simp [hm.databitCnt]
    · rw [hm.databitCnt]
      exact hm.packed.store b
  · intro hb
    refine ⟨{ d.push x with data := clearByte d.data d.databitCnt }, ?_, hl, ht, rfl⟩
    simp only [hr, stepDecode, hp.decode, irdaCommonDecodePdwm, ht, pdwmLoop_pair, hb]
    rw [← ht]
    rfl

theorem Collecting.receive_stop (hp : Pdwm p) (hc : Collecting d bits) (hlen : bits.length = 32) (x : ℕ) :
    (matchBitTiming x p.timings.bit1Mark p.timings.bitTolerance → ∃ d', Packed d'.data bits ∧
      d'.level = false ∧ d'.timings = [] ∧ d'.message = d.message ∧
      receive p d x = stepReady p d') ∧
    (¬ matchBitTiming x p.timings.bit1Mark p.timings.bitTolerance →
      receive p d x = (none, { d.push x with state := .waitPreamble })) := by
  have hr : receive p d x = stepDecode p (d.push x) := by
    rw [receive_eq, hc.state]
  have hl : (d.push x).level = false := by simp [IrdaCommonDecoder.push, hc.level]
  have ht : (d.push x).timings = [x] := by simp [IrdaCommonDecoder.push, hc.timings]
  have hn : (d.push x).databitCnt = 32 := hc.databitCnt.trans hlen
  constructor
  · intro hx
    refine ⟨{ d.push x with timings := [] }, hc.packed, hl, rfl, rfl, ?_⟩
    simp only [hr, stepDecode, hp.decode, hp.databitLen, irdaCommonDecodePdwm, ht, hn, pdwmLoop,
      if_pos, if_pos hx]
  · intro hx
    have hw : stepWaitPreamble p { d.push x with state := .waitPreamble } =
        { d.push x with state := .waitPreamble } := stepWaitPreamble_mark hl ht
    simp only [hr, stepDecode, hp.decode, hp.databitLen, irdaCommonDecodePdwm, ht, hn, pdwmLoop,
      if_pos, if_neg hx]
    rw [← hn, ← ht]
    exact congrArg _ hw

theorem Collecting.pairs (hp : Pdwm p) (hc : Collecting d bits)
    (hb : BitPairs p.timings body bits') (hlen : bits.length + bits'.length ≤ 32) :
    messages p d body = [] ∧ Collecting (decoderAfter p d body) (bits ++ bits') ∧
      (decoderAfter p d body).message = d.message := by
  induction body, bits' using BitPairs.induct generalizing d bits with
  | case1 => exact ⟨rfl, by simpa [decoderAfter] using hc, rfl⟩
  | case2 mark space rest b bits' ih =>
    rw [List.length_cons] at hlen
    obtain ⟨hm, hh⟩ := hc.receive_mark hp (by omega) mark
    obtain ⟨d', hs, hc', hmsg⟩ := (hh.receive_space hp space).1 b hb.1
    have hlen' : (bits ++ [b]).length + bits'.length ≤ 32 := by
      rw [List.length_append, List.length_singleton]
      omega
    obtain ⟨hms, hcs, hmsgs⟩ := ih hc' hb.2 hlen'
    refine ⟨?_, ?_, ?_⟩
    · simp [messages, hm, hs, hms]
    · simpa [decoderAfter, hm, hs] using hcs
    · simp only [decoderAfter, hm, hs, hmsgs, hmsg]
      rfl
  | case3 => simp_all [BitPairs]

theorem Collecting.finish (hp : Pdwm p) (hc : Collecting d bits) (hb : BitPairs p.timings body bits')
    (hlen : (bits ++ bits').length = 32) {stop : ℕ}
    (hs : matchBitTiming stop p.timings.bit1Mark p.timings.bitTolerance) :
    ∃ d', Packed d'.data (bits ++ bits') ∧ d'.level = false ∧ d'.timings = [] ∧
      d'.message = d.message ∧ messages p d (body ++ [stop]) = (stepReady p d').1.toList ∧
      decoderAfter p d (body ++ [stop]) = (stepReady p d').2 := by
  have hle : bits.length + bits'.length ≤ 32 := by rw [← hlen, List.length_append]
  obtain ⟨hnone, hc', hmsg⟩ := hc.pairs hp hb hle
  obtain ⟨d', hpk, hl, ht, hmsg', hr⟩ := (hc'.receive_stop hp hlen stop).1 hs
  refine ⟨d', hpk, hl, ht, hmsg'.trans hmsg, ?_, ?_⟩
  · rw [messages_append, hnone, messages, hr]
    simp [messages]
  · rw [decoderAfter_append, decoderAfter, decoderAfter, hr]

theorem collecting_first {mark space : ℕ} (h : p.timings.Preamble mark space) (idle : ℕ)
    (rest : List ℕ) : ∃ d', Collecting d' [] ∧ d'.message = irdaCommonDecoderAlloc.message ∧
      messages p irdaCommonDecoderAlloc (idle :: mark :: space :: rest) = messages p d' rest ∧
      decoderAfter p irdaCommonDecoderAlloc (idle :: mark :: space :: rest) =
        decoderAfter p d' rest := by
  set d0 := irdaCommonDecoderAlloc
  set d1 : IrdaCommonDecoder := { d0.push idle with timings := [] }
  have h1 : receive p d0 idle = (none, d1) := by
    rw [receive_waitPreamble rfl, stepWaitPreamble_space rfl rfl]
  have h2 : receive p d1 mark = (none, d1.push mark) := by
    rw [receive_waitPreamble rfl, stepWaitPreamble_mark (d := d1.push mark) rfl rfl]
  set d3 : IrdaCommonDecoder := { (d1.push mark).push space with
    timings := [], state := .decode, databitCnt := 0 }
  have h3 : receive p (d1.push mark) space = (none, d3) := by
    rw [receive_waitPreamble rfl,
      stepWaitPreamble_pair (d := (d1.push mark).push space) rfl rfl, if_pos h]
  refine ⟨d3, ⟨rfl, rfl, rfl, rfl, packed_nil _⟩, rfl, ?_, ?_⟩
  · simp only [messages, h1, h2, h3, Option.toList, List.nil_append]
  · simp only [decoderAfter, h1, h2, h3]

end Pdwm

end FlipperZero.Irda
