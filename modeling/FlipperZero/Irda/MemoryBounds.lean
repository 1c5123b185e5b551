import FlipperZero.Irda.DecoderMemory

/-! # The arrays of the decoder

A memory holds a decoder when the counted timings and the four bytes are those of the decoder. A
step in memory follows the step without it as long as the buffer has room for the next timing and
the pairs in it are not more than the bits that are missing, which is so in every state that is
reached.
-/

namespace FlipperZero.Irda

open Lib DecoderMemory

structure DecoderMemory.Holds (m : DecoderMemory) (d : IrdaCommonDecoder) : Prop where
  state : m.state = d.state
  message : m.message = d.message
  level : m.level = d.level
  databitCnt : m.databitCnt = d.databitCnt
  timingsLength : m.timings.length = 6
  timingsCnt : m.timingsCnt = d.timings.length
  timings : m.timings.take m.timingsCnt = d.timings
  dataLength : m.data.length = 4
  data : ∀ i < 4, m.data[i]? = some (d.data i)

/-- The computation in memory is in bounds and leads to the same result. -/
def Simulates {α : Type*} (x : Option (α × DecoderMemory)) (y : α × IrdaCommonDecoder) : Prop :=
  ∃ m, x = some (y.1, m) ∧ m.Holds y.2

variable {α β : Type*} {x : Option (α × DecoderMemory)} {y : α × IrdaCommonDecoder}
  {z : β × IrdaCommonDecoder} {f : α × DecoderMemory → Option (β × DecoderMemory)}
  {m : DecoderMemory} {d : IrdaCommonDecoder} {tm : IrdaCommonDecoderTimings} {i shift : ℕ}

theorem Simulates.bind (h : Simulates x y) (hf : ∀ m, m.Holds y.2 → Simulates (f (y.1, m)) z) :
    Simulates (x.bind f) z := by
  obtain ⟨m, rfl, hm⟩ := h
  exact hf m hm

namespace DecoderMemory.Holds

theorem length_le (h : m.Holds d) : d.timings.length ≤ 6 := by
  rw [← h.timings, ← h.timingsLength]
  exact List.length_take_le' _ _

theorem read (h : m.Holds d) (hi : i < d.timings.length) : m.timings[i]? = d.timings[i]? := by
  rw [← h.timings, List.getElem?_take_of_lt (h.timingsCnt ▸ hi)]

theorem withState (h : m.Holds d) (state : IrdaCommonState) :
    { m with state := state }.Holds { d with state := state } :=
  { h with state := rfl }

theorem withMessage (h : m.Holds d) (message : IrdaMessage) :
    { m with message := message }.Holds { d with message := message } :=
  { h with message := rfl }

theorem emptied (h : m.Holds d) : { m with timingsCnt := 0 }.Holds { d with timings := [] } :=
  { h with timingsCnt := rfl, timings := rfl }

theorem dropTimings (h : m.Holds d) (hle : shift ≤ d.timings.length) :
    ∃ m', m.dropTimings shift = some m' ∧ m'.Holds { d with timings := d.timings.drop shift } := by
  have hlength := h.length_le
  have hcnt := h.timingsCnt
  have hfits : m.timingsCnt - shift + shift ≤ m.timings.length := by
    rw [h.timingsLength]
    omega
  obtain ⟨timings, hshift, hsize, htake⟩ := CBuffer.exists_shiftLeft hfits
  have hdrop : m.dropTimings shift =
      some { m with timings := timings, timingsCnt := m.timingsCnt - shift } := by
    rw [DecoderMemory.dropTimings, hshift, Option.map_some]
  refine ⟨_, hdrop, { h with
    timingsLength := hsize.trans h.timingsLength, timingsCnt := ?_, timings := ?_ }⟩
  · simp only [List.length_drop, hcnt]
  · simp only [htake, ← h.timings, List.drop_take]

theorem clearByte (h : m.Holds d) (hlt : d.databitCnt < 32) :
    ∃ m', m.clearByte = some m' ∧
      m'.Holds { d with data := Irda.clearByte d.data d.databitCnt } := by
  rw [DecoderMemory.clearByte, Irda.clearByte, h.databitCnt]
  have hindex : d.databitCnt / 8 < m.data.length := by
    rw [h.dataLength]
    omega
  by_cases hfirst : d.databitCnt % 8 = 0
  · rw [if_pos hfirst, if_pos hfirst, CBuffer.put_eq_some hindex]
    refine ⟨_, rfl, { h with
      databitCnt := rfl, dataLength := List.length_set.trans h.dataLength, data := ?_ }⟩
    intro i hi
    simp only [List.getElem?_set, Function.update_apply]
    by_cases heq : d.databitCnt / 8 = i
    · rw [if_pos heq, if_pos hindex, if_pos heq.symm]
    · rw [if_neg heq, if_neg (Ne.symm heq), h.data i hi]
  · rw [if_neg hfirst, if_neg hfirst]
    exact ⟨m, rfl, { h with databitCnt := h.databitCnt }⟩

theorem addBit (h : m.Holds d) (hlt : d.databitCnt < 32) (bit : Bool) :
    ∃ m', m.addBit bit = some m' ∧ m'.Holds { d with
      data := if bit then setBit d.data d.databitCnt else d.data
      databitCnt := d.databitCnt + 1 } := by
  have hindex : d.databitCnt / 8 < 4 := by omega
  have hread := h.data _ hindex
  cases bit with
  | false =>
    simp only [DecoderMemory.addBit, h.databitCnt, hread, Option.bind_eq_bind, Option.bind_some]
    exact ⟨_, rfl, { h with databitCnt := rfl }⟩
  | true =>
    rw [← h.dataLength] at hindex
    simp only [DecoderMemory.addBit, h.databitCnt, hread, Option.bind_eq_bind, Option.bind_some,
      if_true, CBuffer.put_eq_some hindex]
    refine ⟨_, rfl, { h with
      databitCnt := rfl, dataLength := List.length_set.trans h.dataLength, data := ?_ }⟩
    intro i hi
    simp only [List.getElem?_set, setBit, Function.update_apply]
    by_cases heq : d.databitCnt / 8 = i
    · rw [if_pos heq, if_pos hindex, if_pos heq.symm]
    · rw [if_neg heq, if_neg (Ne.symm heq), h.data i hi]

theorem startLevel (h : m.Holds d) : m.startLevel = Irda.startLevel d := by
  rw [DecoderMemory.startLevel, Irda.startLevel, h.level, h.timingsCnt]

theorem put (h : m.Holds d) (hroom : d.timings.length < 6) (level : Bool) (duration : ℕ) :
    ∃ m', m.put level duration = some m' ∧ m'.Holds (d.put level duration) := by
  have hcnt : (if m.level = level then 0 else m.timingsCnt) =
      (if d.level = level then [] else d.timings).length := by
    rw [h.level, h.timingsCnt]
    split <;> rfl
  have hfilled : m.timings.take (if m.level = level then 0 else m.timingsCnt) =
      if d.level = level then [] else d.timings := by
    rw [h.level]
    split
    · exact List.take_zero
    · exact h.timings
  have hindex : (if m.level = level then 0 else m.timingsCnt) < m.timings.length := by
    rw [h.timingsLength, h.timingsCnt]
    split <;> omega
  have hcheck : (if m.level = level then 0 else m.timingsCnt) + 1 ≤
      4 * (m.timings.set (if m.level = level then 0 else m.timingsCnt) duration).length := by
    rw [List.length_set]
    omega
  simp only [DecoderMemory.put, CBuffer.put_eq_some hindex, Option.bind_eq_bind, Option.bind_some,
    if_pos hcheck]
  refine ⟨_, rfl, { h with
    level := rfl, timingsLength := List.length_set.trans h.timingsLength
    timingsCnt := ?_, timings := ?_ }⟩
  · simp only [IrdaCommonDecoder.put, List.length_append, List.length_singleton, hcnt]
  · rw [IrdaCommonDecoder.put, List.take_succ_eq_append_getElem (by rwa [List.length_set]),
      List.getElem_set_self, List.take_set_of_le (Nat.le_refl _), hfilled]

theorem pair {mark space : ℕ} {rest : List ℕ} (h : m.Holds d)
    (hts : d.timings = mark :: space :: rest) :
    m.timings[0]? = some mark ∧ m.timings[1]? = some space ∧
      ∃ m', m.dropTimings 2 = some m' ∧ m'.Holds { d with timings := rest } := by
  have hlength : 2 ≤ d.timings.length := by
    rw [hts]
    exact Nat.le_add_left _ _
  have hfirst := h.read (i := 0) (by omega)
  have hsecond := h.read (i := 1) (by omega)
  have hdrop := h.dropTimings hlength
  rw [hts] at hfirst hsecond hdrop
  exact ⟨hfirst, hsecond, hdrop⟩

end DecoderMemory.Holds

/-! ## The loops -/

theorem simulates_checkPreambleLoop (tm : IrdaCommonDecoderTimings) (ts : List ℕ)
    {m : DecoderMemory} {d : IrdaCommonDecoder} (h : m.Holds d) (hts : d.timings = ts) :
    Simulates (DecoderMemory.checkPreambleLoop tm ts.length m)
      ((Irda.checkPreambleLoop tm ts).1,
        { d with timings := (Irda.checkPreambleLoop tm ts).2 }) := by
  induction ts using Irda.checkPreambleLoop.induct tm generalizing m d with
  | case1 mark space rest hfound =>
    obtain ⟨hmark, hspace, m', hdrop, hm'⟩ := h.pair hts
    rw [checkPreambleLoop_pair, if_pos hfound]
    refine ⟨m', ?_, hm'⟩
    simp only [List.length_cons, DecoderMemory.checkPreambleLoop, hmark, hspace, hdrop,
      Option.bind_eq_bind, Option.bind_some, if_pos hfound]
  | case2 mark space rest hnot ih =>
    obtain ⟨hmark, hspace, m', hdrop, hm'⟩ := h.pair hts
    obtain ⟨m'', hloop, hm''⟩ := ih hm' rfl
    rw [checkPreambleLoop_pair, if_neg hnot]
    refine ⟨m'', ?_, hm''⟩
    simp only [List.length_cons, DecoderMemory.checkPreambleLoop, hmark, hspace, hdrop,
      Option.bind_eq_bind, Option.bind_some, if_neg hnot, hloop]
  | case3 ts hshort =>
    subst hts
    have hleft : Irda.checkPreambleLoop tm d.timings = (false, d.timings) ∧
        DecoderMemory.checkPreambleLoop tm d.timings.length m = some (false, m) := by
      rcases hts : d.timings with _ | ⟨mark, _ | ⟨space, rest⟩⟩
      · exact ⟨rfl, rfl⟩
      · exact ⟨rfl, rfl⟩
      · exact absurd hts (hshort mark space rest)
    rw [hleft.1, hleft.2]
    exact ⟨m, rfl, h⟩

theorem DecoderMemory.Holds.align (h : m.Holds d) : ∃ m', m.align = some m' ∧
    m'.Holds { d with timings := if Irda.startLevel d then d.timings.drop 1 else d.timings } := by
  rw [DecoderMemory.align, h.startLevel, h.timingsCnt]
  by_cases hstart : Irda.startLevel d = true
  · rw [if_pos hstart]
    by_cases hpos : 0 < d.timings.length
    · rw [if_pos ⟨hstart, hpos⟩]
      exact h.dropTimings hpos
    · have hkept : d.timings.drop 1 = d.timings := by
        rw [List.length_eq_zero_iff.mp (Nat.eq_zero_of_not_pos hpos)]
        rfl
      rw [if_neg fun hdrop => hpos hdrop.2, hkept]
      exact ⟨m, rfl, h⟩
  · rw [if_neg hstart, if_neg fun hdrop => hstart hdrop.1]
    exact ⟨m, rfl, h⟩

theorem simulates_irdaCheckPreamble (tm : IrdaCommonDecoderTimings) (h : m.Holds d) :
    Simulates (DecoderMemory.irdaCheckPreamble tm m) (Irda.irdaCheckPreamble tm d) := by
  obtain ⟨m', halign, hm'⟩ := h.align
  have hloop := simulates_checkPreambleLoop tm _ hm' rfl
  rw [← hm'.timingsCnt] at hloop
  rw [DecoderMemory.irdaCheckPreamble, halign]
  exact hloop

theorem irdaCommonDecodePdwm_nil (hts : d.timings = []) :
    Irda.irdaCommonDecodePdwm tm 32 d = (.ok, d) := by
  rw [Irda.irdaCommonDecodePdwm, hts, Irda.pdwmLoop, ← hts]

theorem irdaCommonDecodePdwm_single {mark : ℕ} (hts : d.timings = [mark]) :
    Irda.irdaCommonDecodePdwm tm 32 d =
      if d.databitCnt = 32 then
        if matchBitTiming mark tm.bit1Mark tm.bitTolerance then (.ready, { d with timings := [] })
        else (.error, d)
      else (.ok, d) := by
  rw [Irda.irdaCommonDecodePdwm, hts, Irda.pdwmLoop, ← hts]
  by_cases hfull : d.databitCnt = 32
  · simp only [if_pos hfull]
    by_cases hstop : matchBitTiming mark tm.bit1Mark tm.bitTolerance
    · simp only [if_pos hstop]
    · simp only [if_neg hstop]
  · simp only [if_neg hfull]

section

variable {mark space : ℕ} {rest : List ℕ}

theorem irdaCommonDecodePdwm_of_some {bit : Bool} (hts : d.timings = mark :: space :: rest)
    (hbit : pairBit tm mark space = some bit) : Irda.irdaCommonDecodePdwm tm 32 d =
      Irda.irdaCommonDecodePdwm tm 32 { d with
        timings := rest, databitCnt := d.databitCnt + 1
        data := storeBit d.data d.databitCnt bit } := by
  rw [Irda.irdaCommonDecodePdwm, hts, pdwmLoop_pair, hbit]
  rfl

theorem irdaCommonDecodePdwm_of_none (hts : d.timings = mark :: space :: rest)
    (hbit : pairBit tm mark space = none) : Irda.irdaCommonDecodePdwm tm 32 d =
      (.error, { d with data := Irda.clearByte d.data d.databitCnt }) := by
  rw [Irda.irdaCommonDecodePdwm, hts, pdwmLoop_pair, hbit, ← hts]

theorem pdwmLoop_of_some {bit : Bool} {n : ℕ} (h : m.Holds d) (hlt : d.databitCnt < 32)
    (hts : d.timings = mark :: space :: rest) (hbit : pairBit tm mark space = some bit) :
    ∃ m', m'.Holds { d with
        timings := rest, databitCnt := d.databitCnt + 1
        data := storeBit d.data d.databitCnt bit } ∧
      DecoderMemory.pdwmLoop tm 32 (n + 2) m = DecoderMemory.pdwmLoop tm 32 n m' := by
  obtain ⟨m₁, hclear, hm₁⟩ := h.clearByte hlt
  obtain ⟨hmark, hspace, -⟩ := hm₁.pair hts
  obtain ⟨m₂, hadd, hm₂⟩ := hm₁.addBit hlt bit
  obtain ⟨-, -, m₃, hdrop, hm₃⟩ := hm₂.pair hts
  refine ⟨m₃, hm₃, ?_⟩
  rw [pairBit] at hbit
  by_cases hone : matchBitTiming mark tm.bit1Mark tm.bitTolerance ∧
      matchBitTiming space tm.bit1Space tm.bitTolerance
  · rw [if_pos hone] at hbit
    obtain rfl := Option.some.inj hbit
    simp only [DecoderMemory.pdwmLoop, hclear, hmark, hspace, Option.bind_eq_bind,
      Option.bind_some, if_pos hone, hadd, hdrop]
  · rw [if_neg hone] at hbit
    split at hbit
    · rename_i hzero
      obtain rfl := Option.some.inj hbit
      simp only [DecoderMemory.pdwmLoop, hclear, hmark, hspace, Option.bind_eq_bind,
        Option.bind_some, if_neg hone, if_pos hzero, hadd, hdrop]
    · cases hbit

theorem pdwmLoop_of_none {n : ℕ} (h : m.Holds d) (hlt : d.databitCnt < 32)
    (hts : d.timings = mark :: space :: rest) (hbit : pairBit tm mark space = none) :
    ∃ m', m'.Holds { d with data := Irda.clearByte d.data d.databitCnt } ∧
      DecoderMemory.pdwmLoop tm 32 (n + 2) m = some (.error, m') := by
  obtain ⟨m₁, hclear, hm₁⟩ := h.clearByte hlt
  obtain ⟨hmark, hspace, -⟩ := hm₁.pair hts
  refine ⟨m₁, hm₁, ?_⟩
  rw [pairBit] at hbit
  split at hbit
  · cases hbit
  · rename_i hone
    split at hbit
    · cases hbit
    · rename_i hzero
      simp only [DecoderMemory.pdwmLoop, hclear, hmark, hspace, Option.bind_eq_bind,
        Option.bind_some, if_neg hone, if_neg hzero]

end

theorem simulates_pdwmLoop (tm : IrdaCommonDecoderTimings) :
    ∀ (ts : List ℕ) {m : DecoderMemory} {d : IrdaCommonDecoder}, m.Holds d → d.timings = ts →
      2 * d.databitCnt + ts.length ≤ 65 →
      Simulates (DecoderMemory.pdwmLoop tm 32 ts.length m) (Irda.irdaCommonDecodePdwm tm 32 d)
  | [], m, d, h, hts, _ => by
    rw [irdaCommonDecodePdwm_nil hts]
    exact ⟨m, rfl, h⟩
  | [mark], m, d, h, hts, _ => by
    have hread : m.timings[0]? = some mark := by
      rw [h.read (by rw [hts]; exact Nat.one_pos), hts]
      rfl
    simp only [irdaCommonDecodePdwm_single hts, List.length_singleton, DecoderMemory.pdwmLoop,
      hread, Option.bind_eq_bind, Option.bind_some]
    by_cases hfull : d.databitCnt = 32
    · simp only [if_pos hfull, if_pos (h.databitCnt.trans hfull)]
      by_cases hstop : matchBitTiming mark tm.bit1Mark tm.bitTolerance
      · simp only [if_pos hstop]
        exact ⟨_, rfl, h.emptied⟩
      · simp only [if_neg hstop]
        exact ⟨m, rfl, h⟩
    · simp only [if_neg hfull, if_neg (h.databitCnt ▸ hfull)]
      exact ⟨m, rfl, h⟩
  | mark :: space :: rest, m, d, h, hts, hle => by
    rw [List.length_cons, List.length_cons] at hle
    have hlt : d.databitCnt < 32 := by omega
    cases hbit : pairBit tm mark space with
    | none =>
      obtain ⟨m', hm', hloop⟩ := pdwmLoop_of_none (n := rest.length) h hlt hts hbit
      rw [irdaCommonDecodePdwm_of_none hts hbit]
      exact ⟨m', hloop, hm'⟩
    | some bit =>
      obtain ⟨m', hm', hloop⟩ := pdwmLoop_of_some (n := rest.length) h hlt hts hbit
      have hle' : 2 * (d.databitCnt + 1) + rest.length ≤ 65 := by omega
      obtain ⟨m'', hrest, hm''⟩ := simulates_pdwmLoop tm rest hm' rfl hle'
      rw [irdaCommonDecodePdwm_of_some hts hbit]
      exact ⟨m'', hloop.trans hrest, hm''⟩

/-! ## The protocols -/

/-- The functions of the protocol follow those on the decoder without its memory. -/
structure Refines (q : MemorySpec) (p : IrdaCommonProtocolSpec) : Prop where
  timings : q.timings = p.timings
  decode : ∀ {m d}, m.Holds d → 2 * d.databitCnt + d.timings.length ≤ 65 →
    Simulates (q.decode q.timings q.databitLen m) (p.decode p.timings p.databitLen d)
  interpret : ∀ {m d}, m.Holds d → Simulates (q.interpret m) (p.interpret d)
  decodeRepeat : ∃ f g, q.decodeRepeat = some f ∧ p.decodeRepeat = some g ∧
    ∀ {m d}, m.Holds d → Simulates (f q.timings m) (g p.timings d)

theorem simulates_irdaCommonDecodePdwm (h : m.Holds d)
    (hle : 2 * d.databitCnt + d.timings.length ≤ 65) :
    Simulates (DecoderMemory.irdaCommonDecodePdwm tm 32 m) (Irda.irdaCommonDecodePdwm tm 32 d) := by
  rw [DecoderMemory.irdaCommonDecodePdwm, h.timingsCnt]
  exact simulates_pdwmLoop tm _ h rfl hle

theorem simulates_interpretNec (h : m.Holds d) :
    Simulates (DecoderMemory.interpretNec m) (Irda.interpretNec d) := by
  simp only [DecoderMemory.interpretNec, Irda.interpretNec, h.data 0 (by decide),
    h.data 1 (by decide), h.data 2 (by decide), h.data 3 (by decide), Option.bind_eq_bind,
    Option.bind_some, h.message]
  split
  · exact ⟨_, rfl, h.withMessage _⟩
  · exact ⟨m, rfl, h⟩

theorem simulates_interpretSamsung32 (h : m.Holds d) :
    Simulates (DecoderMemory.interpretSamsung32 m) (Irda.interpretSamsung32 d) := by
  simp only [DecoderMemory.interpretSamsung32, Irda.interpretSamsung32, h.data 0 (by decide),
    h.data 1 (by decide), h.data 2 (by decide), h.data 3 (by decide), Option.bind_eq_bind,
    Option.bind_some, h.message]
  split
  · exact ⟨_, rfl, h.withMessage _⟩
  · exact ⟨m, rfl, h⟩

theorem simulates_repeat (h : m.Holds d) (P : Prop) [Decidable P] :
    Simulates (if P then some (DecodeStatus.ready, { m with timingsCnt := 0 })
        else some (DecodeStatus.error, m))
      (if P then (DecodeStatus.ready, { d with timings := [] }) else (DecodeStatus.error, d)) := by
  by_cases hrepeat : P
  · rw [if_pos hrepeat, if_pos hrepeat]
    exact ⟨_, rfl, h.emptied⟩
  · rw [if_neg hrepeat, if_neg hrepeat]
    exact ⟨m, rfl, h⟩

theorem simulates_decodeRepeatNec (h : m.Holds d) :
    Simulates (DecoderMemory.decodeRepeatNec tm m) (Irda.decodeRepeatNec tm d) := by
  have hcnt := h.timingsCnt
  have hread : ∀ i < d.timings.length, m.timings[i]? = d.timings[i]? := fun i hi => h.read hi
  simp only [DecoderMemory.decodeRepeatNec, Irda.decodeRepeatNec]
  by_cases hshort : d.timings.length < 4
  · rw [if_pos (by omega)]
    rcases hts : d.timings with _ | ⟨pause, _ | ⟨mark, _ | ⟨space, _ | ⟨stop, rest⟩⟩⟩⟩
    · exact ⟨m, rfl, h⟩
    · exact ⟨m, rfl, h⟩
    · exact ⟨m, rfl, h⟩
    · exact ⟨m, rfl, h⟩
    · exact absurd hshort (by simp [hts])
  · rw [if_neg (by omega), hread 0 (by omega), hread 1 (by omega), hread 2 (by omega),
      hread 3 (by omega)]
    rcases hts : d.timings with _ | ⟨pause, _ | ⟨mark, _ | ⟨space, _ | ⟨stop, rest⟩⟩⟩⟩
    · exact absurd (by simp [hts]) hshort
    · exact absurd (by simp [hts]) hshort
    · exact absurd (by simp [hts]) hshort
    · exact absurd (by simp [hts]) hshort
    · simp only [List.getElem?_cons_zero, List.getElem?_cons_succ, Option.bind_eq_bind,
        Option.bind_some]
      exact simulates_repeat h _

theorem simulates_decodeRepeatSamsung32 (h : m.Holds d) :
    Simulates (DecoderMemory.decodeRepeatSamsung32 tm m) (Irda.decodeRepeatSamsung32 tm d) := by
  have hcnt := h.timingsCnt
  have hread : ∀ i < d.timings.length, m.timings[i]? = d.timings[i]? := fun i hi => h.read hi
  simp only [DecoderMemory.decodeRepeatSamsung32, Irda.decodeRepeatSamsung32]
  by_cases hshort : d.timings.length < 6
  · rw [if_pos (by omega)]
    rcases hts : d.timings with _ | ⟨pause, _ | ⟨mark, _ | ⟨space, _ | ⟨bitMark, _ |
      ⟨bitSpace, _ | ⟨stop, rest⟩⟩⟩⟩⟩⟩
    · exact ⟨m, rfl, h⟩
    · exact ⟨m, rfl, h⟩
    · exact ⟨m, rfl, h⟩
    · exact ⟨m, rfl, h⟩
    · exact ⟨m, rfl, h⟩
    · exact ⟨m, rfl, h⟩
    · exact absurd hshort (by simp [hts])
  · rw [if_neg (by omega), hread 0 (by omega), hread 1 (by omega), hread 2 (by omega),
      hread 3 (by omega), hread 4 (by omega), hread 5 (by omega)]
    rcases hts : d.timings with _ | ⟨pause, _ | ⟨mark, _ | ⟨space, _ | ⟨bitMark, _ |
      ⟨bitSpace, _ | ⟨stop, rest⟩⟩⟩⟩⟩⟩
    · exact absurd (by simp [hts]) hshort
    · exact absurd (by simp [hts]) hshort
    · exact absurd (by simp [hts]) hshort
    · exact absurd (by simp [hts]) hshort
    · exact absurd (by simp [hts]) hshort
    · exact absurd (by simp [hts]) hshort
    · simp only [List.getElem?_cons_zero, List.getElem?_cons_succ, Option.bind_eq_bind,
        Option.bind_some]
      exact simulates_repeat h _

theorem refines_memorySpec : ∀ i : IrdaProtocol, Refines i.memorySpec i.spec
  | .samsung32 =>
    ⟨rfl, simulates_irdaCommonDecodePdwm, simulates_interpretSamsung32, _, _, rfl, rfl,
      simulates_decodeRepeatSamsung32⟩
  | .nec =>
    ⟨rfl, simulates_irdaCommonDecodePdwm, simulates_interpretNec, _, _, rfl, rfl,
      simulates_decodeRepeatNec⟩

/-! ## The steps -/

variable {q : MemorySpec} {p : IrdaCommonProtocolSpec} {n : ℕ} {status : List ℕ → DecodeStatus}

theorem simulates_stepWaitPreamble (hq : Refines q p) (h : m.Holds d) :
    Simulates (DecoderMemory.stepWaitPreamble q m) (none, Irda.stepWaitPreamble p d) := by
  have hcheck := simulates_irdaCheckPreamble q.timings h
  rw [hq.timings] at hcheck
  rw [DecoderMemory.stepWaitPreamble, hq.timings]
  apply hcheck.bind
  intro m hm
  rw [Irda.stepWaitPreamble]
  rcases hfound : Irda.irdaCheckPreamble p.timings d with ⟨found, d'⟩
  rw [hfound] at hm
  cases found with
  | false => exact ⟨m, rfl, hm⟩
  | true => exact ⟨_, rfl, { hm with state := rfl, databitCnt := rfl }⟩

theorem simulates_stepReady (hq : Refines q p) (h : m.Holds d) :
    Simulates (DecoderMemory.stepReady q m) (Irda.stepReady p d) := by
  rw [DecoderMemory.stepReady]
  apply (hq.interpret h).bind
  intro m hm
  rw [Irda.stepReady]
  rcases htaken : p.interpret d with ⟨taken, d'⟩
  rw [htaken] at hm
  cases taken with
  | false => exact ⟨_, rfl, hm.withState _⟩
  | true =>
    refine ⟨_, ?_, hm.withState _⟩
    simp only [if_true, hm.message]

theorem simulates_stepDecode (hq : Refines q p) (h : m.Holds d)
    (hle : 2 * d.databitCnt + d.timings.length ≤ 65) :
    Simulates (DecoderMemory.stepDecode q m) (Irda.stepDecode p d) := by
  rw [DecoderMemory.stepDecode]
  apply (hq.decode h hle).bind
  intro m hm
  rw [Irda.stepDecode]
  rcases hstatus : p.decode p.timings p.databitLen d with ⟨status, d'⟩
  rw [hstatus] at hm
  cases status with
  | error => exact simulates_stepWaitPreamble hq (hm.withState .waitPreamble)
  | ok => exact ⟨m, rfl, hm⟩
  | ready => exact simulates_stepReady hq hm

theorem simulates_stepProcessRepeat (hq : Refines q p) (h : m.Holds d) :
    Simulates (DecoderMemory.stepProcessRepeat q m) (Irda.stepProcessRepeat p d) := by
  obtain ⟨f, g, hf, hg, hrepeat⟩ := hq.decodeRepeat
  rw [DecoderMemory.stepProcessRepeat, hf]
  apply (hrepeat h).bind
  intro m hm
  simp only [Irda.stepProcessRepeat, hg]
  rcases hstatus : g p.timings d with ⟨status, d'⟩
  rw [hstatus] at hm
  cases status with
  | error => exact simulates_stepWaitPreamble hq (hm.withState .waitPreamble)
  | ok => exact ⟨m, rfl, hm⟩
  | ready =>
    simp only [hm.message]
    exact ⟨_, rfl, hm.withMessage _⟩

theorem Valid.length_lt (h : Valid n d) (hn : n ≤ 6) : d.timings.length < 6 := by
  have hwaits := h.waits
  have hroom := h.room
  have hrepeats := h.repeats
  cases hs : d.state with
  | waitPreamble =>
    have := hwaits hs
    omega
  | decode =>
    have := hroom hs
    rw [Room] at this
    omega
  | processRepeat =>
    have := hrepeats hs
    omega

theorem simulates_irdaCommonDecode (hq : Refines q p) (hn : n ≤ 6) (h : m.Holds d)
    (hvalid : Valid n d) (level : Bool) (duration : ℕ) :
    Simulates (DecoderMemory.irdaCommonDecode q m level duration)
      (Irda.irdaCommonDecode p d level duration) := by
  have hlength := length_put d level duration
  obtain ⟨m', hput, hm'⟩ := h.put (hvalid.length_lt hn) level duration
  rw [DecoderMemory.irdaCommonDecode, hput, irdaCommonDecode_eq]
  simp only [Option.bind_eq_bind, Option.bind_some, hm'.state, stepBuffered]
  cases hs : (d.put level duration).state with
  | waitPreamble => exact simulates_stepWaitPreamble hq hm'
  | decode =>
    have hle := hvalid.room hs
    rw [Room] at hle
    have hcnt : (d.put level duration).databitCnt = d.databitCnt := rfl
    exact simulates_stepDecode hq hm' (by omega)
  | processRepeat => exact simulates_stepProcessRepeat hq hm'

theorem simulates_feed (hq : Refines q p) (hr : Reads p n status) (h : m.Holds d)
    (hvalid : Valid n d) (ts : List (Bool × ℕ)) :
    ∃ m', DecoderMemory.feed q m ts = some m' ∧ m'.Holds (Irda.feed p d ts) := by
  induction ts generalizing m d with
  | nil => exact ⟨m, rfl, h⟩
  | cons t ts ih =>
    obtain ⟨level, duration⟩ := t
    obtain ⟨m', hstep, hm'⟩ := simulates_irdaCommonDecode hq hr.le_six h hvalid level duration
    rw [DecoderMemory.feed, hstep]
    exact ih hm' (hvalid.next hr level duration)

/-! ## The data bits -/

theorem pdwmLoop_databitCnt_le (tm : IrdaCommonDecoderTimings) (len : ℕ) :
    ∀ (ts : List ℕ) (cnt : ℕ) (data : ℕ → BitVec 8),
      2 * (Irda.pdwmLoop tm len ts cnt data).2.2.1 ≤ 2 * cnt + ts.length
  | [], cnt, data => Nat.le_refl _
  | [mark], cnt, data => by
    rw [Irda.pdwmLoop]
    split
    · split
      · exact Nat.le_add_right _ _
      · exact Nat.le_add_right _ _
    · exact Nat.le_add_right _ _
  | mark :: space :: rest, cnt, data => by
    rw [pdwmLoop_pair]
    cases pairBit tm mark space with
    | none => exact Nat.le_add_right _ _
    | some bit =>
      have hle := pdwmLoop_databitCnt_le tm len rest (cnt + 1) (storeBit data cnt bit)
      simp only [List.length_cons]
      omega

theorem databitCnt_stepWaitPreamble_le (p : IrdaCommonProtocolSpec) (d : IrdaCommonDecoder) :
    (Irda.stepWaitPreamble p d).databitCnt ≤ d.databitCnt := by
  rw [Irda.stepWaitPreamble, Irda.irdaCheckPreamble]
  rcases Irda.checkPreambleLoop p.timings _ with ⟨found, rest⟩
  cases found with
  | false => exact Nat.le_refl _
  | true => exact Nat.zero_le _

theorem databitCnt_stepReady (hr : Reads p n status) (d : IrdaCommonDecoder) :
    (Irda.stepReady p d).2.databitCnt = d.databitCnt := by
  have hkept := congrArg IrdaCommonDecoder.databitCnt (hr.interpret d)
  rw [Irda.stepReady]
  rcases hi : p.interpret d with ⟨taken, d'⟩
  rw [hi] at hkept
  cases taken with
  | false => exact hkept
  | true => exact hkept

theorem databitCnt_irdaCommonDecode_le (hr : Reads p n status) (hvalid : Valid n d)
    (hle : d.databitCnt ≤ 32) (level : Bool) (duration : ℕ) :
    (Irda.irdaCommonDecode p d level duration).2.databitCnt ≤ 32 := by
  have hlength := length_put d level duration
  have hcnt : (d.put level duration).databitCnt = d.databitCnt := rfl
  rw [irdaCommonDecode_eq, stepBuffered]
  cases hs : (d.put level duration).state with
  | waitPreamble => exact (databitCnt_stepWaitPreamble_le p _).trans hle
  | decode =>
    have hroom := hvalid.room hs
    rw [Room] at hroom
    have hloop := pdwmLoop_databitCnt_le p.timings 32 (d.put level duration).timings
      (d.put level duration).databitCnt (d.put level duration).data
    rw [hr.stepDecode]
    rcases hresult : Irda.pdwmLoop p.timings 32 (d.put level duration).timings
      (d.put level duration).databitCnt (d.put level duration).data with ⟨st, ts, cnt, data⟩
    rw [hresult] at hloop
    have hcount : cnt ≤ 32 := by
      dsimp only at hloop
      omega
    cases st with
    | ok => exact hcount
    | ready => exact (databitCnt_stepReady hr _).trans_le hcount
    | error => exact (databitCnt_stepWaitPreamble_le p _).trans hcount
  | processRepeat =>
    rw [hr.stepProcessRepeat]
    cases status (d.put level duration).timings with
    | ok => exact hle
    | ready => exact hle
    | error => exact (databitCnt_stepWaitPreamble_le p _).trans hle

theorem databitCnt_feed_le (hr : Reads p n status) (hvalid : Valid n d) (hle : d.databitCnt ≤ 32)
    (ts : List (Bool × ℕ)) : (Irda.feed p d ts).databitCnt ≤ 32 := by
  induction ts generalizing d with
  | nil => exact hle
  | cons t ts ih =>
    obtain ⟨level, duration⟩ := t
    exact ih (hvalid.next hr level duration)
      (databitCnt_irdaCommonDecode_le hr hvalid hle level duration)

/-! ## Any timings -/

theorem holds_alloc (i : IrdaProtocol) :
    (DecoderMemory.irdaCommonDecoderAlloc i.memorySpec).Holds Irda.irdaCommonDecoderAlloc := by
  cases i <;> exact ⟨rfl, rfl, rfl, rfl, rfl, rfl, rfl, rfl, by decide⟩

theorem exists_reads : ∀ i : IrdaProtocol, ∃ n status, Reads i.spec n status
  | .samsung32 => ⟨_, _, reads_samsung32⟩
  | .nec => ⟨_, _, reads_nec⟩

theorem exists_feed (i : IrdaProtocol) (ts : List (Bool × ℕ)) : ∃ m,
    DecoderMemory.feed i.memorySpec (DecoderMemory.irdaCommonDecoderAlloc i.memorySpec) ts =
      some m ∧ m.Holds (Irda.feed i.spec Irda.irdaCommonDecoderAlloc ts) := by
  obtain ⟨n, status, hr⟩ := exists_reads i
  exact simulates_feed (refines_memorySpec i) hr (holds_alloc i) valid_alloc ts

/-- After any timings with any levels no access has been out of bounds, the array has room for the
next timing, and the bits are not more than the protocol has. -/
theorem decoder_in_bounds (i : IrdaProtocol) (ts : List (Bool × ℕ)) : ∃ m,
    DecoderMemory.feed i.memorySpec (DecoderMemory.irdaCommonDecoderAlloc i.memorySpec) ts =
      some m ∧ m.timings.length = 6 ∧ m.timingsCnt < 6 ∧
      m.databitCnt ≤ i.memorySpec.databitLen := by
  obtain ⟨n, status, hr⟩ := exists_reads i
  obtain ⟨m, hfeed, hm⟩ := exists_feed i ts
  have hvalid := valid_feed hr valid_alloc ts
  have hlen : i.memorySpec.databitLen = 32 := by cases i <;> rfl
  refine ⟨m, hfeed, hm.timingsLength, ?_, ?_⟩
  · rw [hm.timingsCnt]
    exact hvalid.length_lt hr.le_six
  · rw [hm.databitCnt, hlen]
    exact databitCnt_feed_le hr valid_alloc (Nat.zero_le _) ts

end FlipperZero.Irda
