import FlipperZero.LfRfid.EmMarinReads
import FlipperZero.LfRfid.T5577
import Mathlib.Algebra.Order.Group.Nat

/-! # Reading a written card

A written card sends the waveform of the emulator from the middle of a frame on. The
decoder that is started at any time and read after every edge gives the payload and
nothing else, again and again.
-/

namespace FlipperZero.LfRfid

open Lib

/-- The decoder, the time of the last edge in its clock, and what the reads gave. -/
structure Readout where
  decoder : DecoderEMMarine
  lastFront : ℕ
  reads : List (Vector (BitVec 8) 5)

namespace Readout

def start (offset : ℕ) : Readout := ⟨.resetState, offset, []⟩

/-- The next edge of a waveform with half-bits of one length, and a read. -/
def front (level : ℕ → Bool) (half : ℕ) (s : Readout) : Readout :=
  let p := nextEdge level (s.lastFront / half)
  let decoder := s.decoder.processFront (level p) (p * half - s.lastFront)
  ⟨decoder.read.2, p * half, s.reads ++ decoder.read.1.toList⟩

def later (time : ℕ) (s : Readout) : Readout := { s with lastFront := s.lastFront + time }

end Readout

/-- Every read gives the payload, and from every edge on there is one within four frames. -/
structure ReadsAs (level : ℕ → Bool) (half offset : ℕ) (d : Vector (BitVec 8) 5) : Prop where
  values : ∀ n, ∀ v ∈ ((Readout.front level half)^[n] (.start offset)).reads, v = d
  again : ∀ n, let s := (Readout.front level half)^[n] (.start offset)
    Leads (Readout.front level half) s fun t =>
      t.lastFront ≤ s.lastFront + 4 * (2 * 64) * half ∧ s.reads.length < t.reads.length

namespace Readout

section Fronts

open ProtocolEMMarin DecoderEMMarine

variable {d : Vector (BitVec 8) 5} {level : ℕ → Bool}

theorem eventOf_window (polarity : Bool) (time : ℕ) :
    eventOf polarity time = .reset ∨ eventOf polarity time = eventOf polarity halfBit ∨
      halfBit < time ∧ eventOf polarity time = eventOf polarity (2 * halfBit) := by
  by_cases hshort : shortTime - jitterTime < time ∧ time < shortTime + jitterTime
  · exact .inr (.inl ((if_pos hshort).trans (if_pos (by decide)).symm))
  · by_cases hlong : longTime - jitterTime < time ∧ time < longTime + jitterTime
    · refine .inr (.inr ⟨lt_trans (by decide) hlong.1, ?_⟩)
      exact ((if_neg hshort).trans (if_pos hlong)).trans
        ((if_neg (by decide)).trans (if_pos (by decide))).symm
    · exact .inl (by rw [eventOf, if_neg hshort, if_neg hlong])

theorem processFront_window {s : DecoderEMMarine} (h : s.ready = false) (polarity : Bool) (time : ℕ) :
    s.processFront polarity time = s ∨
      s.processFront polarity time = s.processFront polarity halfBit ∨
      halfBit < time ∧ s.processFront polarity time = s.processFront polarity (2 * halfBit) := by
  have hlate : ∀ t, ¬t < shortTime - jitterTime → s.processFront polarity t =
      if eventOf polarity t = .reset then s else s.advance (eventOf polarity t) := by
    intro t ht
    rw [processFront, h, if_neg Bool.false_ne_true, if_neg ht]
  by_cases hearly : time < shortTime - jitterTime
  · refine .inl ?_
    rw [processFront, h, if_neg Bool.false_ne_true, if_pos hearly]
  · rw [hlate time hearly, hlate halfBit (by decide), hlate (2 * halfBit) (by decide)]
    rcases eventOf_window polarity time with hevent | hevent | ⟨htime, hevent⟩
    · exact .inl (by rw [hevent, if_pos rfl])
    · exact .inr (.inl (by rw [hevent]))
    · exact .inr (.inr ⟨htime, by rw [hevent]⟩)

theorem nextEdge_le (level : ℕ → Bool) (p : ℕ) : p < nextEdge level p ∧ nextEdge level p ≤ p + 2 := by
  unfold nextEdge
  split <;> omega

theorem nextEdge_pred (d : Vector (BitVec 8) 5) (p : ℕ) :
    nextEdge (EncoderEM.init d).level (nextEdge (EncoderEM.init d).level p - 1) =
      nextEdge (EncoderEM.init d).level p := by
  rcases Nat.even_or_odd' p with ⟨n, rfl | rfl⟩
  · rw [(edge_start level_start level_mid n).1, Nat.add_sub_cancel]
    exact (edge_start level_start level_mid n).1
  · rcases Bool.eq_or_eq_not (sentBit d (n + 1)) (sentBit d n) with hsame | hchange
    · rw [(edge_same level_start level_mid hsame).1]
      exact (edge_same level_start level_mid hsame).1
    · rw [(edge_change level_start level_mid hchange).1, Nat.add_sub_cancel]
      exact (edge_start level_start level_mid (n + 1)).1

/-- The decoder after a read, in a phase of the waveform at an edge. -/
inductive Following (d : Vector (BitVec 8) 5) : Readout → Prop where
  | intro {state p e reads} (h : EmPhase (sentBit d) state p e) (hreads : ∀ v ∈ reads, v = d) :
      Following d ⟨⟨shiftAll 0 e, false, state⟩, p * halfBit, reads⟩

def readEdge (level : ℕ → Bool) (s : EmAir) (reads : List (Vector (BitVec 8) 5)) : Readout :=
  let t := s.edge level
  ⟨t.decoder.read.2, t.position * halfBit, reads ++ t.decoder.read.1.toList⟩

theorem front_eq (decoder : DecoderEMMarine) (p : ℕ) (reads : List (Vector (BitVec 8) 5)) :
    front level halfBit ⟨decoder, p * halfBit, reads⟩ = readEdge level ⟨decoder, p⟩ reads := by
  have hp : p * halfBit / halfBit = p := Nat.mul_div_cancel p (by decide)
  rw [front, readEdge, EmAir.edge]
  simp only [hp, Nat.sub_mul]

theorem following_readEdge {state : ManchesterState} {p : ℕ} {e : List Bool}
    {reads : List (Vector (BitVec 8) 5)} (h : EmPhase (sentBit d) state p e)
    (hreads : ∀ v ∈ reads, v = d) :
    Following d (readEdge (EncoderEM.init d).level ⟨⟨shiftAll 0 e, false, state⟩, p⟩ reads) := by
  obtain ⟨ready, state', e', hedge, hphase, hready⟩ := EmInv.edge_phase (.inl rfl) h
  rw [readEdge, hedge]
  cases ready with
  | false => exact .intro hphase (by simpa [DecoderEMMarine.read] using hreads)
  | true =>
    refine .intro hphase fun v hv => ?_
    rcases List.mem_append.mp hv with hv | hv
    · exact hreads v hv
    · obtain rfl := List.mem_singleton.mp hv
      rw [(hready rfl).1]
      exact decode_encode d

theorem Following.values {s : Readout} (h : Following d s) : ∀ v ∈ s.reads, v = d := by
  cases h with
  | intro h hreads => exact hreads

theorem Following.front {s : Readout} (h : Following d s) :
    Following d (s.front (EncoderEM.init d).level halfBit) := by
  cases h with
  | intro h hreads =>
    rw [front_eq]
    exact following_readEdge h hreads

theorem front_start {offset p : ℕ}
    (hp : nextEdge level p = nextEdge level (offset / halfBit))
    (htime : resetState.processFront (level (nextEdge level p))
        (nextEdge level p * halfBit - offset) =
      resetState.processFront (level (nextEdge level p)) ((nextEdge level p - p) * halfBit)) :
    (start offset).front level halfBit = readEdge level ⟨resetState, p⟩ [] := by
  rw [front, readEdge, EmAir.edge]
  simp only [start, ← hp, htime]

theorem following_start (d : Vector (BitVec 8) 5) (offset : ℕ) :
    Following d ((start offset).front (EncoderEM.init d).level halfBit) := by
  have hpred := nextEdge_pred d (offset / halfBit)
  obtain ⟨hlt, hle⟩ := nextEdge_le (EncoderEM.init d).level (offset / halfBit)
  have hoffset := Nat.div_mul_le_self offset halfBit
  have hreset : ∀ p, Following d (readEdge (EncoderEM.init d).level ⟨resetState, p⟩ []) :=
    fun p => following_readEdge (e := []) (.reset p) nofun
  rcases processFront_window (s := resetState) rfl
      ((EncoderEM.init d).level (nextEdge (EncoderEM.init d).level (offset / halfBit)))
      (nextEdge (EncoderEM.init d).level (offset / halfBit) * halfBit - offset) with
    hnone | hshort | ⟨htime, hlong⟩
  · rw [front]
    simp only [start, hnone]
    exact .intro (e := []) (.reset _) nofun
  · rw [front_start hpred]
    · exact hreset _
    · rw [hpred, hshort, Nat.sub_sub_self (Nat.one_le_of_lt hlt), Nat.one_mul]
  · rw [front_start rfl]
    · exact hreset _
    · have htwo : nextEdge (EncoderEM.init d).level (offset / halfBit) = offset / halfBit + 2 := by
        refine le_antisymm hle (Nat.succ_le_of_lt (lt_of_le_of_ne hlt fun hone => ?_))
        rw [← hone, Nat.succ_mul] at htime
        omega
      rw [hlong, htwo, Nat.add_sub_cancel_left]

end Fronts

section Runs

variable {d : Vector (BitVec 8) 5} {level : ℕ → Bool}

theorem following_iterate (d : Vector (BitVec 8) 5) (offset n : ℕ) :
    Following d ((front (EncoderEM.init d).level halfBit)^[n + 1] (start offset)) := by
  induction n with
  | zero => exact following_start d offset
  | succ n ih =>
    rw [Function.iterate_succ_apply']
    exact ih.front

theorem position_iterate (s : EmAir) (n : ℕ) :
    s.position ≤ ((EmAir.edge level)^[n] s).position := by
  induction n generalizing s with
  | zero => exact le_rfl
  | succ n ih => exact (nextEdge_le level s.position).1.le.trans (ih (s.edge level))

theorem length_reads (level : ℕ → Bool) (half : ℕ) (s : Readout) :
    s.reads.length ≤ (s.front level half).reads.length := by
  rw [front, List.length_append]
  exact Nat.le_add_right _ _

theorem front_within (level : ℕ → Bool) (s : Readout) :
    (s.front level halfBit).lastFront ≤ s.lastFront + 2 * halfBit := by
  have hoffset := Nat.div_mul_le_self s.lastFront halfBit
  have hnext := Nat.mul_le_mul_right halfBit (nextEdge_le level (s.lastFront / halfBit)).2
  rw [Nat.add_mul] at hnext
  exact hnext.trans (Nat.add_le_add_right hoffset _)

theorem leads_read {decoder : DecoderEMMarine} {p bound : ℕ} (hdecoder : decoder.ready = false)
    (reads : List (Vector (BitVec 8) 5))
    (h : Leads (EmAir.edge level) ⟨decoder, p⟩ fun t => t.position ≤ bound ∧ t.decoder.ready = true) :
    Leads (front level halfBit) ⟨decoder, p * halfBit, reads⟩ fun t =>
      t.lastFront ≤ bound * halfBit ∧ reads.length < t.reads.length := by
  obtain ⟨n, hbound, hready⟩ := h
  induction n generalizing decoder p with
  | zero => exact absurd hready (by simp [hdecoder])
  | succ n ih =>
    refine .step ?_
    rw [front_eq]
    cases hnext : (EmAir.edge level ⟨decoder, p⟩).decoder.ready with
    | false =>
      have hread : readEdge level ⟨decoder, p⟩ reads = ⟨(EmAir.edge level ⟨decoder, p⟩).decoder,
          (EmAir.edge level ⟨decoder, p⟩).position * halfBit, reads⟩ := by
        simp [readEdge, DecoderEMMarine.read, hnext]
      rw [hread]
      exact ih hnext hbound hready
    | true =>
      refine .now ⟨Nat.mul_le_mul_right halfBit ?_, ?_⟩
      · exact (position_iterate (EmAir.edge level ⟨decoder, p⟩) n).trans hbound
      · simp [readEdge, DecoderEMMarine.read, hnext]

theorem Following.again {s : Readout} (h : Following d s) :
    Leads (Readout.front (EncoderEM.init d).level halfBit) s fun t =>
      t.lastFront ≤ s.lastFront + 3 * (2 * 64) * halfBit ∧ s.reads.length < t.reads.length := by
  cases h with
  | intro h hreads =>
    refine (leads_read rfl _ (leads_ready d _)).mono ?_
    rintro t ⟨hfront, hlength⟩
    rw [Nat.add_mul] at hfront
    exact ⟨hfront, hlength⟩

theorem readsAs_encoder (d : Vector (BitVec 8) 5) (offset : ℕ) :
    ReadsAs (EncoderEM.init d).level halfBit offset d where
  values n := by
    cases n with
    | zero => exact nofun
    | succ n => exact (following_iterate d offset n).values
  again n := by
    cases n with
    | zero =>
      rw [Function.iterate_zero_apply]
      have hfirst := front_within (EncoderEM.init d).level (start offset)
      have hlength := length_reads (EncoderEM.init d).level halfBit (start offset)
      refine .step ((following_start d offset).again.mono ?_)
      rintro t ⟨hfront, hread⟩
      exact ⟨by omega, lt_of_le_of_lt hlength hread⟩
    | succ n =>
      refine (following_iterate d offset n).again.mono ?_
      rintro t ⟨hfront, hlength⟩
      exact ⟨by omega, hlength⟩

end Runs

section Later

variable {level : ℕ → Bool} {half k : ℕ}

theorem nextEdge_shift (level : ℕ → Bool) (k p : ℕ) :
    nextEdge level (p + k) = nextEdge (fun h => level (h + k)) p + k := by
  have hidx : p + k + 1 = p + 1 + k := by omega
  unfold nextEdge
  rw [hidx]
  split <;> omega

theorem semiconj_later (level : ℕ → Bool) (hhalf : 0 < half) (k : ℕ) :
    Function.Semiconj (later (k * half)) (front (fun h => level (h + k)) half) (front level half) := by
  intro s
  have hdiv : (s.lastFront + k * half) / half = s.lastFront / half + k :=
    Nat.add_mul_div_right _ _ hhalf
  simp only [front, later, hdiv, nextEdge_shift, Nat.add_mul, Nat.add_sub_add_right]

theorem readsAs_later {offset : ℕ} {d : Vector (BitVec 8) 5} (hhalf : 0 < half)
    (h : ReadsAs level half (offset + k * half) d) :
    ReadsAs (fun h => level (h + k)) half offset d := by
  have hsemi := semiconj_later level hhalf k
  have hstart : later (k * half) (start offset) = start (offset + k * half) := rfl
  have hrun : ∀ n s, (front level half)^[n] (later (k * half) s) =
      later (k * half) ((front (fun h => level (h + k)) half)^[n] s) :=
    fun n s => ((hsemi.iterate_right n) s).symm
  constructor
  · intro n v hv
    refine h.values n v ?_
    rw [← hstart, hrun]
    exact hv
  · intro n
    obtain ⟨m, hfront, hlength⟩ := h.again n
    rw [← hstart, hrun] at hfront hlength
    rw [hrun] at hfront hlength
    refine ⟨m, ?_, hlength⟩
    simp only [later] at hfront
    omega

end Later

end Readout

section Written

open ProtocolEMMarin T5577

theorem getD_wordBits (w : BitVec 32) {i : ℕ} (hi : i < 32) :
    (wordBits w).getD i false = w.getMsbD i := by
  simp [wordBits, hi]

theorem length_wordBits (w : BitVec 32) : (wordBits w).length = 32 := by simp [wordBits]

theorem getMsbD_low {w : BitVec 64} {i : ℕ} (hi : i < 32) :
    (w.setWidth 32).getMsbD i = w.getMsbD (32 + i) := by
  have hidx : 64 - 1 - (32 + i) = 31 - i := by omega
  rw [BitVec.getMsbD_eq_getLsbD, BitVec.getMsbD_eq_getLsbD, BitVec.getLsbD_setWidth, hidx]
  simp [hi, (by omega : 32 + i < 64), (by omega : 31 - i < 32)]

theorem getMsbD_high {w : BitVec 64} {i : ℕ} (hi : i < 32) :
    ((w >>> 32).setWidth 32).getMsbD i = w.getMsbD i := by
  have hidx : 32 + (32 - 1 - i) = 64 - 1 - i := by omega
  rw [BitVec.getMsbD_eq_getLsbD, BitVec.getMsbD_eq_getLsbD, BitVec.getLsbD_setWidth,
    BitVec.getLsbD_ushiftRight, hidx]
  simp [hi, (by omega : i < 64), (by omega : 31 - i < 32)]

theorem getD_halves (d : Vector (BitVec 8) 5) (n : ℕ) :
    (wordBits ((encode d).setWidth 32) ++ wordBits ((encode d >>> 32).setWidth 32)).getD (n % 64) false =
      sentBit d (n + 32) := by
  rcases Nat.lt_or_ge (n % 64) 32 with hlt | hge
  · have hidx : (n + 32) % 64 = 32 + n % 64 := by omega
    rw [List.getD_append _ _ _ _ (by rw [length_wordBits]; exact hlt), getD_wordBits _ hlt,
      getMsbD_low hlt, sentBit, hidx]
  · have hlt : n % 64 - 32 < 32 := by omega
    have hidx : (n + 32) % 64 = n % 64 - 32 := by omega
    rw [List.getD_append_right _ _ _ _ (by rw [length_wordBits]; exact hge), length_wordBits,
      getD_wordBits _ hlt, getMsbD_high hlt, sentBit, hidx]

theorem level_halves (d : Vector (BitVec 8) 5) (rate : ℕ) :
    Emission.level ⟨rate, wordBits ((encode d).setWidth 32) ++ wordBits ((encode d >>> 32).setWidth 32)⟩ =
      fun h => (EncoderEM.init d).level (h + 64) := by
  funext h
  have hlength : (wordBits ((encode d).setWidth 32) ++
      wordBits ((encode d >>> 32).setWidth 32)).length = 64 := by
    rw [List.length_append, length_wordBits, length_wordBits]
  rw [Emission.level]
  simp only [hlength, getD_halves]
  rcases Nat.even_or_odd' h with ⟨n, rfl | rfl⟩
  · have hidx : 2 * n + 64 = 2 * (n + 32) := by omega
    rw [hidx, level_start, if_pos (by omega), (by omega : 2 * n / 2 = n)]
  · have hidx : 2 * n + 1 + 64 = 2 * (n + 32) + 1 := by omega
    rw [hidx, level_mid, if_neg (by omega), (by omega : (2 * n + 1) / 2 = n)]

theorem halfBit_rate (bits : List Bool) : Emission.halfBit ⟨64, bits⟩ = halfBit := by
  simp [Emission.halfBit, halfBit]

/-- A payload that is written to a card is what the decoder reads from it. -/
theorem reads_written {t : T5577} (h : t.Unlocked) (d : Vector (BitVec 8) 5) : ∃ events emission,
    RfidWriter.writeEm d = some events ∧ (t.receive events).emission = some emission ∧
      ∀ offset, ReadsAs emission.level emission.halfBit offset d := by
  obtain ⟨events, hevents, hemission⟩ := emission_writeEm h d
  refine ⟨events, _, hevents, hemission, fun offset => ?_⟩
  rw [level_halves, halfBit_rate]
  exact Readout.readsAs_later (by decide) (Readout.readsAs_encoder d _)

def blankTag : T5577 := ⟨fun _ _ => 0, fun _ _ => false⟩

theorem reads_written_blank : ∃ events emission,
    RfidWriter.writeEm #v[0x53, 0x00, 0x5F, 0xB3, 0xC2] = some events ∧
      (blankTag.receive events).emission = some emission ∧
      ∀ offset, ReadsAs emission.level emission.halfBit offset #v[0x53, 0x00, 0x5F, 0xB3, 0xC2] :=
  reads_written (t := blankTag) (fun _ _ => rfl) _

end Written

end FlipperZero.LfRfid
