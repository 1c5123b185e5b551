import FlipperZero.LfRfid.EmMarinPhase
import FlipperZero.Lib.Leads

/-! # What the EM-Marin decoder reads

The decoder becomes ready with the frame that is sent, in time and from every offset. A
read leaves its register as it is, so a payload whose frame passes the checks again two or
four bits later can be read as another, and only such a payload.
-/

namespace FlipperZero.LfRfid

open Lib Finset

section Frames

variable {f g : ℕ → Bool} {state : ManchesterState} {p a c s len : ℕ} {e : List Bool}

theorem not_frame_zerosOnes (hlen : 64 ≤ a + c)
    (hget : ∀ n < 64, g n = (zerosOnes a c).getD (a + c - 64 + n) false) : ¬EmFrame g := by
  intro hg
  have hfirst := hget 0 (by decide)
  have hlast := hget 63 (by decide)
  rw [getD_zerosOnes (by omega), hg.header 0 (by decide), eq_comm, decide_eq_true_eq] at hfirst
  rw [getD_zerosOnes (by omega), hg.stop, eq_comm, decide_eq_false_iff_not] at hlast
  exact hlast (by omega)

theorem getD_junk_append {i : ℕ} (hi : i < len) :
    (zerosOnes a c ++ bitsFrom f s len).getD (a + c + i) false = f (s + i) := by
  rw [List.getD_append_right _ _ _ _ (by rw [length_zerosOnes]; omega), length_zerosOnes,
    Nat.add_sub_cancel_left, getD_bitsFrom f hi]

theorem frame_of_junk (hf : EmFrame f) (hg : EmFrame g) (hj : Junk (fun n => f (n % 64)) a c s)
    (hlen : 64 ≤ a + c + len) (hget : ∀ n < 64, g n =
      (zerosOnes a c ++ bitsFrom (fun n => f (n % 64)) s len).getD (a + c + len - 64 + n) false) :
    ∀ n < 64, g n = f n := by
  rcases Nat.lt_or_ge len 64 with hlt | hge
  · have hbits : ∀ j, 64 - len + j < 64 → g (64 - len + j) = f ((s % 64 + 64 + j) % 64) := by
      intro j hj
      have hidx : a + c + len - 64 + (64 - len + j) = a + c + j := by omega
      rw [hget _ hj, hidx, getD_junk_append (by omega)]
      exact congrArg f (by omega)
    have hjunk : ∀ i < 64 - len, g i = decide (a ≤ a + c + len - 64 + i) := by
      intro i hi
      rw [hget i (by omega), List.getD_append _ _ _ _ (by rw [length_zerosOnes]; omega),
        getD_zerosOnes (by omega)]
    have hfirst := hjunk 0 (by omega)
    rw [hg.header 0 (by decide), eq_comm, decide_eq_true_eq] at hfirst
    have hones : ∀ i < 64 - len, g i = true := by
      intro i hi
      rw [hjunk i hi]
      exact decide_eq_true (by omega)
    obtain ⟨hs, hone⟩ := hj.one (by omega)
    have hstop : s % 64 ≠ 0 := by
      intro h
      have hidx : (s - 1) % 64 = 63 := by omega
      rw [hidx, hf.stop] at hone
      cases hone
    have hlen0 : len ≠ 0 := by
      rintro rfl
      have hlast := hones 63 (by decide)
      rw [hg.stop] at hlast
      cases hlast
    refine hf.after_ones hg (t := s % 64 + 64) (by omega) (by omega) (by omega) hones hbits ?_ ?_
    · rw [← hone]
      exact congrArg f (by omega)
    · intro i hi
      obtain ⟨hle, hzero⟩ := hj.zeros (by omega) i (by omega)
      rw [← hzero]
      exact congrArg f (by omega)
  · refine hf.rotated hg (r := (s + len) % 64) (Nat.mod_lt _ (by decide)) fun n hn => ?_
    have hidx : a + c + len - 64 + n = a + c + (len - 64 + n) := by omega
    rw [hget n hn, hidx, getD_junk_append (by omega)]
    exact congrArg f (by omega)

theorem EmPhase.frame (hf : EmFrame f) (hg : EmFrame g)
    (h : EmPhase (fun n => f (n % 64)) state p e) (hlen : 64 ≤ e.length)
    (hget : ∀ n < 64, g n = e.getD (e.length - 64 + n) false) : ∀ n < 64, g n = f n := by
  have hnone : ∀ {a c}, 64 ≤ (zerosOnes a c).length →
      (∀ n < 64, g n = (zerosOnes a c).getD ((zerosOnes a c).length - 64 + n) false) →
      ∀ n < 64, g n = f n := by
    intro a c hlen hget
    rw [length_zerosOnes] at hlen
    simp only [length_zerosOnes] at hget
    exact absurd hg (not_frame_zerosOnes hlen hget)
  have hsome : ∀ {a c s len}, Junk (fun n => f (n % 64)) a c s →
      64 ≤ (zerosOnes a c ++ bitsFrom (fun n => f (n % 64)) s len).length →
      (∀ n < 64, g n = (zerosOnes a c ++ bitsFrom (fun n => f (n % 64)) s len).getD
        ((zerosOnes a c ++ bitsFrom (fun n => f (n % 64)) s len).length - 64 + n) false) →
      ∀ n < 64, g n = f n := by
    intro a c s len hj hlen hget
    rw [List.length_append, length_zerosOnes, length_bitsFrom] at hlen
    simp only [List.length_append, length_zerosOnes, length_bitsFrom] at hget
    exact frame_of_junk hf hg hj hlen hget
  cases h with
  | reset | resumed => exact absurd hlen (by decide)
  | mid hn hj => exact hsome hj hlen hget
  | start hn hj hb => exact hsome hj hlen hget
  | wrongMid | onesMid | onesStart | zerosMid | zerosStart => exact hnone hlen hget

end Frames

namespace DecoderEMMarine

variable {s : DecoderEMMarine} {event : ManchesterEvent} {state : ManchesterState} {bit : Bool}

theorem advance_none (h : manchesterTable s.manchesterSavedState event = (state, none)) :
    s.advance event = { s with manchesterSavedState := state } := by
  rw [advance, manchesterAdvance_eq, h]

theorem advance_some (h : manchesterTable s.manchesterSavedState event = (state, some bit)) :
    s.advance event = ⟨shiftIn s.readedData bit,
      ProtocolEMMarin.canBeDecoded (shiftIn s.readedData bit), state⟩ := by
  rw [advance, manchesterAdvance_eq, h]

theorem processFront_ready (h : s.ready = true) (polarity : Bool) (time : ℕ) :
    s.processFront polarity time = s := by
  rw [processFront, if_pos h]

theorem processFront_short (h : s.ready = false) (polarity : Bool) :
    s.processFront polarity halfBit = s.advance (if polarity then .shortHigh else .shortLow) := by
  unfold processFront
  rw [h]
  cases polarity <;> rfl

theorem processFront_long (h : s.ready = false) (polarity : Bool) :
    s.processFront polarity (2 * halfBit) = s.advance (if polarity then .longHigh else .longLow) := by
  unfold processFront
  rw [h]
  cases polarity <;> rfl

end DecoderEMMarine

namespace EmAir

variable {level : ℕ → Bool} {s : EmAir}

theorem edge_ready (h : s.decoder.ready = true) :
    s.edge level = ⟨s.decoder, nextEdge level s.position⟩ := by
  rw [edge, DecoderEMMarine.processFront_ready h]

theorem edge_waiting (h : s.decoder.ready = false) :
    s.edge level = ⟨s.decoder.advance (edgeEvent level s.position), nextEdge level s.position⟩ := by
  unfold edge edgeEvent
  by_cases hshort : nextEdge level s.position = s.position + 1
  · simp only [hshort, Nat.add_sub_cancel_left, Nat.one_mul,
      DecoderEMMarine.processFront_short h, ite_true]
  · have hlong : nextEdge level s.position = s.position + 2 := by
      unfold nextEdge at hshort ⊢
      split at hshort
      · rw [if_pos ‹_›]
      · exact absurd rfl hshort
    rw [if_neg hshort]
    simp only [hlong, Nat.add_sub_cancel_left, DecoderEMMarine.processFront_long h]

variable {state : ManchesterState} {bit : Bool} {p : ℕ}

theorem edge_none (h : s.decoder.ready = false) (hp : nextEdge level s.position = p)
    (htable : manchesterTable s.decoder.manchesterSavedState (edgeEvent level s.position) =
      (state, none)) :
    s.edge level = ⟨{ s.decoder with manchesterSavedState := state }, p⟩ := by
  rw [edge_waiting h, DecoderEMMarine.advance_none htable, hp]

theorem edge_some (h : s.decoder.ready = false) (hp : nextEdge level s.position = p)
    (htable : manchesterTable s.decoder.manchesterSavedState (edgeEvent level s.position) =
      (state, some bit)) :
    s.edge level = ⟨⟨shiftIn s.decoder.readedData bit,
      ProtocolEMMarin.canBeDecoded (shiftIn s.decoder.readedData bit), state⟩, p⟩ := by
  rw [edge_waiting h, DecoderEMMarine.advance_some htable, hp]

end EmAir

/-- The decoder has the frame that is sent, or has shifted the bits of a phase into a register. -/
inductive EmInv (d : Vector (BitVec 8) 5) (base : BitVec 64) : EmAir → Prop where
  | ready (p) : EmInv d base ⟨⟨ProtocolEMMarin.encode d, true, .mid0⟩, p⟩
  | waiting {state p e} (h : EmPhase (sentBit d) state p e) :
      EmInv d base ⟨⟨shiftAll base e, false, state⟩, p⟩

namespace EmInv

open ProtocolEMMarin

variable {d : Vector (BitVec 8) 5} {base : BitVec 64} {s : EmAir}

/-- A payload whose frame does not pass the checks again. -/
def Exact (d : Vector (BitVec 8) 5) : Prop := ∀ k, k = 2 ∨ k = 4 → ¬Slips (encode d).getMsbD k

theorem frame_base {state : ManchesterState} {p : ℕ} {e : List Bool}
    (hbase : base = 0 ∨ base = encode d ∧ Exact d) (he : e ≠ [])
    (h : EmPhase (sentBit d) state p e) (hframe : EmFrame (shiftAll base e).getMsbD) :
    shiftAll base e = encode d := by
  have hf := emFrame_encode d
  have hpos : 1 ≤ e.length := List.length_pos_iff.mpr he
  refine BitVec.eq_of_getMsbD_eq fun n hn => ?_
  rcases Nat.lt_or_ge e.length 64 with hlt | hge
  · rcases hbase with rfl | ⟨rfl, hexact⟩
    · have hfirst := hframe.header 0 (by decide)
      rw [getMsbD_shiftAll (by decide), if_pos (by omega)] at hfirst
      simp at hfirst
    · have hoverlap : ∀ n, n + e.length < 64 →
          (shiftAll (encode d) e).getMsbD n = (encode d).getMsbD (n + e.length) := by
        intro n hn
        rw [getMsbD_shiftAll (by omega), if_pos hn]
      exact absurd (overlap_slips hf hframe hpos (by omega) hoverlap)
        (hexact _ (overlap_even hf hframe hpos (by omega) hoverlap))
  · exact h.frame hf hframe hge (fun n hn => getMsbD_shiftAll_of_le hn hge) n hn

theorem table_false {state state' : ManchesterState} {event : ManchesterEvent}
    (h : manchesterTable state event = (state', some false)) : state' = .mid0 := by
  cases state <;> cases event <;> cases h <;> rfl

theorem edge_phase {state : ManchesterState} {p : ℕ} {e : List Bool}
    (hbase : base = 0 ∨ base = encode d ∧ Exact d) (h : EmPhase (sentBit d) state p e) :
    ∃ ready state' e', EmAir.edge (EncoderEM.init d).level ⟨⟨shiftAll base e, false, state⟩, p⟩ =
        ⟨⟨shiftAll base e', ready, state'⟩, nextEdge (EncoderEM.init d).level p⟩ ∧
      EmPhase (sentBit d) state' (nextEdge (EncoderEM.init d).level p) e' ∧
      (ready = true → shiftAll base e' = encode d ∧ state' = .mid0) := by
  have hstep := h.step level_start level_mid
  rcases htable : manchesterTable state (edgeEvent (EncoderEM.init d).level p) with ⟨state', _ | bit⟩
  · rw [htable, Option.toList_none, List.append_nil] at hstep
    exact ⟨false, state', e, EmAir.edge_none rfl rfl htable, hstep, nofun⟩
  · rw [htable, Option.toList_some] at hstep
    have hshift : shiftIn (shiftAll base e) bit = shiftAll base (e ++ [bit]) := by
      rw [shiftAll_append]
      rfl
    have hedge := EmAir.edge_some (s := ⟨⟨shiftAll base e, false, state⟩, p⟩) rfl rfl htable
    simp only [hshift] at hedge
    refine ⟨_, state', e ++ [bit], hedge, hstep, fun hready => ?_⟩
    have hframe := canBeDecoded_iff.mp hready
    have hlast : bit = false := by
      have hstop := hframe.stop
      rw [← hshift, getMsbD_shiftIn (by decide), if_pos rfl] at hstop
      exact hstop
    rw [hlast] at htable
    exact ⟨frame_base hbase (by simp) hstep hframe, table_false htable⟩

theorem edge (hbase : base = 0 ∨ base = encode d ∧ Exact d) (h : EmInv d base s) :
    EmInv d base (s.edge (EncoderEM.init d).level) := by
  cases h with
  | ready p =>
    rw [EmAir.edge_ready rfl]
    exact .ready _
  | waiting h =>
    obtain ⟨ready, state, e, hedge, hphase, hready⟩ := edge_phase hbase h
    rw [hedge]
    cases ready with
    | false => exact .waiting hphase
    | true =>
      obtain ⟨hencode, rfl⟩ := hready rfl
      rw [hencode]
      exact .ready _

theorem poll (h : EmInv d base s) :
    EmInv d base { s with decoder := s.decoder.read.2 } ∨
      EmInv d (encode d) { s with decoder := s.decoder.read.2 } := by
  cases h with
  | ready p => exact .inr (.waiting (e := []) (.resumed p))
  | waiting h => exact .inl (.waiting h)

theorem read {v : Vector (BitVec 8) 5} (h : EmInv d base s) (hv : s.decoder.read.1 = some v) :
    v = d := by
  cases h with
  | ready p => exact (Option.some.inj hv).symm.trans (decode_encode d)
  | waiting h => cases hv

theorem init (d : Vector (BitVec 8) 5) (start : ℕ) : EmInv d 0 (emAir d start).init :=
  .waiting (e := []) (.reset start)

theorem reachable {start : ℕ} (hexact : Exact d) (h : (emAir d start).Reachable s) :
    EmInv d 0 s ∨ EmInv d (encode d) s := by
  refine h.invariant (P := fun s => EmInv d 0 s ∨ EmInv d (encode d) s) (.inl (init d start)) ?_
  rintro s l s' hs hnext
  cases l with
  | edge =>
    cases hnext
    exact hs.imp (edge (.inl rfl)) (edge (.inr ⟨rfl, hexact⟩))
  | poll =>
    cases hnext
    exact hs.elim poll fun hs => .inr (hs.poll.elim id id)

end EmInv

section Runs

open ProtocolEMMarin

theorem canBeDecoded_one (r : BitVec 64) : canBeDecoded (shiftIn r true) = false := by
  rw [Bool.eq_false_iff]
  intro h
  have hstop := (canBeDecoded_iff.mp h).stop
  rw [getMsbD_shiftIn (by decide), if_pos rfl] at hstop
  cases hstop

variable {b level : ℕ → Bool} {r : BitVec 64} {n : ℕ} {s : EmAir}

variable (hstart : ∀ n, level (2 * n) = b n) (hmid : ∀ n, level (2 * n + 1) = !b n)

include hstart hmid

theorem leads_mid (h : s.position ≤ 2 * n + 1) :
    Leads (EmAir.edge level) s fun t => t.position = 2 * n + 1 := by
  refine Leads.of_measure (I := fun t => t.position ≤ 2 * n + 1)
    (fun t => 2 * n + 1 - t.position) (fun t ht => ?_) h
  rcases Nat.lt_or_eq_of_le ht with hlt | heq
  · have hnext : t.position < nextEdge level t.position ∧
        nextEdge level t.position ≤ t.position + 2 := by
      unfold nextEdge
      split <;> omega
    have hodd : nextEdge level t.position ≤ 2 * n + 1 := by
      rcases Nat.lt_or_ge t.position (2 * n) with hlt' | hge
      · omega
      · obtain heq : t.position = 2 * n := by omega
        rw [heq, (edge_start hstart hmid n).1]
    simp only [EmAir.edge]
    exact .inr ⟨hodd, by omega⟩
  · exact .inl heq

theorem leads_bit : Leads (EmAir.edge level) ⟨⟨r, false, midState (b n)⟩, 2 * n + 1⟩ fun t =>
    t = ⟨⟨shiftIn r (b (n + 1)), canBeDecoded (shiftIn r (b (n + 1))), midState (b (n + 1))⟩,
      2 * (n + 1) + 1⟩ := by
  rcases Bool.eq_or_eq_not (b (n + 1)) (b n) with hsame | hchange
  · obtain ⟨hnext, hevent⟩ := edge_same hstart hmid hsame
    obtain ⟨hnext', hevent'⟩ := edge_start hstart hmid (n + 1)
    refine .step (.step (.now ?_))
    have hfirst : EmAir.edge level ⟨⟨r, false, midState (b n)⟩, 2 * n + 1⟩ =
        ⟨⟨r, false, startState (b n)⟩, 2 * (n + 1)⟩ := by
      refine EmAir.edge_none rfl hnext ?_
      simp only [hevent]
      cases b n <;> rfl
    rw [hfirst]
    refine EmAir.edge_some rfl hnext' ?_
    simp only [hevent', hsame]
    cases b n <;> rfl
  · obtain ⟨hnext, hevent⟩ := edge_change hstart hmid hchange
    refine .step (.now (EmAir.edge_some rfl hnext ?_))
    simp only [hevent, hchange]
    cases b n <;> rfl

theorem leads_frame {m : ℕ}
    (h : canBeDecoded (shiftAll r (bitsFrom b (n + 1) (m + 1))) = true) :
    Leads (EmAir.edge level) ⟨⟨r, false, midState (b n)⟩, 2 * n + 1⟩ fun t =>
      t.position ≤ 2 * (n + m + 1) + 1 ∧ t.decoder.ready = true := by
  induction m generalizing n r with
  | zero =>
    refine (leads_bit hstart hmid).mono ?_
    rintro _ rfl
    exact ⟨le_rfl, h⟩
  | succ m ih =>
    refine (leads_bit hstart hmid).trans ?_
    rintro _ rfl
    cases hready : canBeDecoded (shiftIn r (b (n + 1))) with
    | true => exact .now ⟨by simp only; omega, rfl⟩
    | false =>
      rw [bitsFrom_cons] at h
      refine (ih h).mono ?_
      rintro t ⟨hpos, hready⟩
      exact ⟨by omega, hready⟩

theorem edge_zero_one (h : s.decoder.ready = false) (hp : s.position = 2 * n + 1)
    (hzero : b n = false) (hone : b (n + 1) = true) :
    ∃ r ready, s.edge level = ⟨⟨r, ready, midState (b (n + 1))⟩, 2 * (n + 1) + 1⟩ := by
  have hchange : b (n + 1) = !b n := by rw [hzero, hone]; rfl
  obtain ⟨hnext, hevent⟩ := edge_change hstart hmid hchange
  obtain ⟨⟨r, _, state⟩, _⟩ := s
  obtain rfl : _ = false := h
  obtain rfl : _ = 2 * n + 1 := hp
  rw [hone]
  rw [hzero] at hevent
  cases state with
  | start1 | mid1 | start0 => exact ⟨_, _, EmAir.edge_none rfl hnext (by simp only [hevent]; rfl)⟩
  | mid0 => exact ⟨_, _, EmAir.edge_some rfl hnext (by simp only [hevent]; rfl)⟩

theorem leads_ones {m : ℕ} (hones : ∀ i ≤ m, b (n + i) = true) :
    Leads (EmAir.edge level) ⟨⟨r, false, .mid1⟩, 2 * n + 1⟩ fun t =>
      t = ⟨⟨shiftAll r (List.replicate m true), false, .mid1⟩, 2 * (n + m) + 1⟩ := by
  induction m with
  | zero => exact .now rfl
  | succ m ih =>
    refine (ih fun i hi => hones i (by omega)).trans ?_
    rintro _ rfl
    have hbit := leads_bit hstart hmid (r := shiftAll r (List.replicate m true)) (n := n + m)
    rw [hones m (by omega), (by omega : n + m + 1 = n + (m + 1)), hones (m + 1) le_rfl] at hbit
    refine hbit.mono ?_
    rintro _ rfl
    rw [canBeDecoded_one, List.replicate_succ', shiftAll_append]
    rfl

end Runs

section Readable

open ProtocolEMMarin

variable {d : Vector (BitVec 8) 5} {k : ℕ}

theorem frame_period (d : Vector (BitVec 8) 5) (r : BitVec 64) (N : ℕ) :
    canBeDecoded (shiftAll r (bitsFrom (sentBit d) (64 * N + 1) (126 + 1))) = true := by
  have hencode : shiftAll r (bitsFrom (sentBit d) (64 * N + 1) (126 + 1)) = encode d := by
    refine BitVec.eq_of_getMsbD_eq fun n hn => ?_
    rw [getMsbD_shiftAll_of_le hn (by rw [length_bitsFrom]; decide), length_bitsFrom,
      getD_bitsFrom _ (by omega), sentBit]
    exact congrArg _ (by omega)
  rw [hencode]
  exact canBeDecoded_iff.mpr (emFrame_encode d)

theorem leads_ready (d : Vector (BitVec 8) 5) (s : EmAir) :
    Leads (EmAir.edge (EncoderEM.init d).level) s fun t =>
      t.position ≤ s.position + 3 * (2 * 64) ∧ t.decoder.ready = true := by
  have hzero : sentBit d (64 * (s.position / 128) + 63) = false := by
    rw [sentBit, (by omega : (64 * (s.position / 128) + 63) % 64 = 63)]
    exact encode_stop d
  have hone : sentBit d (64 * (s.position / 128) + 63 + 1) = true := by
    rw [sentBit, (by omega : (64 * (s.position / 128) + 63 + 1) % 64 = 0)]
    exact encode_header d (by decide)
  have hpos : s.position ≤ 2 * (64 * (s.position / 128) + 63) + 1 := by omega
  refine (leads_mid level_start level_mid hpos).trans fun t ht => ?_
  cases hready : t.decoder.ready with
  | true => exact .now ⟨by omega, hready⟩
  | false =>
    obtain ⟨r, ready, hedge⟩ := edge_zero_one level_start level_mid hready ht hzero hone
    refine .step ?_
    rw [hedge]
    cases ready with
    | true => exact .now ⟨by simp only; omega, rfl⟩
    | false =>
      refine (leads_frame level_start level_mid (m := 126) ?_).mono ?_
      · exact frame_period d r (s.position / 128 + 1)
      · rintro t ⟨hpos, hready⟩
        exact ⟨by omega, hready⟩

theorem emReadable_of_exact (h : EmInv.Exact d) : EmReadable d where
  reads _ _ _ hs hv := (EmInv.reachable h hs).elim (·.read hv) (·.read hv)
  becomesReady start := leads_ready d (emAir d start).init

theorem frame_spliced (hs : Slips (encode d).getMsbD k) (hk : k = 2 ∨ k = 4) :
    EmFrame (shiftAll (encode d) (List.replicate (k - 1) true ++ [false])).getMsbD := by
  have hlen : (List.replicate (k - 1) true ++ [false]).length = k := by
    rw [List.length_append, List.length_replicate, List.length_singleton]
    omega
  refine hs.emFrame (emFrame_encode d) hk (fun n hn => ?_) (fun n hn hn' => ?_) ?_
  · rw [getMsbD_shiftAll (by omega), hlen, if_pos hn]
  · rw [getMsbD_shiftAll (by omega), hlen, if_neg (by omega),
      List.getD_append _ _ _ _ (by rw [List.length_replicate]; omega), List.getD_replicate _ (by omega)]
  · rw [getMsbD_shiftAll (by decide), hlen, if_neg (by omega),
      List.getD_append_right _ _ _ _ (by rw [List.length_replicate]; omega), List.length_replicate,
      (by omega : 63 + k - 64 - (k - 1) = 0)]
    rfl

theorem exists_ones (hs : Slips (encode d).getMsbD k) : ∃ z, 9 + k ≤ z ∧ z ≤ 63 ∧
    (encode d).getMsbD z = false ∧ ∀ i, 8 ≤ i → i < z → (encode d).getMsbD i = true := by
  have hexists : ∃ z, 9 ≤ z ∧ (encode d).getMsbD z = false := ⟨63, by decide, encode_stop d⟩
  obtain ⟨hge, hzero⟩ := Nat.find_spec hexists
  have hmin : ∀ i, 8 ≤ i → i < Nat.find hexists → (encode d).getMsbD i = true := by
    intro i hi hlt
    rcases Nat.lt_or_ge i 9 with hlt' | hge
    · exact encode_header d hlt'
    · exact Bool.eq_true_of_not_eq_false fun h => Nat.find_min hexists hlt ⟨hge, h⟩
  refine ⟨_, ?_, Nat.find_le ⟨by decide, encode_stop d⟩, hzero, hmin⟩
  by_contra hlt
  have hone := hs.ones (Nat.find hexists - 9) (by omega)
  rw [(by omega : 9 + (Nat.find hexists - 9) = Nat.find hexists), hzero] at hone
  cases hone

theorem leads_dropped (d : Vector (BitVec 8) 5) (j : ℕ) :
    Leads (EmAir.edge (EncoderEM.init d).level) (emAir d 0).init fun t =>
      ∃ N, t = ⟨⟨encode d, true, .mid0⟩, 2 * (64 * N + j) + 1⟩ := by
  have hready := (leads_ready d (emAir d 0).init).invariant (I := EmInv d 0)
    (fun t ht => ht.edge (.inl rfl)) (EmInv.init d 0)
  refine hready.trans ?_
  rintro t ⟨ht, -, hready⟩
  cases ht with
  | waiting h => cases hready
  | ready p =>
    have hpos : p ≤ 2 * (64 * p + j) + 1 := by omega
    have hdropped := (leads_mid (level_start (d := d)) level_mid
      (s := ⟨⟨encode d, true, .mid0⟩, p⟩) hpos).invariant
      (I := fun t => t.decoder = ⟨encode d, true, .mid0⟩)
      (fun t ht => by rw [EmAir.edge_ready (by rw [ht])]; exact ht) rfl
    refine hdropped.mono ?_
    rintro ⟨decoder, position⟩ ⟨hdecoder, hposition⟩
    exact ⟨p, by rw [← hdecoder, ← hposition]⟩

section Ones

variable {b level : ℕ → Bool} (hstart : ∀ n, level (2 * n) = b n)
  (hmid : ∀ n, level (2 * n + 1) = !b n)

include hstart hmid

theorem leads_resumed {r : BitVec 64} {n : ℕ} (hone : b n = true) (hone' : b (n + 1) = true) :
    Leads (EmAir.edge level) ⟨⟨r, false, .mid0⟩, 2 * n + 1⟩ fun t =>
      t = ⟨⟨r, false, .mid1⟩, 2 * (n + 1) + 1⟩ := by
  obtain ⟨hnext, hevent⟩ := edge_same hstart hmid (hone'.trans hone.symm)
  obtain ⟨hnext', hevent'⟩ := edge_start hstart hmid (n + 1)
  have hfirst : EmAir.edge level ⟨⟨r, false, .mid0⟩, 2 * n + 1⟩ =
      ⟨⟨r, false, .mid1⟩, 2 * (n + 1)⟩ :=
    EmAir.edge_none rfl hnext (by simp only [hevent, hone]; rfl)
  refine .step (.step (.now ?_))
  rw [hfirst]
  exact EmAir.edge_none rfl hnext' (by simp only [hevent', hone']; rfl)

theorem leads_splice {r : BitVec 64} {n k : ℕ} (hk : 1 ≤ k) (hones : ∀ i ≤ k, b (n + i) = true)
    (hzero : b (n + k + 1) = false) :
    Leads (EmAir.edge level) ⟨⟨r, false, .mid0⟩, 2 * n + 1⟩ fun t => t.decoder =
      ⟨shiftAll r (List.replicate (k - 1) true ++ [false]),
        canBeDecoded (shiftAll r (List.replicate (k - 1) true ++ [false])), .mid0⟩ := by
  refine (leads_resumed hstart hmid (hones 0 (Nat.zero_le k)) (hones 1 hk)).trans ?_
  rintro _ rfl
  refine (leads_ones hstart hmid (m := k - 1) fun i hi => ?_).trans ?_
  · rw [(by omega : n + 1 + i = n + (i + 1))]
    exact hones _ (by omega)
  · rintro _ rfl
    have hbit := leads_bit hstart hmid (r := shiftAll r (List.replicate (k - 1) true))
      (n := n + 1 + (k - 1))
    have hlast : b (n + 1 + (k - 1)) = true := by
      rw [(by omega : n + 1 + (k - 1) = n + k)]
      exact hones k le_rfl
    rw [hlast, (by omega : n + 1 + (k - 1) + 1 = n + k + 1), hzero] at hbit
    refine hbit.mono ?_
    rintro _ rfl
    rw [shiftAll_append]
    rfl

end Ones

theorem not_emReadable_of_slips (hk : k = 2 ∨ k = 4) (hs : Slips (encode d).getMsbD k) :
    ¬EmReadable d := by
  intro h
  obtain ⟨z, hz, hz63, hzero, hones⟩ := exists_ones hs
  have hstep : ∀ t, ∃ l, (emAir d 0).next t l = some (t.edge (EncoderEM.init d).level) :=
    fun _ => ⟨.edge, rfl⟩
  obtain ⟨_, hreach, N, rfl⟩ := (leads_dropped d (z - k - 1)).reachable .init hstep
  have hpolled : (emAir d 0).Reachable
      ⟨⟨encode d, false, .mid0⟩, 2 * (64 * N + (z - k - 1)) + 1⟩ := hreach.step (l := .poll) rfl
  have hsplice := leads_splice (level_start (d := d)) level_mid (r := encode d)
    (n := 64 * N + (z - k - 1)) (k := k) (by omega) (fun i hi => ?_) ?_
  · obtain ⟨t, hreach', ht⟩ := hsplice.reachable hpolled hstep
    have hframe := frame_spliced hs hk
    have hread : t.decoder.read.1 = some (decode (shiftAll (encode d)
        (List.replicate (k - 1) true ++ [false]))) := by
      rw [ht, canBeDecoded_iff.mpr hframe]
      rfl
    have hvalue := h.reads 0 t _ hreach' hread
    have hencode := encode_decode hframe
    rw [hvalue] at hencode
    refine (emFrame_encode d).not_periodic hk fun n hn => ?_
    have hlen : (List.replicate (k - 1) true ++ [false]).length = k := by
      rw [List.length_append, List.length_replicate, List.length_singleton]
      omega
    conv_lhs => rw [hencode]
    rw [getMsbD_shiftAll (by omega), hlen, if_pos hn]
  · rw [sentBit, (by omega : (64 * N + (z - k - 1) + i) % 64 = z - k - 1 + i)]
    exact hones _ (by omega) (by omega)
  · rw [sentBit, (by omega : (64 * N + (z - k - 1) + k + 1) % 64 = z)]
    exact hzero

end Readable

open ProtocolEMMarin in
/-- The first `k` bits of the nibbles: all ones in the first nibble, evenly many ones in every
nibble, and evenly many nibbles with an odd number of ones. -/
structure SlipsBy (d : Vector (BitVec 8) 5) (k : ℕ) : Prop where
  ones : ∀ c < k, nibbleBit d 0 c = true
  rows : ∀ r < 10, (∑ c ∈ range k, (nibbleBit d r c).toNat) % 2 = 0
  parities : (∑ r ∈ range 10, (oddNibble d r).toNat) % 2 = 0

section Exact

open ProtocolEMMarin

variable {d : Vector (BitVec 8) 5} {k : ℕ}

theorem rowStart_encode (hk : k ≤ 4) {r : ℕ} (hr : r < 10) :
    rowStart (encode d).getMsbD k r = ∑ c ∈ range k, (nibbleBit d r c).toNat :=
  sum_congr rfl fun _ hc => congrArg Bool.toNat
    (encode_nibble d hr (lt_of_lt_of_le (mem_range.mp hc) hk))

theorem slips_iff (hk : k ≤ 4) : Slips (encode d).getMsbD k ↔ SlipsBy d k := by
  have hones : (∀ j < k, (encode d).getMsbD (9 + j) = true) ↔ ∀ c < k, nibbleBit d 0 c = true :=
    forall₂_congr fun c hc => by
      rw [← encode_nibble d (by decide) (lt_of_lt_of_le hc hk)]
  have hrows : (∀ r < 10, rowStart (encode d).getMsbD k r % 2 = 0) ↔
      ∀ r < 10, (∑ c ∈ range k, (nibbleBit d r c).toNat) % 2 = 0 :=
    forall₂_congr fun r hr => by rw [rowStart_encode hk hr]
  have hparities : ∑ r ∈ range 10, ((encode d).getMsbD (9 + 5 * r + 4)).toNat =
      ∑ r ∈ range 10, (oddNibble d r).toNat :=
    sum_congr rfl fun r hr => congrArg Bool.toNat (encode_parity d (mem_range.mp hr))
  constructor
  · rintro ⟨h1, h2, h3⟩
    exact ⟨hones.mp h1, hrows.mp h2, by rw [← hparities, h3]⟩
  · rintro ⟨h1, h2, h3⟩
    exact ⟨hones.mpr h1, hrows.mpr h2, by rw [hparities, h3]⟩

/-- Exactly the payloads whose frame does not pass the checks again are read right. -/
theorem emReadable_iff (d : Vector (BitVec 8) 5) :
    EmReadable d ↔ ∀ k, k = 2 ∨ k = 4 → ¬SlipsBy d k := by
  constructor
  · intro h k hk hs
    exact not_emReadable_of_slips hk ((slips_iff (by omega)).mpr hs) h
  · intro h
    exact emReadable_of_exact fun k hk hs => h k hk ((slips_iff (by omega)).mp hs)

theorem not_emReadable_ones : ¬EmReadable (Vector.replicate 5 0xFF) := by
  have hs : SlipsBy (Vector.replicate 5 0xFF) 4 := ⟨by decide, by decide, by decide⟩
  exact not_emReadable_of_slips (.inr rfl) ((slips_iff (by decide)).mpr hs)

end Exact

end FlipperZero.LfRfid
