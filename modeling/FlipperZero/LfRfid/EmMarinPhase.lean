import FlipperZero.LfRfid.EmMarinAir

/-! # The phases of the Manchester decoder

From an arbitrary point of the waveform the decoder may give zeros, then ones, that were
not sent, before it gives the bits in order. No full register of such bits is a frame
other than the one that is sent.
-/

namespace FlipperZero.LfRfid

open Lib

/-- The transitions, with those into the same state as resets. -/
def manchesterTable : ManchesterState → ManchesterEvent → ManchesterState × Option Bool
  | .start1, .shortLow => (.mid1, some true)
  | .mid1, .shortHigh => (.start1, none)
  | .mid1, .longHigh => (.mid0, some false)
  | .mid0, .shortLow => (.start0, none)
  | .mid0, .longLow => (.mid1, some true)
  | .start0, .shortHigh => (.mid0, some false)
  | _, _ => (.mid1, none)

theorem manchesterAdvance_eq (state : ManchesterState) (event : ManchesterEvent) :
    manchesterAdvance state event = manchesterTable state event := by
  cases state <;> cases event <;> rfl

def edgeEvent (level : ℕ → Bool) (p : ℕ) : ManchesterEvent :=
  if nextEdge level p = p + 1 then
    if level (nextEdge level p) then .shortHigh else .shortLow
  else
    if level (nextEdge level p) then .longHigh else .longLow

def midState (bit : Bool) : ManchesterState := if bit then .mid1 else .mid0

def startState (bit : Bool) : ManchesterState := if bit then .start1 else .start0

section Edges

variable {b level : ℕ → Bool} (hstart : ∀ n, level (2 * n) = b n)
  (hmid : ∀ n, level (2 * n + 1) = !b n)

include hstart hmid

theorem edge_start (n : ℕ) : nextEdge level (2 * n) = 2 * n + 1 ∧
    edgeEvent level (2 * n) = if b n then .shortLow else .shortHigh := by
  have hnext : nextEdge level (2 * n) = 2 * n + 1 := by
    rw [nextEdge, hstart, hmid, if_neg (Bool.not_ne_self (b n))]
  refine ⟨hnext, ?_⟩
  rw [edgeEvent, hnext, if_pos rfl, hmid]
  cases b n <;> rfl

theorem edge_same {n : ℕ} (h : b (n + 1) = b n) : nextEdge level (2 * n + 1) = 2 * (n + 1) ∧
    edgeEvent level (2 * n + 1) = if b n then .shortHigh else .shortLow := by
  have hlevel : level (2 * n + 1 + 1) = b n := by
    rw [← h]
    exact hstart (n + 1)
  have hnext : nextEdge level (2 * n + 1) = 2 * (n + 1) := by
    rw [nextEdge, hlevel, hmid, if_neg (by cases b n <;> decide)]
    ring
  refine ⟨hnext, ?_⟩
  rw [edgeEvent, hnext, if_pos (by ring), hstart, h]

theorem edge_change {n : ℕ} (h : b (n + 1) = !b n) : nextEdge level (2 * n + 1) = 2 * (n + 1) + 1 ∧
    edgeEvent level (2 * n + 1) = if b n then .longHigh else .longLow := by
  have hlevel : level (2 * n + 1 + 1) = !b n := by
    rw [← h]
    exact hstart (n + 1)
  have hnext : nextEdge level (2 * n + 1) = 2 * (n + 1) + 1 := by
    rw [nextEdge, hlevel, hmid, if_pos rfl]
    ring
  refine ⟨hnext, ?_⟩
  rw [edgeEvent, hnext, if_neg (by omega), hmid, h, Bool.not_not]

end Edges

def zerosOnes (a c : ℕ) : List Bool := List.replicate a false ++ List.replicate c true

theorem length_zerosOnes (a c : ℕ) : (zerosOnes a c).length = a + c := by simp [zerosOnes]

theorem getD_zerosOnes {a c i : ℕ} (hi : i < a + c) :
    (zerosOnes a c).getD i false = decide (a ≤ i) := by
  unfold zerosOnes
  rcases Nat.lt_or_ge i a with hlt | hge
  · rw [List.getD_append _ _ _ _ (by simpa using hlt), List.getD_replicate _ hlt]
    simp [hlt]
  · rw [List.getD_append_right _ _ _ _ (by simpa using hge), List.length_replicate,
      List.getD_replicate _ (by omega)]
    simp [hge]

theorem zerosOnes_append_true (a c : ℕ) : zerosOnes a c ++ [true] = zerosOnes a (c + 1) := by
  rw [zerosOnes, zerosOnes, List.append_assoc, List.replicate_succ']

theorem zeros_append_false (a : ℕ) : zerosOnes a 0 ++ [false] = zerosOnes (a + 1) 0 := by
  rw [zerosOnes, zerosOnes, List.replicate_zero, List.append_nil, List.append_nil,
    List.replicate_succ']

/-- What can come before bit `s` of the stream: ones only out of a run of zeros that bit `s - 1`
ends. -/
structure Junk (b : ℕ → Bool) (a c s : ℕ) : Prop where
  one : 0 < c → 1 ≤ s ∧ b (s - 1) = true
  zeros : 0 < c → ∀ i ≤ c, i + 2 ≤ s ∧ b (s - 2 - i) = false

theorem Junk.none (b : ℕ → Bool) (a s : ℕ) : Junk b a 0 s :=
  ⟨fun h => absurd h (Nat.lt_irrefl 0), fun h => absurd h (Nat.lt_irrefl 0)⟩

/-- The state of the decoder at a point of the waveform, with the bits it has given. -/
inductive EmPhase (b : ℕ → Bool) : ManchesterState → ℕ → List Bool → Prop where
  | reset (p) : EmPhase b .mid1 p []
  | resumed (p) : EmPhase b .mid0 p []
  | mid {n a c s len} (hn : s + len = n + 1) (hj : Junk b a c s) :
      EmPhase b (midState (b n)) (2 * n + 1) (zerosOnes a c ++ bitsFrom b s len)
  | start {n a c s len} (hn : s + len = n + 1) (hj : Junk b a c s) (hb : b (n + 1) = b n) :
      EmPhase b (startState (b n)) (2 * (n + 1)) (zerosOnes a c ++ bitsFrom b s len)
  | wrongMid {n a} (hb : b n = false) : EmPhase b .mid1 (2 * n + 1) (zerosOnes a 0)
  | onesMid {n a} (hb : b n = true) : EmPhase b .start0 (2 * n + 1) (zerosOnes a 0)
  | onesStart {n a} (hb : b n = true) : EmPhase b .mid0 (2 * n) (zerosOnes a 0)
  | zerosMid {n a c} (hb : ∀ i ≤ c, i ≤ n ∧ b (n - i) = false) :
      EmPhase b .start1 (2 * n + 1) (zerosOnes a c)
  | zerosStart {n a c} (hb : ∀ i ≤ c, i ≤ n ∧ b (n - i) = false) :
      EmPhase b .mid1 (2 * n) (zerosOnes a c)

namespace EmPhase

variable {b level : ℕ → Bool} {state : ManchesterState} {p : ℕ} {e : List Bool}

theorem mid_succ {n a c s len : ℕ} {bit : Bool} (hn : s + len = n + 1) (hj : Junk b a c s)
    (hbit : b (n + 1) = bit) : EmPhase b (midState bit) (2 * (n + 1) + 1)
      (zerosOnes a c ++ bitsFrom b s len ++ [bit]) := by
  have hnext : EmPhase b (midState (b (n + 1))) (2 * (n + 1) + 1)
      (zerosOnes a c ++ bitsFrom b s (len + 1)) := .mid (by omega) hj
  rw [bitsFrom_succ, hn, ← List.append_assoc, hbit] at hnext
  exact hnext

theorem mid_one {n a c : ℕ} (hb : b n = true) (hj : Junk b a c (n + 1)) :
    EmPhase b .mid1 (2 * n + 1) (zerosOnes a c) := by
  have hmid : EmPhase b (midState (b n)) (2 * n + 1) (zerosOnes a c ++ bitsFrom b (n + 1) 0) :=
    .mid rfl hj
  rw [hb, bitsFrom, List.range_zero, List.map_nil, List.append_nil] at hmid
  exact hmid

section Step

variable (hstart : ∀ n, level (2 * n) = b n) (hmid : ∀ n, level (2 * n + 1) = !b n)

include hstart hmid

theorem step_mid {n a c s len : ℕ} (hn : s + len = n + 1) (hj : Junk b a c s) :
    EmPhase b (manchesterTable (midState (b n)) (edgeEvent level (2 * n + 1))).1
      (nextEdge level (2 * n + 1)) (zerosOnes a c ++ bitsFrom b s len ++
        (manchesterTable (midState (b n)) (edgeEvent level (2 * n + 1))).2.toList) := by
  rcases Bool.eq_or_eq_not (b (n + 1)) (b n) with hsame | hchange
  · obtain ⟨hnext, hevent⟩ := edge_same hstart hmid hsame
    rw [hnext, hevent]
    have hphase : EmPhase b (startState (b n)) (2 * (n + 1)) (zerosOnes a c ++ bitsFrom b s len) :=
      .start hn hj hsame
    cases hb : b n <;> rw [hb] at hphase <;> simpa [midState, startState, manchesterTable] using hphase
  · obtain ⟨hnext, hevent⟩ := edge_change hstart hmid hchange
    rw [hnext, hevent]
    have hphase := mid_succ hn hj hchange
    cases hb : b n <;> rw [hb] at hphase <;> simpa [midState, manchesterTable] using hphase

theorem step_start {n a c s len : ℕ} (hn : s + len = n + 1) (hj : Junk b a c s)
    (hb : b (n + 1) = b n) :
    EmPhase b (manchesterTable (startState (b n)) (edgeEvent level (2 * (n + 1)))).1
      (nextEdge level (2 * (n + 1))) (zerosOnes a c ++ bitsFrom b s len ++
        (manchesterTable (startState (b n)) (edgeEvent level (2 * (n + 1)))).2.toList) := by
  obtain ⟨hnext, hevent⟩ := edge_start hstart hmid (n + 1)
  rw [hnext, hevent, hb]
  have hphase := mid_succ hn hj hb
  cases hb : b n <;> rw [hb] at hphase <;> simpa [midState, startState, manchesterTable] using hphase

theorem step_wrongMid {n a : ℕ} (hb : b n = false) :
    EmPhase b (manchesterTable .mid1 (edgeEvent level (2 * n + 1))).1
      (nextEdge level (2 * n + 1))
      (zerosOnes a 0 ++ (manchesterTable .mid1 (edgeEvent level (2 * n + 1))).2.toList) := by
  rcases Bool.eq_or_eq_not (b (n + 1)) (b n) with hsame | hchange
  · obtain ⟨hnext, hevent⟩ := edge_same hstart hmid hsame
    rw [hnext, hevent, hb]
    have hphase : EmPhase b .mid1 (2 * (n + 1)) (zerosOnes a 0) := by
      refine .zerosStart fun i hi => ?_
      obtain rfl := Nat.le_zero.mp hi
      exact ⟨Nat.zero_le _, hsame.trans hb⟩
    simpa [manchesterTable] using hphase
  · obtain ⟨hnext, hevent⟩ := edge_change hstart hmid hchange
    rw [hnext, hevent, hb]
    rw [hb] at hchange
    simpa [manchesterTable] using mid_one hchange (Junk.none b a _)

theorem step_zerosMid {n a c : ℕ} (hb : ∀ i ≤ c, i ≤ n ∧ b (n - i) = false) :
    EmPhase b (manchesterTable .start1 (edgeEvent level (2 * n + 1))).1
      (nextEdge level (2 * n + 1))
      (zerosOnes a c ++ (manchesterTable .start1 (edgeEvent level (2 * n + 1))).2.toList) := by
  have hn : b n = false := (hb 0 (Nat.zero_le c)).2
  rcases Bool.eq_or_eq_not (b (n + 1)) (b n) with hsame | hchange
  · obtain ⟨hnext, hevent⟩ := edge_same hstart hmid hsame
    rw [hnext, hevent, hn]
    have hphase : EmPhase b .mid1 (2 * (n + 1)) (zerosOnes a (c + 1)) := by
      refine .zerosStart fun i hi => ?_
      rcases i with _ | i
      · exact ⟨Nat.zero_le _, hsame.trans hn⟩
      · obtain ⟨hle, hzero⟩ := hb i (by omega)
        exact ⟨by omega, by rwa [Nat.add_sub_add_right]⟩
    simpa [manchesterTable, ← zerosOnes_append_true] using hphase
  · obtain ⟨hnext, hevent⟩ := edge_change hstart hmid hchange
    rw [hnext, hevent, hn]
    rw [hn] at hchange
    have hj : Junk b a c (n + 1 + 1) := by
      refine ⟨fun _ => ⟨by omega, hchange⟩, fun _ i hi => ?_⟩
      obtain ⟨hle, hzero⟩ := hb i hi
      exact ⟨by omega, by rwa [(by omega : n + 1 + 1 - 2 - i = n - i)]⟩
    simpa [manchesterTable] using mid_one hchange hj

theorem step_onesMid {n a : ℕ} (hb : b n = true) :
    EmPhase b (manchesterTable .start0 (edgeEvent level (2 * n + 1))).1
      (nextEdge level (2 * n + 1))
      (zerosOnes a 0 ++ (manchesterTable .start0 (edgeEvent level (2 * n + 1))).2.toList) := by
  rcases Bool.eq_or_eq_not (b (n + 1)) (b n) with hsame | hchange
  · obtain ⟨hnext, hevent⟩ := edge_same hstart hmid hsame
    rw [hnext, hevent, hb]
    have hphase : EmPhase b .mid0 (2 * (n + 1)) (zerosOnes (a + 1) 0) :=
      .onesStart (hsame.trans hb)
    simpa [manchesterTable, ← zeros_append_false] using hphase
  · obtain ⟨hnext, hevent⟩ := edge_change hstart hmid hchange
    rw [hnext, hevent, hb]
    rw [hb] at hchange
    have hphase : EmPhase b .mid1 (2 * (n + 1) + 1) (zerosOnes a 0) := .wrongMid hchange
    simpa [manchesterTable] using hphase

theorem step_reset (p : ℕ) :
    EmPhase b (manchesterTable .mid1 (edgeEvent level p)).1 (nextEdge level p)
      (manchesterTable .mid1 (edgeEvent level p)).2.toList := by
  rcases Nat.even_or_odd' p with ⟨n, rfl | rfl⟩
  · obtain ⟨hnext, hevent⟩ := edge_start hstart hmid n
    rw [hnext, hevent]
    cases hb : b n
    · have hphase : EmPhase b .start1 (2 * n + 1) (zerosOnes 0 0) := by
        refine .zerosMid fun i hi => ?_
        obtain rfl := Nat.le_zero.mp hi
        exact ⟨Nat.zero_le _, hb⟩
      exact hphase
    · exact .reset _
  · cases hb : b n
    · exact step_wrongMid hstart hmid (a := 0) hb
    · have hstep := step_mid hstart hmid (rfl : n + 1 + 0 = n + 1) (Junk.none b 0 _)
      rw [hb] at hstep
      exact hstep

theorem step_resumed (p : ℕ) :
    EmPhase b (manchesterTable .mid0 (edgeEvent level p)).1 (nextEdge level p)
      (manchesterTable .mid0 (edgeEvent level p)).2.toList := by
  rcases Nat.even_or_odd' p with ⟨n, rfl | rfl⟩
  · obtain ⟨hnext, hevent⟩ := edge_start hstart hmid n
    rw [hnext, hevent]
    cases hb : b n
    · exact .reset _
    · exact .onesMid (a := 0) hb
  · cases hb : b n
    · have hstep := step_mid hstart hmid (rfl : n + 1 + 0 = n + 1) (Junk.none b 0 _)
      rw [hb] at hstep
      exact hstep
    · rcases Bool.eq_or_eq_not (b (n + 1)) (b n) with hsame | hchange
      · obtain ⟨hnext, hevent⟩ := edge_same hstart hmid hsame
        rw [hnext, hevent, hb]
        exact .reset _
      · obtain ⟨hnext, hevent⟩ := edge_change hstart hmid hchange
        rw [hnext, hevent, hb]
        exact .reset _

theorem step (h : EmPhase b state p e) :
    EmPhase b (manchesterTable state (edgeEvent level p)).1 (nextEdge level p)
      (e ++ (manchesterTable state (edgeEvent level p)).2.toList) := by
  cases h with
  | reset p => exact step_reset hstart hmid p
  | resumed p => exact step_resumed hstart hmid p
  | mid hn hj => exact step_mid hstart hmid hn hj
  | start hn hj hb => exact step_start hstart hmid hn hj hb
  | wrongMid hb => exact step_wrongMid hstart hmid hb
  | onesMid hb => exact step_onesMid hstart hmid hb
  | @onesStart n a hb =>
    obtain ⟨hnext, hevent⟩ := edge_start hstart hmid n
    rw [hnext, hevent, hb]
    have hphase : EmPhase b .start0 (2 * n + 1) (zerosOnes a 0) := .onesMid hb
    simpa [manchesterTable] using hphase
  | zerosMid hb => exact step_zerosMid hstart hmid hb
  | @zerosStart n a c hb =>
    obtain ⟨hnext, hevent⟩ := edge_start hstart hmid n
    have hn : b n = false := (hb 0 (Nat.zero_le c)).2
    rw [hnext, hevent, hn]
    have hphase : EmPhase b .start1 (2 * n + 1) (zerosOnes a c) := .zerosMid hb
    simpa [manchesterTable] using hphase

end Step

end EmPhase

end FlipperZero.LfRfid
