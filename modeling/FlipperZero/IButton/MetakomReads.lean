import FlipperZero.IButton.MetakomPhase

/-! # What the Metakom decoder reads

In every reachable state a ready decoder has the key. After a reset that follows a start word
the samples hold no start pulse, so the next period is sharp and the decoder becomes ready.
-/

namespace FlipperZero.IButton

open Lib KeyEmulator

namespace MetakomAir

open MetakomDecoder

variable {key : Vector (BitVec 8) 4} {s : PulseAir MetakomDecoder}

/-- What holds of the decoder at any time; before its first front it knows nothing. -/
inductive MetakomInv (key : Vector (BitVec 8) 4) : PulseAir MetakomDecoder → Prop where
  | low (n : ℕ) (d : MetakomDecoder) (hn : 35 ≤ n) (h : Phase key .waitFrontHigh n d) :
      MetakomInv key ⟨d, lowPosition n, metakomLow key n⟩
  | high (n : ℕ) (s : PulseAir MetakomDecoder) (hs : AtHigh n (metakomHigh key n) s)
      (h : Phase key .waitFrontLow n s.decoder)
      (hlow : s.decoder.lowTimeStorage = metakomLow key n) : MetakomInv key s
  | idleLow (n stored t : ℕ) (hn : 35 ≤ n) : MetakomInv key ⟨initial stored, lowPosition n, t⟩
  | idleHigh (n stored high : ℕ) (s : PulseAir MetakomDecoder) (hs : AtHigh n high s)
      (h : s.decoder = initial stored) : MetakomInv key s
  | hasKey (s : PulseAir MetakomDecoder) (h : MetakomDecoder.HasKey key s.decoder) (hp : 71 ≤ s.position) :
      MetakomInv key s

theorem position_cases {p : ℕ} (hp : 71 ≤ p) (t : ℕ) (d : MetakomDecoder) :
    (∃ n, 35 ≤ n ∧ p = lowPosition n) ∨ ∃ n high, AtHigh n high ⟨d, p, t⟩ ∧ lowPosition n ≤ p := by
  rcases Nat.eq_zero_or_pos (p % 71) with hzero | hpos
  · have hposition : p = lowPosition (35 * (p / 71) - 1) + 2 := by unfold lowPosition; omega
    have hstart : AtHigh (35 * (p / 71) - 1) t ⟨d, lowPosition (35 * (p / 71) - 1) + 2, t⟩ :=
      .start d (by omega) (by omega)
    rw [← hposition] at hstart
    exact .inr ⟨_, t, hstart, by omega⟩
  · rcases Nat.mod_two_eq_zero_or_one (p % 71) with heven | hodd
    · have hposition : p = lowPosition (35 * (p / 71) + (p % 71 - 2) / 2) + 1 := by
        unfold lowPosition; omega
      have hbit := AtHigh.bit (n := 35 * (p / 71) + (p % 71 - 2) / 2) d t rfl (by omega)
      rw [← hposition] at hbit
      exact .inr ⟨_, _, hbit, by omega⟩
    · have hposition : p = lowPosition (35 * (p / 71) + (p % 71 - 1) / 2) := by
        unfold lowPosition; omega
      exact .inl ⟨35 * (p / 71) + (p % 71 - 1) / 2, by omega, hposition⟩

theorem idle {stored p : ℕ} (hp : 71 ≤ p) (t : ℕ) : MetakomInv key ⟨initial stored, p, t⟩ := by
  rcases position_cases hp t (initial stored) with ⟨n, hn, rfl⟩ | ⟨n, high, hs, -⟩
  · exact .idleLow n stored t hn
  · exact .idleHigh n stored high _ hs rfl

namespace MetakomInv

theorem ready_iff (h : MetakomInv key s) :
    s.decoder.ready = true ↔ MetakomDecoder.HasKey key s.decoder ∧ 71 ≤ s.position := by
  constructor
  · intro hready
    cases h with
    | low n d hn h => cases h.ready.symm.trans hready
    | high n s hs h hlow => cases h.ready.symm.trans hready
    | idleLow n stored t hn => cases hready
    | idleHigh n stored high s hs h =>
      rw [h] at hready
      cases hready
    | hasKey s h hp => exact ⟨h, hp⟩
  · exact fun h => h.1.1

theorem elapse (heven : EvenParity key) (h : MetakomInv key s) :
    MetakomInv key (metakomElapse key s) := by
  cases h with
  | low n d hn h =>
    rw [elapse_low hn, processFront_rising h.ready h.bitState]
    exact .high n _ (.bit _ _ rfl hn) (h.fields .waitFrontLow _) rfl
  | high n s hs h hlow =>
    rcases hs.elapse key with hnext | ⟨hnext, hn, hlast⟩
    · have hphase := (h.fields .waitFrontHigh s.decoder.lowTimeStorage).takeBit heven
      rw [hnext, nextBit, processFront_falling h.ready h.bitState, hlow]
      rw [hlow] at hphase
      obtain ⟨hn, -⟩ := hs.le
      rcases hphase with hphase | hreset | hkey
      · exact .low (n + 1) _ (by omega) hphase
      · rw [hreset]
        exact idle (le_lowPosition (by omega)) _
      · exact .hasKey _ hkey (le_lowPosition (by omega))
    · rw [hnext]
      exact .high n _ (.start _ hlast hn) h hlow
  | idleLow n stored t hn =>
    rw [elapse_low hn, processFront_rising_idle rfl rfl]
    exact idle (Nat.le_succ_of_le (le_lowPosition hn)) _
  | idleHigh n stored high s hs h =>
    rcases hs.elapse key with hnext | ⟨hnext, hn, hlast⟩
    · rw [hnext, nextBit, h, processFront_falling rfl rfl]
      have hsync : Sync .waitFrontHigh [] { initial stored with bitState := .waitFrontHigh } :=
        (Sync.initial stored).fields .waitFrontHigh stored
      obtain ⟨hn, -⟩ := hs.le
      exact .low (n + 1) _ (by omega) (Phase.takeBit_sync (by decide) hsync _ _)
    · rw [hnext, h]
      exact idle (by unfold lowPosition; omega) _
  | hasKey s h hp =>
    simp only [metakomElapse, PulseAir.elapse, reader, processFront_ready h.1]
    split
    · exact .hasKey _ h (Nat.le_succ_of_le hp)
    · exact .hasKey _ h (Nat.le_succ_of_le hp)

theorem poll (h : MetakomInv key s) : MetakomInv key (s.poll reader) := by
  cases hready : s.decoder.ready with
  | false =>
    have hpoll : s.poll reader = s := by
      simp only [PulseAir.poll, reader, MetakomDecoder.read, hready, Bool.false_eq_true, if_false]
    rwa [hpoll]
  | true =>
    have hpoll : s.poll reader = ⟨initial s.decoder.lowTimeStorage, s.position, s.time⟩ := by
      simp only [PulseAir.poll, reader, MetakomDecoder.read, hready, if_true, resetState]
    rw [hpoll]
    exact idle (h.ready_iff.mp hready).2 _

theorem read {v : Vector (BitVec 8) 4} (h : MetakomInv key s)
    (hv : (s.decoder.read).1 = some v) : v = key := by
  cases hready : s.decoder.ready with
  | false =>
    rw [MetakomDecoder.read, if_neg (by rw [hready]; decide)] at hv
    cases hv
  | true =>
    rw [MetakomDecoder.read, if_pos hready, (h.ready_iff.mp hready).1.2] at hv
    exact (Option.some.inj hv).symm

end MetakomInv

section Progress

variable {n k m c period stored t : ℕ} {d : MetakomDecoder} {samples : List ℕ}

/-- The decoder in front of bit `n`, with the front to its low part behind it. -/
def Running (key : Vector (BitVec 8) 4) (n : ℕ) (P : MetakomDecoder → Prop)
    (s : PulseAir MetakomDecoder) : Prop :=
  ∃ d, s = ⟨d, lowPosition n, metakomLow key n⟩ ∧ P d

theorem leads_bit (hn : 35 ≤ n) (hready : d.ready = false) (hbit : d.bitState = .waitFrontHigh) :
    Leads (metakomElapse key) ⟨d, lowPosition n, metakomLow key n⟩ fun t =>
      t = ⟨{ d with bitState := .waitFrontHigh, lowTimeStorage := metakomLow key n }.takeBit
        (metakomHigh key n) (metakomLow key n), lowPosition (n + 1), metakomLow key (n + 1)⟩ := by
  refine .step ?_
  rw [elapse_low hn, processFront_rising hready hbit]
  refine (AtHigh.leads key (.bit _ _ rfl hn)).mono ?_
  rintro _ rfl
  exact congrArg (fun d => (⟨d, lowPosition (n + 1), metakomLow key (n + 1)⟩ : PulseAir MetakomDecoder))
    (processFront_falling hready rfl)

theorem leads_idle (hn : 35 ≤ n) (stored t : ℕ) :
    Leads (metakomElapse key) ⟨initial stored, lowPosition n, t⟩
      (Running key (n + 1) (Sync .waitFrontHigh [(metakomHigh key n + stored) % 2 ^ 32])) := by
  refine .step ?_
  rw [elapse_low hn, processFront_rising_idle rfl rfl]
  refine (AtHigh.leads key (.bit _ _ rfl hn)).mono ?_
  rintro _ rfl
  refine ⟨_, rfl, ?_⟩
  rw [processFront_falling rfl rfl]
  have hsync : Sync .waitFrontHigh [] { initial stored with bitState := .waitFrontHigh } :=
    (Sync.initial stored).fields .waitFrontHigh stored
  exact hsync.takeBit (by decide)

def bitSamples (key : Vector (BitVec 8) 4) (n k : ℕ) : List ℕ :=
  (List.range k).map fun j => (metakomHigh key (n + j) + metakomLow key (n + j)) % 2 ^ 32

theorem bitSamples_succ (key : Vector (BitVec 8) 4) (n k : ℕ) : bitSamples key n (k + 1) =
    (metakomHigh key n + metakomLow key n) % 2 ^ 32 :: bitSamples key (n + 1) k := by
  unfold bitSamples
  rw [List.range_succ_eq_map, List.map_cons, List.map_map]
  refine congrArg _ (List.map_congr_left fun j _ => ?_)
  simp only [Function.comp_apply, Nat.succ_eq_add_one, Nat.add_assoc, Nat.add_comm 1 j]

def average (samples : List ℕ) : ℕ :=
  samples.foldl (fun t sample => (t + sample) % 2 ^ 32) 0 / periodSampleCount

theorem leads_samples (hn : 35 ≤ n) (hlen : samples.length + (k + 1) = 10)
    (h : Running key n (Sync .waitFrontHigh samples) s) :
    Leads (metakomElapse key) s (Running key (n + (k + 1))
      (Holds .waitFrontHigh .waitStartBit (average (samples ++ bitSamples key n (k + 1))) 0 0 0 0)) := by
  induction k generalizing n samples s with
  | zero =>
    obtain ⟨d, rfl, hd⟩ := h
    refine (leads_bit hn hd.ready hd.bitState).mono ?_
    rintro _ rfl
    exact ⟨_, rfl, (hd.fields .waitFrontHigh _).last (by omega)⟩
  | succ k ih =>
    obtain ⟨d, rfl, hd⟩ := h
    refine (leads_bit hn hd.ready hd.bitState).trans ?_
    rintro _ rfl
    have hnext := (hd.fields .waitFrontHigh (metakomLow key n)).takeBit (x := metakomHigh key n)
      (y := metakomLow key n) (by omega)
    have hlead := ih (n := n + 1) (by omega) (by simp; omega) ⟨_, rfl, hnext⟩
    rw [List.append_assoc, List.singleton_append, ← bitSamples_succ, Nat.add_assoc,
      Nat.add_comm 1] at hlead
    exact hlead

theorem foldl_samples {samples : List ℕ} {a : ℕ} (h : a + samples.sum < 2 ^ 32) :
    samples.foldl (fun t sample => (t + sample) % 2 ^ 32) a = a + samples.sum := by
  induction samples generalizing a with
  | nil => rfl
  | cons sample samples ih =>
    rw [List.sum_cons] at h
    rw [List.foldl_cons, List.sum_cons, Nat.mod_eq_of_lt (by omega), ih (by omega), Nat.add_assoc]

theorem sum_bitSamples (key : Vector (BitVec 8) 4) (n k : ℕ) :
    (bitSamples key n k).sum = 7920 * k + 32000 * ((n + k) / 35 - n / 35) := by
  induction k generalizing n with
  | zero => simp [bitSamples]
  | succ k ih =>
    rw [bitSamples_succ, List.sum_cons, ih]
    by_cases hlast : n % 35 = 34
    · have hsum := (metakomHigh_last key hlast).1
      rw [Nat.mod_eq_of_lt (by omega)]
      omega
    · have hsum := (metakomHigh_inner key hlast).1
      rw [Nat.mod_eq_of_lt (by omega)]
      omega

theorem metakomLow_cases (key : Vector (BitVec 8) 4) (n : ℕ) :
    metakomLow key n = 2640 ∨ metakomLow key n = 5280 := by
  rw [metakomLow_eq]
  cases metakomBit key n
  · exact .inl rfl
  · exact .inr rfl

/-- The samples after a reset, the first with a low time from before. -/
def resetPeriod (key : Vector (BitVec 8) 4) (stored n : ℕ) : ℕ :=
  average ([(metakomHigh key n + stored) % 2 ^ 32] ++ bitSamples key (n + 1) 9)

theorem resetPeriod_eq (hstored : stored = 2640 ∨ stored = 5280) (key : Vector (BitVec 8) 4) (n : ℕ) :
    resetPeriod key stored n = (metakomHigh key n + stored + 71280 +
      32000 * ((n + 10) / 35 - (n + 1) / 35)) / 10 := by
  have hsum := sum_bitSamples key (n + 1) 9
  have hhigh : metakomHigh key n < 100000 := by
    by_cases hlast : n % 35 = 34
    · have := (metakomHigh_last key hlast).1
      omega
    · have := (metakomHigh_inner key hlast).1
      omega
  have hmod : (metakomHigh key n + stored) % 2 ^ 32 = metakomHigh key n + stored :=
    Nat.mod_eq_of_lt (by omega)
  have htotal : ([(metakomHigh key n + stored) % 2 ^ 32] ++ bitSamples key (n + 1) 9).sum =
      metakomHigh key n + stored + 71280 + 32000 * ((n + 10) / 35 - (n + 1) / 35) := by
    rw [List.sum_append, List.sum_singleton, hsum, hmod]
    omega
  rw [resetPeriod, average, foldl_samples (by omega), htotal, Nat.zero_add]
  rfl

theorem resetPeriod_sharp (hstored : stored = 2640 ∨ stored = 5280) (hn : n % 35 < 25) :
    Sharp (resetPeriod key stored n) := by
  obtain ⟨hsum, hle⟩ := metakomHigh_inner key (by omega : n % 35 ≠ 34)
  have hlow := metakomLow_cases key n
  rw [Sharp, resetPeriod_eq hstored]
  omega

theorem resetPeriod_bounds (key : Vector (BitVec 8) 4) (n : ℕ) (hstored : stored = 2640 ∨ stored = 5280) :
    5280 ≤ resetPeriod key stored n ∧ resetPeriod key stored n < 34640 := by
  have hlow := metakomLow_cases key n
  rw [resetPeriod_eq hstored]
  by_cases hlast : n % 35 = 34
  · obtain ⟨hsum, -⟩ := metakomHigh_last key hlast
    omega
  · obtain ⟨hsum, -⟩ := metakomHigh_inner key hlast
    omega

/-- The decoder is ready in front of a bit at the latest. -/
def ReadyBy (n : ℕ) (s : PulseAir MetakomDecoder) : Prop :=
  s.position ≤ lowPosition n ∧ s.decoder.ready = true

/-- The decoder has been reset at the end of the bit before. -/
def Reset (n : ℕ) (s : PulseAir MetakomDecoder) : Prop :=
  ∃ stored t, (stored = 2640 ∨ stored = 5280) ∧ s = ⟨initial stored, lowPosition n, t⟩

theorem lowPosition_mono {m n : ℕ} (h : m ≤ n) : lowPosition m ≤ lowPosition n := by
  unfold lowPosition
  omega

theorem leads_reset (hn : 35 ≤ n) (hready : d.ready = false) (hbit : d.bitState = .waitFrontHigh)
    (hreset : { d with bitState := .waitFrontHigh, lowTimeStorage := metakomLow key n }.takeBit
        (metakomHigh key n) (metakomLow key n) =
      resetState { d with bitState := .waitFrontHigh, lowTimeStorage := metakomLow key n }) :
    Leads (metakomElapse key) ⟨d, lowPosition n, metakomLow key n⟩ (Reset (n + 1)) := by
  refine (leads_bit hn hready hbit).mono ?_
  rintro _ rfl
  rw [hreset]
  exact ⟨_, _, metakomLow_cases key n, rfl⟩

theorem leads_start (hn : 35 ≤ n) (hlow : 5280 ≤ period) (hhigh : period < 34640)
    (hc : c + k ≤ 40) (hk : n % 35 + k = 34)
    (h : Running key n (Holds .waitFrontHigh .waitStartBit period 0 c 0 0) s) :
    Leads (metakomElapse key) s
      (Running key (n + k + 1) (HasStart key .waitFrontHigh period (n + k + 1) 0)) := by
  induction k generalizing n c s with
  | zero =>
    obtain ⟨d, rfl, hd⟩ := h
    have hpulse : metakomHigh key n > period := by
      have hlast := (metakomHigh_last key (by omega : n % 35 = 34)).2
      omega
    refine (leads_bit hn hd.ready hd.bitState).mono ?_
    rintro _ rfl
    exact ⟨_, rfl, (hd.fields .waitFrontHigh _).start_pulse hpulse⟩
  | succ k ih =>
    obtain ⟨d, rfl, hd⟩ := h
    have hpulse : ¬metakomHigh key n > period := by
      have hinner := (metakomHigh_inner key (by omega : n % 35 ≠ 34)).2
      omega
    refine (leads_bit hn hd.ready hd.bitState).trans ?_
    rintro _ rfl
    have hwait := (hd.fields .waitFrontHigh (metakomLow key n)).start_wait
      (y := metakomLow key n) hpulse (by omega)
    have hlead := ih (n := n + 1) (by omega) (by omega) (by omega) ⟨_, rfl, hwait⟩
    rwa [(by omega : n + 1 + k + 1 = n + (k + 1) + 1)] at hlead

theorem leads_pulse (hn : 35 ≤ n) (hhigh : metakomHigh key n > period)
    (h : Running key n (Holds .waitFrontHigh .waitStartBit period 0 c 0 0) s) :
    Leads (metakomElapse key) s fun t => (Sharp period → (n + 1) % 35 = 0) ∧
      Running key (n + 1) (HasStart key .waitFrontHigh period (n + 1) 0) t := by
  obtain ⟨d, rfl, hd⟩ := h
  refine (leads_bit hn hd.ready hd.bitState).mono ?_
  rintro _ rfl
  refine ⟨?_, _, rfl, (hd.fields .waitFrontHigh _).start_pulse hhigh⟩
  rintro ⟨hlow, -⟩
  by_contra hlast
  have hinner := (metakomHigh_inner key (by omega : n % 35 ≠ 34)).2
  omega

theorem leads_start_any (hn : 35 ≤ n) (hk : c + k = 40)
    (h : Running key n (Holds .waitFrontHigh .waitStartBit period 0 c 0 0) s) :
    Leads (metakomElapse key) s fun t => (∃ m, n < m ∧ m ≤ n + k + 1 ∧
        (Sharp period → m % 35 = 0) ∧ Running key m (HasStart key .waitFrontHigh period m 0) t) ∨
      Reset (n + k + 1) t := by
  induction k generalizing n c s with
  | zero =>
    obtain ⟨d, rfl, hd⟩ := h
    by_cases hhigh : metakomHigh key n > period
    · exact (leads_pulse hn hhigh ⟨d, rfl, hd⟩).mono fun t ht =>
        .inl ⟨n + 1, by omega, by omega, ht⟩
    · refine (leads_reset hn hd.ready hd.bitState ?_).mono fun t ht => .inr ht
      exact (hd.fields .waitFrontHigh _).start_reset hhigh (by omega)
  | succ k ih =>
    obtain ⟨d, rfl, hd⟩ := h
    by_cases hhigh : metakomHigh key n > period
    · exact (leads_pulse hn hhigh ⟨d, rfl, hd⟩).mono fun t ht =>
        .inl ⟨n + 1, by omega, by omega, ht⟩
    · refine (leads_bit hn hd.ready hd.bitState).trans ?_
      rintro _ rfl
      have hwait := (hd.fields .waitFrontHigh (metakomLow key n)).start_wait
        (y := metakomLow key n) hhigh (by omega)
      refine (ih (n := n + 1) (by omega) (by omega) ⟨_, rfl, hwait⟩).mono ?_
      rintro t (⟨m, hm, hm', ht⟩ | ht)
      · exact .inl ⟨m, by omega, by omega, ht⟩
      · rw [(by omega : n + 1 + k + 1 = n + (k + 1) + 1)] at ht
        exact .inr ht

theorem leads_word (hn : 35 ≤ n) (h : Running key n (HasStart key .waitFrontHigh period n 0) s) :
    Leads (metakomElapse key) s (Running key (n + 2) (HasStart key .waitFrontHigh period n 2)) := by
  obtain ⟨d, rfl, hd⟩ := h
  refine (leads_bit hn (Holds.ready hd) (Holds.bitState hd)).trans ?_
  rintro _ rfl
  have hfirst := HasStart.next (x := metakomHigh key n) (by decide)
    (Holds.fields hd .waitFrontHigh (metakomLow key n))
  refine (leads_bit (by omega) (Holds.ready hfirst) (Holds.bitState hfirst)).mono ?_
  rintro _ rfl
  exact ⟨_, rfl, HasStart.next (x := metakomHigh key (n + 1)) (by decide)
    (Holds.fields hfirst .waitFrontHigh (metakomLow key (n + 1)))⟩

theorem leads_word_blunt (hn : 35 ≤ n) (hblunt : ¬Sharp period)
    (h : Running key n (HasStart key .waitFrontHigh period n 0) s) :
    Leads (metakomElapse key) s (Reset (n + 3)) := by
  refine (leads_word hn h).trans ?_
  rintro _ ⟨d, rfl, hd⟩
  exact leads_reset (by omega) (Holds.ready hd) (Holds.bitState hd)
    (HasStart.last_blunt hblunt (Holds.fields hd .waitFrontHigh _))

theorem leads_key (heven : EvenParity key) (hsharp : Sharp period) (hn : 35 ≤ n) (hk : n % 35 = 3)
    (hm : m < 32) (h : Running key n (HasBits key .waitFrontHigh period n 0) s) :
    Leads (metakomElapse key) s (Running key (n + m) (HasBits key .waitFrontHigh period n m)) := by
  induction m with
  | zero => exact .now h
  | succ m ih =>
    refine (ih (by omega)).trans ?_
    rintro _ ⟨d, rfl, hd⟩
    refine (leads_bit (by omega) (Holds.ready hd) (Holds.bitState hd)).mono ?_
    rintro _ rfl
    exact ⟨_, rfl, HasBits.next heven hsharp hk (by omega) (Holds.fields hd .waitFrontHigh _)⟩

theorem leads_stop (hsharp : Sharp period) (hn : 35 ≤ n) (hk : n % 35 = 3)
    (h : Running key (n + 32) (HasStop key .waitFrontHigh period n 0) s) :
    Leads (metakomElapse key) s (ReadyBy (n + 35)) := by
  have hstop : Leads (metakomElapse key) s
      (Running key (n + 32 + 2) (HasStop key .waitFrontHigh period n 2)) := by
    obtain ⟨d, rfl, hd⟩ := h
    refine (leads_bit (by omega) (Holds.ready hd) (Holds.bitState hd)).trans ?_
    rintro _ rfl
    have hfirst := HasStop.next (x := metakomHigh key (n + 32)) hsharp (by decide)
      (Holds.fields hd .waitFrontHigh (metakomLow key (n + 32)))
    refine (leads_bit (by omega) (Holds.ready hfirst) (Holds.bitState hfirst)).mono ?_
    rintro _ rfl
    exact ⟨_, rfl, HasStop.next (x := metakomHigh key (n + 32 + 1)) hsharp (by decide)
      (Holds.fields hfirst .waitFrontHigh (metakomLow key (n + 32 + 1)))⟩
  refine hstop.trans ?_
  rintro _ ⟨d, rfl, hd⟩
  refine (leads_bit (by omega) (Holds.ready hd) (Holds.bitState hd)).mono ?_
  rintro _ rfl
  exact ⟨le_rfl, (HasStop.last (x := metakomHigh key (n + 32 + 2)) hsharp hk
    (Holds.fields hd .waitFrontHigh (metakomLow key (n + 32 + 2)))).1⟩

theorem leads_word_sharp (heven : EvenParity key) (hsharp : Sharp period) (hn : 35 ≤ n)
    (hk : n % 35 = 0) (h : Running key n (HasStart key .waitFrontHigh period n 0) s) :
    Leads (metakomElapse key) s (ReadyBy (n + 38)) := by
  refine (leads_word hn h).trans ?_
  rintro _ ⟨d, rfl, hd⟩
  refine (leads_bit (by omega) (Holds.ready hd) (Holds.bitState hd)).trans ?_
  rintro _ rfl
  have hbits := HasStart.last_sharp (x := metakomHigh key (n + 2)) hsharp hk
    (Holds.fields hd .waitFrontHigh (metakomLow key (n + 2)))
  refine (leads_key heven hsharp (n := n + 3) (by omega) (by omega) (by decide : 31 < 32)
    ⟨_, rfl, hbits⟩).trans ?_
  rintro _ ⟨d, rfl, hd⟩
  refine (leads_bit (by omega) (Holds.ready hd) (Holds.bitState hd)).trans ?_
  rintro _ rfl
  have hstop := HasBits.last heven hsharp (by omega)
    (Holds.fields hd .waitFrontHigh (metakomLow key (n + 3 + 31)))
  exact leads_stop hsharp (by omega) (by omega) ⟨_, rfl, hstop⟩

theorem ReadyBy.mono (hmn : m ≤ n) (h : ReadyBy m s) : ReadyBy n s :=
  ⟨h.1.trans (lowPosition_mono hmn), h.2⟩

theorem leads_period (hn : 35 ≤ n) (h : Reset n s) : Leads (metakomElapse key) s fun t =>
    ∃ stored m, (stored = 2640 ∨ stored = 5280) ∧ m ≤ n + 45 ∧ m % 35 = 0 ∧ 35 ≤ m ∧
      Running key m (HasStart key .waitFrontHigh (resetPeriod key stored n) m 0) t := by
  obtain ⟨stored, t, hstored, rfl⟩ := h
  obtain ⟨hlow, hhigh⟩ := resetPeriod_bounds key n hstored
  refine (leads_idle hn stored t).trans ?_
  rintro t ht
  refine (leads_samples (k := 8) (by omega) rfl ht).trans ?_
  rintro t ht
  refine (leads_start (k := 34 - (n + 10) % 35) (by omega) hlow hhigh (by omega) (by omega) ht).mono ?_
  rintro t ht
  exact ⟨stored, _, hstored, by omega, by omega, by omega, ht⟩

theorem leads_ready_sharp (heven : EvenParity key) (hn : 35 ≤ n) (hsamples : n % 35 < 25)
    (h : Reset n s) : Leads (metakomElapse key) s (ReadyBy (n + 83)) := by
  refine (leads_period hn h).trans ?_
  rintro t ⟨stored, m, hstored, hm, hm0, hm35, ht⟩
  refine (leads_word_sharp heven (resetPeriod_sharp hstored hsamples) hm35 hm0 ht).mono ?_
  rintro u hu
  exact hu.mono (by omega)

theorem leads_ready_reset (heven : EvenParity key) (hn : 35 ≤ n) (h : Reset n s) :
    Leads (metakomElapse key) s (ReadyBy (n + 131)) := by
  refine (leads_period hn h).trans ?_
  rintro t ⟨stored, m, hstored, hm, hm0, hm35, ht⟩
  by_cases hsharp : Sharp (resetPeriod key stored n)
  · refine (leads_word_sharp heven hsharp hm35 hm0 ht).mono ?_
    rintro u hu
    exact hu.mono (by omega)
  · refine (leads_word_blunt hm35 hsharp ht).trans ?_
    rintro u hu
    refine (leads_ready_sharp heven (by omega) (by omega) hu).mono ?_
    rintro v hv
    exact hv.mono (by omega)

theorem leads_ready_first (heven : EvenParity key) (hn : 35 ≤ n) (hlen : samples.length = 1)
    (h : Running key n (Sync .waitFrontHigh samples) s) :
    Leads (metakomElapse key) s (ReadyBy (n + 184)) := by
  refine (leads_samples (k := 8) hn (by omega) h).trans ?_
  rintro t ht
  refine (leads_start_any (k := 40) (by omega) rfl ht).trans ?_
  rintro u (⟨m, hm, hm', hm0, hu⟩ | hu)
  · by_cases hsharp : Sharp (average (samples ++ bitSamples key n (8 + 1)))
    · refine (leads_word_sharp heven hsharp (by omega) (hm0 hsharp) hu).mono ?_
      rintro v hv
      exact hv.mono (by omega)
    · refine (leads_word_blunt (by omega) hsharp hu).trans ?_
      rintro v hv
      refine (leads_ready_reset heven (by omega) hv).mono ?_
      rintro w hw
      exact hw.mono (by omega)
  · refine (leads_ready_reset heven (by omega) hu).mono ?_
    rintro v hv
    exact hv.mono (by omega)

theorem leads_first {p : ℕ} (hp : 71 ≤ p) (stored t : ℕ) :
    Leads (metakomElapse key) ⟨initial stored, p, t⟩ fun u => ∃ n sample, 35 ≤ n ∧
      lowPosition n ≤ p + 4 ∧ Running key n (Sync .waitFrontHigh [sample]) u := by
  have hstep : ∀ n, lowPosition (n + 1) ≤ lowPosition n + 3 := by
    intro n
    unfold lowPosition
    omega
  rcases position_cases hp t (initial stored) with ⟨n, hn, rfl⟩ | ⟨n, high, hs, hle⟩
  · refine (leads_idle hn stored t).mono ?_
    rintro u hu
    have := hstep n
    exact ⟨n + 1, _, by omega, by omega, hu⟩
  · obtain ⟨hn, -⟩ := hs.le
    refine (hs.leads key).mono ?_
    rintro _ rfl
    have := hstep n
    refine ⟨n + 1, (high + stored) % 2 ^ 32, by omega, by omega, _, rfl, ?_⟩
    have hsync : Sync .waitFrontHigh [] { initial stored with bitState := .waitFrontHigh } :=
      (Sync.initial stored).fields .waitFrontHigh stored
    rw [processFront_falling rfl rfl]
    exact hsync.takeBit (by decide)

end Progress

end MetakomAir

end FlipperZero.IButton
