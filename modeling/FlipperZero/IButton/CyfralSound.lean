import FlipperZero.IButton.CyfralReads
import FlipperZero.Lib.Listener

/-! # What a Cyfral key has been read from

Whatever fronts the decoder gets, a key that it gives away has been on the line: the fronts since
the key before hold the nibbles of the key and a start nibble, each bit as a low and a high part that
together last no longer than the decoder allows.
-/

namespace FlipperZero.IButton

open Lib KeyEmulator

namespace CyfralDecoder

/-- A front with the level behind it and the time since the front before. -/
abbrev Front := Bool × ℕ

def listener : Listener CyfralDecoder Front (Vector (BitVec 8) 2) where
  init := initial 0
  hear s front := s.processFront front.1 front.2
  read := read

abbrev Cell := ℕ × ℕ

def Cell.fronts (c : Cell) : List Front := [(false, c.1), (true, c.2)]

/-- The two parts together, as the decoder adds them in 32 bits. -/
def Cell.period (c : Cell) : ℕ := (c.1 + c.2) % 2 ^ 32

def Cell.inTime (c : Cell) : Prop := c.period ≤ 230 * clocksInUs

/-- A bit is a one when its second part is at least half of it. -/
def Cell.bit (c : Cell) : Bool := !decide (c.period / 2 > c.2)

/-- Fronts hold the bits of a key behind its start nibble and the start nibble of the next frame,
and the decoder has not used the fronts behind them. -/
def Carries (fronts : List Front) (key : Vector (BitVec 8) 2) : Prop :=
  ∃ (earlier ignored : List Front) (cells : List Cell),
    fronts = earlier ++ cells.flatMap Cell.fronts ++ ignored ∧ (∀ c ∈ cells, c.inTime) ∧
      cells.map Cell.bit = (cyfralBits key).drop 4 ++ (cyfralBits key).take 4

variable {b b' : ℕ → Bool} {n m : ℕ} {l : BitState} {s : CyfralDecoder} {w : BitVec 16}

theorem bitsFrom_congr {len : ℕ} (h : ∀ i < len, b (n + i) = b' (n + i)) :
    bitsFrom b n len = bitsFrom b' n len := by
  refine List.map_congr_left ?_
  intro i hi
  exact h i (List.mem_range.mp hi)

theorem nibblesFrom_congr {k : ℕ} (h : ∀ i < 4 * k, b (n + i) = b' (n + i)) :
    nibblesFrom b n k = nibblesFrom b' n k := by
  induction k with
  | zero => rfl
  | succ k ih =>
    have hbits : bitsFrom b (n + 4 * k) 4 = bitsFrom b' (n + 4 * k) 4 := by
      refine bitsFrom_congr ?_
      intro i hi
      simpa [Nat.add_assoc] using h (4 * k + i) (by omega)
    rw [nibblesFrom, nibblesFrom, ih fun i hi => h i (by omega), hbits]

theorem Reading.congr (hr : Reading b n m l s) (h : ∀ i < m, b (n + i) = b' (n + i)) :
    Reading b' n m l s := by
  have hnibble : bitsFrom b (n + 4 * (m / 4)) (m % 4) = bitsFrom b' (n + 4 * (m / 4)) (m % 4) := by
    refine bitsFrom_congr ?_
    intro i hi
    simpa [Nat.add_assoc] using h (4 * (m / 4) + i) (by omega)
  have hdata : nibblesFrom b n (m / 4) = nibblesFrom b' n (m / 4) :=
    nibblesFrom_congr fun i hi => h i (by omega)
  exact ⟨hr.ready, hr.maxPeriod, hr.bitState, hr.state, hr.index, hr.bitIndex,
    hnibble ▸ hr.nibble, hdata ▸ hr.data⟩

theorem eq_cyfralNibble {value : BitVec 16}
    (h : nibbleIndex (shiftAll 0 (bitsFrom b n 4)) = some value) :
    bitsFrom b n 4 = cyfralNibble (value.setWidth 8) ∧ value &&& 0b11 = value := by
  simp only [bitsFrom, List.range_succ, List.range_zero, List.nil_append, List.cons_append,
    List.map_cons, List.map_nil] at h ⊢
  generalize b (n + 0) = b0 at h ⊢
  generalize b (n + 1) = b1 at h ⊢
  generalize b (n + 2) = b2 at h ⊢
  generalize b (n + 3) = b3 at h ⊢
  cases b0 <;> cases b1 <;> cases b2 <;> cases b3 <;> simp_all [shiftAll, shiftIn, nibbleIndex] <;>
    subst h <;> decide

theorem shiftRight_shiftLeft_or {v : BitVec 16} (hv : v &&& 0b11 = v) {e : ℕ} (he : e + 4 ≤ 16) :
    (w <<< 2 ||| v) >>> (e + 2) &&& 0b11 = w >>> e &&& 0b11 := by
  have hhigh {i : ℕ} (hi : 2 ≤ i) : v.getLsbD i = false := by
    rw [← hv, BitVec.getLsbD_and]
    rcases Nat.lt_or_ge i 16 with hlt | hge
    · interval_cases i <;> simp
    · simp [BitVec.getLsbD_of_ge _ _ hge]
  refine BitVec.eq_of_getLsbD_eq ?_
  intro i hi
  rw [BitVec.getLsbD_and, BitVec.getLsbD_and, BitVec.getLsbD_ushiftRight,
    BitVec.getLsbD_ushiftRight, BitVec.getLsbD_or, BitVec.getLsbD_shiftLeft, hhigh (by omega)]
  rcases Nat.lt_or_ge i 2 with hlt | hge
  · have hidx : e + 2 + i - 2 = e + i := by omega
    rw [hidx, decide_eq_true (by omega : e + 2 + i < 16), decide_eq_false (by omega)]
    simp
  · have hmask : (0b11 : BitVec 16).getLsbD i = false := by interval_cases i <;> rfl
    rw [hmask, Bool.and_false, Bool.and_false]

theorem nibble_of_nibblesFrom {k : ℕ} (hk : k ≤ 8) (h : nibblesFrom b n k = (w, true)) {i : ℕ}
    (hi : i < k) : bitsFrom b (n + 4 * i) 4 =
      cyfralNibble ((w >>> (2 * (k - 1 - i)) &&& 0b11).setWidth 8) := by
  induction k generalizing w with
  | zero => exact absurd hi (Nat.not_lt_zero i)
  | succ k ih =>
    obtain ⟨keyData, dataValid, hprev⟩ : ∃ keyData dataValid,
        nibblesFrom b n k = (keyData, dataValid) := ⟨_, _, rfl⟩
    rw [nibblesFrom, hprev] at h
    generalize hindex : nibbleIndex (shiftAll 0 (bitsFrom b (n + 4 * k) 4)) = index at h
    cases index with
    | none => simp at h
    | some value =>
      simp only [Prod.mk.injEq] at h
      obtain ⟨rfl, rfl⟩ := h
      obtain ⟨hbits, hvalue⟩ := eq_cyfralNibble hindex
      rcases Nat.lt_or_ge i k with hlt | hge
      · have hidx : 2 * (k + 1 - 1 - i) = 2 * (k - 1 - i) + 2 := by omega
        rw [ih (by omega) hprev hlt, hidx, shiftRight_shiftLeft_or hvalue (by omega)]
      · obtain rfl : i = k := by omega
        have hidx : 2 * (i + 1 - 1 - i) = 0 := by omega
        have hlow : (keyData <<< 2 ||| value) &&& 0b11 = value := by
          refine BitVec.eq_of_getLsbD_eq ?_
          intro j hj
          have hand : (value &&& 0b11).getLsbD j = value.getLsbD j := by rw [hvalue]
          rw [BitVec.getLsbD_and] at hand
          rw [BitVec.getLsbD_and, BitVec.getLsbD_or, BitVec.getLsbD_shiftLeft, ← hand]
          rcases Nat.lt_or_ge j 2 with hlt | hge
          · simp [hlt]
          · have hmask : (0b11 : BitVec 16).getLsbD j = false := by interval_cases j <;> rfl
            rw [hmask, Bool.and_false, Bool.and_false]
        rw [hbits, hidx, BitVec.ushiftRight_zero, hlow]

theorem keyWord_keyBytes (w : BitVec 16) : keyWord (keyBytes w) = w := by
  refine BitVec.eq_of_getLsbD_eq ?_
  intro i hi
  rw [getLsbD_keyWord _ hi]
  rcases Nat.lt_or_ge i 8 with hlt | hge
  · have hdiv : i / 8 = 0 := by omega
    rw [hdiv, Nat.mod_eq_of_lt hlt]
    simp [keyBytes, Vector.getD, hlt]
  · have hdiv : i / 8 = 1 := by omega
    have hmod : i % 8 = i - 8 := by omega
    have hlt : i - 8 < 8 := by omega
    have hidx : 8 + (i - 8) = i := by omega
    rw [hdiv, hmod]
    simp [keyBytes, Vector.getD, hlt, hidx]

theorem bitsFrom_blocks (b : ℕ → Bool) (w k : ℕ) :
    bitsFrom b 0 (w * k) = (List.range k).flatMap fun i => bitsFrom b (0 + w * i) w := by
  induction k with
  | zero => rfl
  | succ k ih =>
    rw [Nat.mul_succ, bitsFrom_add, ih, List.range_succ, List.flatMap_append, List.flatMap_singleton]

theorem cyfralValue_keyBytes (w : BitVec 16) {k : ℕ} (hk : k < 8) :
    cyfralValue (keyBytes w) k = (w >>> (2 * (8 - 1 - k)) &&& 0b11).setWidth 8 := by
  have hvalue := setWidth_cyfralValue (keyBytes w) hk
  have hidx : 14 - 2 * k = 2 * (8 - 1 - k) := by omega
  rw [keyWord_keyBytes, hidx] at hvalue
  rw [← hvalue]
  refine BitVec.eq_of_getLsbD_eq ?_
  intro i hi
  simp [hi]

theorem bits_of_nibblesFrom {bits : List Bool} (hlen : bits.length = 36)
    (h : nibblesFrom (fun i => bits.getD i false) 0 8 = (w, true))
    (hstop : bitsFrom (fun i => bits.getD i false) 32 4 = [false, false, false, true]) :
    bits = (cyfralBits (keyBytes w)).drop 4 ++ (cyfralBits (keyBytes w)).take 4 := by
  have hbits : bitsFrom (fun i => bits.getD i false) 0 bits.length = bits :=
    bitsFrom_eq (fun i _ => by simp)
  rw [hlen, (by rfl : 36 = 32 + 4), bitsFrom_add, hstop] at hbits
  rw [← hbits, cyfralBits_eq]
  have hdata : bitsFrom (fun i => bits.getD i false) 0 32 =
      (List.range 8).flatMap fun k => cyfralNibble (cyfralValue (keyBytes w) k) := by
    rw [(by rfl : 32 = 4 * 8), bitsFrom_blocks]
    refine List.flatMap_congr ?_
    intro k hk
    rw [List.mem_range] at hk
    rw [nibble_of_nibblesFrom le_rfl h hk, cyfralValue_keyBytes w hk]
  rw [hdata]
  rfl

def stream (cells : List Cell) (i : ℕ) : Bool := (cells.map Cell.bit).getD i false

variable {fronts : List Front} {cells : List Cell} {time : ℕ}

theorem stream_append (cells : List Cell) (c : Cell) {i : ℕ} (hi : i < cells.length) :
    stream (cells ++ [c]) i = stream cells i := by
  rw [stream, List.map_append, List.getD_append _ _ _ _ (by simpa using hi)]
  rfl

theorem stream_last (cells : List Cell) (c : Cell) :
    stream (cells ++ [c]) cells.length = c.bit := by
  simp [stream]

/-- What the decoder keeps of the fronts since the last key. -/
inductive Hears (fronts : List Front) (s : CyfralDecoder) : Prop
  | fresh {m : ℕ} (hm : m = 0 ∨ m = 230 * clocksInUs) (h : s = initial m) : Hears fronts s
  | high {earlier : List Front} {cells : List Cell}
      (heq : fronts = earlier ++ cells.flatMap Cell.fronts) (htime : ∀ c ∈ cells, c.inTime)
      (hlen : cells.length < 36) (h : Reading (stream cells) 0 cells.length .waitFrontHigh s) :
      Hears fronts s
  | low {earlier : List Front} {cells : List Cell}
      (heq : fronts = earlier ++ cells.flatMap Cell.fronts ++ [(false, s.periodTime)])
      (htime : ∀ c ∈ cells, c.inTime) (hlen : cells.length < 36)
      (h : Reading (stream cells) 0 cells.length .waitFrontLow s) : Hears fronts s
  | ready (hready : s.ready = true) (hmax : s.maxPeriod = 230 * clocksInUs)
      (h : Carries fronts (keyBytes s.keyData)) : Hears fronts s

theorem hears_fresh (fronts : List Front) : Hears fronts (initial (230 * clocksInUs)) :=
  .fresh (.inr rfl) rfl

theorem hears_initial {m : ℕ} (hm : m = 0 ∨ m = 230 * clocksInUs) (front : Front) :
    Hears (fronts ++ [front]) ((initial m).processFront front.1 front.2) := by
  obtain ⟨polarity, time⟩ := front
  cases polarity with
  | false =>
    rw [processFront_initial_falling hm]
    exact hears_fresh _
  | true =>
    rw [processFront_initial_rising hm]
    split
    · have heq : fronts ++ [(true, time)] =
          fronts ++ [(true, time)] ++ ([] : List Cell).flatMap Cell.fronts := by simp
      exact .high heq (by simp) (by simp) (Reading.start _ 0 _)
    · exact hears_fresh _

theorem hears_takeBit {earlier : List Front} {c : Cell}
    (heq : fronts = earlier ++ cells.flatMap Cell.fronts ++ [(false, c.1)])
    (htime : ∀ c' ∈ cells ++ [c], Cell.inTime c') (hlen : cells.length < 36)
    (h : Reading (stream cells) 0 cells.length .waitFrontHigh s) :
    Hears (fronts ++ [(true, c.2)]) (s.takeBit c.bit) := by
  have heq' : fronts ++ [(true, c.2)] = earlier ++ (cells ++ [c]).flatMap Cell.fronts := by
    simp [heq, Cell.fronts]
  have hstream : Reading (stream (cells ++ [c])) 0 cells.length .waitFrontHigh s := by
    refine h.congr ?_
    intro i hi
    rw [Nat.zero_add, stream_append _ _ hi]
  have hbit : c.bit = stream (cells ++ [c]) (0 + cells.length) := by
    rw [Nat.zero_add, stream_last]
  rw [hbit]
  rcases Nat.lt_or_ge (cells.length + 1) 36 with hlt | hge
  · refine .high heq' htime (by simpa using hlt) ?_
    rw [List.length_append, List.length_singleton]
    exact hstream.takeBit hlt
  · have hlast : cells.length = 35 := by omega
    rw [hlast] at hstream ⊢
    rw [hstream.takeBit_end]
    split
    · next hstop =>
      split
      · next hvalid =>
        refine .ready rfl h.maxPeriod ⟨earlier, [], cells ++ [c], by simpa using heq', htime, ?_⟩
        have hdata := hstream.data
        rw [hvalid] at hdata
        exact bits_of_nibblesFrom (by simp [hlast]) hdata.symm hstop
      · rw [resetState, h.maxPeriod]
        exact hears_fresh _
    · rw [resetState, h.maxPeriod]
      exact hears_fresh _

theorem Hears.hear (h : Hears fronts s) (front : Front) :
    Hears (fronts ++ [front]) (s.processFront front.1 front.2) := by
  cases h with
  | fresh hm h =>
    subst h
    exact hears_initial hm front
  | high heq htime hlen h =>
    obtain ⟨polarity, time⟩ := front
    cases polarity with
    | false =>
      rw [processFront_falling h.ready h.maxPeriod h.bitState]
      exact .low (by rw [heq]) htime hlen (h.fields _ _)
    | true =>
      rw [processFront_waiting h.ready h.maxPeriod, processBit, h.bitState]
      simp only [Bool.true_eq_false, if_false]
      rw [resetState, h.maxPeriod]
      exact hears_fresh _
  | low heq htime hlen h =>
    obtain ⟨polarity, time⟩ := front
    cases polarity with
    | false =>
      rw [processFront_waiting h.ready h.maxPeriod, processBit, h.bitState]
      simp only [Bool.false_eq_true, if_false]
      rw [resetState, h.maxPeriod]
      exact hears_fresh _
    | true =>
      by_cases hle : (s.periodTime + time) % 2 ^ 32 ≤ 230 * clocksInUs
      · rw [processFront_rising h.ready h.maxPeriod h.bitState hle]
        refine hears_takeBit (c := (s.periodTime, time)) heq ?_ hlen (h.fields _ _)
        intro c hc
        rcases List.mem_append.mp hc with hc | hc
        · exact htime c hc
        · obtain rfl := List.mem_singleton.mp hc
          exact hle
      · rw [processFront_long h.ready h.maxPeriod h.bitState hle]
        exact hears_fresh _
  | ready hready hmax h =>
    obtain ⟨earlier, ignored, cells, heq, htime, hbits⟩ := h
    rw [processFront_ready hready hmax]
    exact .ready hready hmax ⟨earlier, ignored ++ [front], cells, by simp [heq], htime, hbits⟩

theorem Hears.read (h : Hears fronts s) {key : Vector (BitVec 8) 2}
    (hread : s.read.1 = some key) : Carries fronts key ∧ Hears [] s.read.2 := by
  cases hready : s.ready with
  | false => simp [CyfralDecoder.read, hready] at hread
  | true =>
    obtain rfl : keyBytes s.keyData = key := by simpa [CyfralDecoder.read, hready] using hread
    cases h with
    | fresh hm h => simp [h, initial] at hready
    | high heq htime hlen h => simp [h.ready] at hready
    | low heq htime hlen h => simp [h.ready] at hready
    | ready _ hmax h =>
      refine ⟨h, ?_⟩
      rw [CyfralDecoder.read, hready, if_pos rfl, resetState, hmax]
      exact hears_fresh _

theorem sound : listener.Sound Hears Carries where
  init := .fresh (.inl rfl) rfl
  hear front h := h.hear front
  value h hread := h.read hread
  idle h hread := by
    rename_i s
    cases hready : s.ready with
    | false => simpa [listener, CyfralDecoder.read, hready] using h
    | true => simp [listener, CyfralDecoder.read, hready] at hread

end CyfralDecoder

end FlipperZero.IButton
