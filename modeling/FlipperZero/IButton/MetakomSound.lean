import FlipperZero.IButton.MetakomReads
import FlipperZero.Lib.Listener

/-! # What a Metakom key has been read from

Whatever fronts the decoder gets, a key that it gives away has been on the line: behind ten bits that
give the period and some bits without a start pulse, the fronts since the key before hold the start
pulse, the three start bits and the four bytes of the key, each of even parity, the next start pulse
and three start bits again.
-/

namespace FlipperZero.IButton

open Lib KeyEmulator

namespace MetakomDecoder

/-- A front with the level behind it and the time since the front before. -/
abbrev Front := Bool × ℕ

/-- The constructor leaves the low time that is stored as it finds it. -/
def listener (stored : ℕ) : Listener MetakomDecoder Front (Vector (BitVec 8) 4) where
  init := initial stored
  hear s front := s.processFront front.1 front.2
  read := read

structure Cell where
  high : ℕ
  low : ℕ

def Cell.sample (c : Cell) : ℕ := (c.high + c.low) % 2 ^ 32

def Cell.bit (period : ℕ) (c : Cell) : Bool := valueOf period c.low

/-- The fronts of a bit: only the first of several fronts in one direction counts. -/
inductive Piece : List Front → Cell → Prop
  | intro {falls rises : List Front} {c : Cell} (hfalls : ∀ f ∈ falls, f.1 = false)
      (hrises : ∀ f ∈ rises, f.1 = true) :
      Piece (falls ++ (true, c.low) :: rises ++ [(false, c.high)]) c

/-- Cells that end with a start pulse, with the period that the first ten give. -/
def Start (period : ℕ) (cells : List Cell) : Prop :=
  ∃ (sync waiting : List Cell) (pulse : Cell), cells = sync ++ waiting ++ [pulse] ∧
    sync.length = periodSampleCount ∧ period = MetakomAir.average (sync.map Cell.sample) ∧
    waiting.length ≤ 40 ∧ (∀ c ∈ waiting, c.high ≤ period) ∧ period < pulse.high

/-- The cells of a frame, from the first that gives the period to the last start bit of the next
frame. -/
def Frame (period : ℕ) (cells : List Cell) (key : Vector (BitVec 8) 4) : Prop :=
  ∃ (start data stop : List Cell) (last : Cell), cells = start ++ (data ++ [last]) ++ stop ∧
    Start period start ∧ (data ++ [last]).map (Cell.bit period) = metakomBits key ∧
    period < last.high ∧ stop.map (Cell.bit period) = [false, true, false]

/-- Fronts hold the frame of a key, and the decoder has not used the fronts behind it. The low part
of the first cell is one from before. -/
def Carries (fronts : List Front) (key : Vector (BitVec 8) 4) : Prop :=
  ∃ (earlier ignored : List Front) (pieces : List (List Front)) (c : Cell) (cells : List Cell)
    (period : ℕ), fronts = earlier ++ (false, c.high) :: pieces.flatten ++ ignored ∧
      List.Forall₂ Piece pieces cells ∧ Frame period (c :: cells) key ∧ EvenParity key

variable {period : ℕ} {cells : List Cell} {s : MetakomDecoder} {l : BitState} {c : Cell}
  {bits : List Bool}

def EvenBytes (bits : List Bool) (count : ℕ) : Prop :=
  ∀ j < count, parityCheck (shiftAll 0 ((bits.drop (8 * j)).take 8)) = true

theorem getLsbD_keyBytes {w : BitVec 32} {i j : ℕ} (hi : i < 4) (hj : j < 8) :
    ((keyBytes w).getD i 0).getLsbD j = w.getLsbD (8 * i + j) := by
  have hget : (keyBytes w).getD i 0 = (keyBytes w)[i] := by simp [Vector.getD, hi]
  rw [hget, keyBytes, Vector.getElem_ofFn, BitVec.getLsbD_setWidth, BitVec.getLsbD_ushiftRight,
    decide_eq_true hj, Bool.true_and]

theorem metakomBits_keyBytes (hlen : bits.length = 32) :
    metakomBits (keyBytes (shiftAll 0 bits)) = [false, true, false] ++ bits := by
  have hbits : ∀ n < 35, (metakomBits (keyBytes (shiftAll 0 bits))).getD n false =
      ([false, true, false] ++ bits).getD n false := by
    intro n hn
    have hmod : n % 35 = n := Nat.mod_eq_of_lt hn
    have hbit : metakomBit (keyBytes (shiftAll 0 bits)) n =
        (metakomBits (keyBytes (shiftAll 0 bits))).getD n false := by rw [metakomBit, hmod]
    rw [← hbit]
    rcases Nat.lt_or_ge n 3 with hlt | hge
    · rw [metakomBit_start _ (by omega), hmod]
      interval_cases n <;> rfl
    · obtain ⟨i, j, hi, hj, rfl⟩ : ∃ i j, i < 4 ∧ j < 8 ∧ n = 3 + 8 * i + j :=
        ⟨(n - 3) / 8, (n - 3) % 8, by omega, by omega, by omega⟩
      have hidx : 8 * (3 - i) + (7 - j) = 31 - (8 * i + j) := by omega
      have hidx' : bits.length - 1 - (31 - (8 * i + j)) = 3 + 8 * i + j - 3 := by omega
      rw [metakomBit_data _ hi hj hmod, getLsbD_keyBytes (by omega) (by omega), hidx,
        getLsbD_shiftAll (by omega) hlen.le, hidx', List.getD_append_right _ _ _ _ (by simp; omega)]
      rfl
  refine List.ext_getElem (by rw [length_metakomBits]; simp [hlen]) ?_
  intro n hn hn'
  have hlt : n < 35 := by rwa [length_metakomBits] at hn
  rw [← List.getD_eq_getElem _ false hn, ← List.getD_eq_getElem _ false hn', hbits n hlt]

theorem evenParity_keyBytes (hlen : bits.length = 32) (h : EvenBytes bits 4) :
    EvenParity (keyBytes (shiftAll 0 bits)) := by
  intro i hi
  have hparity := h (3 - i) (by omega)
  have hbyte : shiftAll (0 : BitVec 8)
      (bitsFrom (metakomBit (keyBytes (shiftAll 0 bits))) (3 + 8 * (3 - i)) 8) =
      (keyBytes (shiftAll 0 bits)).getD (3 - (3 - i)) 0 := shiftAll_byte (by omega) (by omega)
  have hbits : bitsFrom (metakomBit (keyBytes (shiftAll 0 bits))) (3 + 8 * (3 - i)) 8 =
      (bits.drop (8 * (3 - i))).take 8 := by
    have hblock : ((bits.drop (8 * (3 - i))).take 8).length = 8 := by simp [hlen]; omega
    refine Eq.trans (congrArg _ hblock.symm) (bitsFrom_eq ?_)
    intro j hj
    rw [hblock] at hj
    have hmod : (3 + 8 * (3 - i) + j) % 35 = 3 + (8 * (3 - i) + j) := by omega
    have hlt : 8 * (3 - i) + j < bits.length := by omega
    rw [metakomBit, hmod, metakomBits_keyBytes hlen, List.getD_append_right _ _ _ _ (by simp)]
    simp [hj]
  have hidx : 3 - (3 - i) = i := by omega
  rw [hbits, hidx] at hbyte
  rw [hbyte, parityCheck_eq, decide_eq_true_eq] at hparity
  exact hparity

/-- What the cells since a reset make of the decoder before it has the key. -/
inductive Since (l : BitState) (cells : List Cell) (s : MetakomDecoder) : Prop
  | sync (h : Sync l (cells.map Cell.sample) s) (hlen : cells.length < periodSampleCount) :
      Since l cells s
  | waiting {sync waiting : List Cell} {period : ℕ} (heq : cells = sync ++ waiting)
      (hlen : sync.length = periodSampleCount)
      (hperiod : period = MetakomAir.average (sync.map Cell.sample)) (hle : waiting.length ≤ 40)
      (hwaiting : ∀ c ∈ waiting, c.high ≤ period)
      (h : Holds l .waitStartBit period 0 waiting.length 0 0 s) : Since l cells s
  | startWord {start word : List Cell} {period : ℕ} (heq : cells = start ++ word)
      (hstart : Start period start) (hlen : word.length < 3)
      (h : Holds l .waitStartWord period (shiftAll 0 (word.map (Cell.bit period))) word.length 0 0
        s) : Since l cells s
  | readWord {start word data byte : List Cell} {period i : ℕ}
      (heq : cells = start ++ word ++ data ++ byte) (hstart : Start period start)
      (hword : word.map (Cell.bit period) = [false, true, false]) (hdata : data.length = 8 * i)
      (hi : i < 4) (heven : EvenBytes (data.map (Cell.bit period)) i) (hlen : byte.length < 8)
      (h : Holds l .readWord period (shiftAll 0 (byte.map (Cell.bit period))) byte.length
        (shiftAll 0 (data.map (Cell.bit period))) i s) : Since l cells s
  | stopWord {start word data stop : List Cell} {last : Cell} {period : ℕ}
      (heq : cells = start ++ word ++ (data ++ [last]) ++ stop) (hstart : Start period start)
      (hword : word.map (Cell.bit period) = [false, true, false])
      (hdata : (data ++ [last]).length = 32) (hlast : period < last.high)
      (heven : EvenBytes ((data ++ [last]).map (Cell.bit period)) 4) (hlen : stop.length < 3)
      (h : Holds l .readStopWord period (shiftAll 0 (stop.map (Cell.bit period))) stop.length
        (shiftAll 0 ((data ++ [last]).map (Cell.bit period))) 4 s) : Since l cells s

theorem Since.ready (h : Since l cells s) : s.ready = false := by
  cases h with
  | sync h hlen => exact h.ready
  | waiting heq hlen hperiod hle hwaiting h => exact h.ready
  | startWord heq hstart hlen h => exact h.ready
  | readWord heq hstart hword hdata hi heven hlen h => exact h.ready
  | stopWord heq hstart hword hdata hlast heven hlen h => exact h.ready

theorem Since.bitState (h : Since l cells s) : s.bitState = l := by
  cases h with
  | sync h hlen => exact h.bitState
  | waiting heq hlen hperiod hle hwaiting h => exact h.bitState
  | startWord heq hstart hlen h => exact h.bitState
  | readWord heq hstart hword hdata hi heven hlen h => exact h.bitState
  | stopWord heq hstart hword hdata hlast heven hlen h => exact h.bitState

theorem Since.fields (h : Since l cells s) (bitState : BitState) (low : ℕ) :
    Since bitState cells { s with bitState := bitState, lowTimeStorage := low } := by
  cases h with
  | sync h hlen => exact .sync (h.fields _ _) hlen
  | waiting heq hlen hperiod hle hwaiting h =>
    exact .waiting heq hlen hperiod hle hwaiting (h.fields _ _)
  | startWord heq hstart hlen h => exact .startWord heq hstart hlen (h.fields _ _)
  | readWord heq hstart hword hdata hi heven hlen h =>
    exact .readWord heq hstart hword hdata hi heven hlen (h.fields _ _)
  | stopWord heq hstart hword hdata hlast heven hlen h =>
    exact .stopWord heq hstart hword hdata hlast heven hlen (h.fields _ _)

/-- What becomes of the decoder with a cell: it goes on, begins again or has a key. -/
inductive Next (l : BitState) (cells : List Cell) (s : MetakomDecoder) : Prop
  | since (h : Since l cells s) : Next l cells s
  | reset {low : ℕ} (h : s = initial low) : Next l cells s
  | ready {period : ℕ} (hready : s.ready = true) (hframe : Frame period cells (keyBytes s.keyData))
      (heven : EvenParity (keyBytes s.keyData)) : Next l cells s

theorem shiftAll_concat {w : ℕ} (word : List Cell) (c : Cell) (period : ℕ) :
    shiftIn (shiftAll (0 : BitVec w) (word.map (Cell.bit period))) (valueOf period c.low) =
      shiftAll 0 ((word ++ [c]).map (Cell.bit period)) := by
  rw [List.map_append, shiftAll_append]
  rfl

theorem startBits_iff (hlen : bits.length = 3) :
    shiftAll (0 : BitVec 8) bits = 0b010 ↔ bits = [false, true, false] := by
  obtain ⟨b0, b1, b2, rfl⟩ := List.length_eq_three.mp hlen
  revert b0 b1 b2
  decide

theorem next_sync (h : Sync l (cells.map Cell.sample) s) (hlen : cells.length < periodSampleCount)
    (c : Cell) : Next l (cells ++ [c]) (s.takeBit c.high c.low) := by
  have hmap : (cells ++ [c]).map Cell.sample =
      cells.map Cell.sample ++ [(c.high + c.low) % 2 ^ 32] := by
    rw [List.map_append]
    rfl
  rcases Nat.lt_or_ge cells.length 9 with hlt | hge
  · refine .since (.sync ?_ (by simp [periodSampleCount]; omega))
    rw [hmap]
    exact h.takeBit (by simpa using hlt)
  · have hlast : cells.length = 9 := by
      simp only [periodSampleCount] at hlen
      omega
    refine .since (.waiting (List.append_nil (cells ++ [c])).symm ?_ rfl (by simp) (by simp) ?_)
    · simp [hlast, periodSampleCount]
    · rw [hmap]
      exact h.last (by simpa using hlast)

theorem next_startWord {start word : List Cell} (hstart : Start period start)
    (hlen : word.length < 3)
    (h : Holds l .waitStartWord period (shiftAll 0 (word.map (Cell.bit period))) word.length 0 0 s)
    (c : Cell) : Next l (start ++ word ++ [c]) (s.takeBit c.high c.low) := by
  rcases Nat.lt_or_ge word.length 2 with hlt | hge
  · have hbit := h.word_bit (x := c.high) (y := c.low) hlt
    rw [shiftAll_concat] at hbit
    refine .since (.startWord (List.append_assoc start word [c]) hstart (by simp; omega) ?_)
    simpa using hbit
  · have hlast : word.length = 2 := by omega
    rw [hlast] at h
    have hbits : ((word ++ [c]).map (Cell.bit period)).length = 3 := by simp [hlast]
    have hiff := startBits_iff hbits
    by_cases htmp : shiftAll (0 : BitVec 8) ((word ++ [c]).map (Cell.bit period)) = 0b010
    · have hend := h.word_end (x := c.high) (y := c.low) (by rw [shiftAll_concat]; exact htmp)
      have heq : start ++ word ++ [c] = start ++ (word ++ [c]) ++ [] ++ [] := by simp
      exact .since (.readWord (i := 0) heq hstart (hiff.mp htmp) rfl (by decide) nofun (by decide)
        hend)
    · have hreset := h.word_reset (x := c.high) (y := c.low) (by rw [shiftAll_concat]; exact htmp)
      exact .reset hreset

section Resets

variable {x y i : ℕ} {tmp : BitVec 8} {data : BitVec 32}

theorem Holds.read_odd (h : Holds l .readWord period tmp 7 data i s)
    (hparity : parityCheck (shiftIn tmp (valueOf period y)) = false) :
    s.takeBit x y = s.resetState := by
  obtain ⟨_, _, _, _, _, _, _, _, _, _, _⟩ := s
  obtain ⟨rfl, rfl, rfl, rfl, rfl, rfl, rfl, rfl⟩ := h
  simp only [MetakomDecoder.takeBit, readBit_eq, hparity, if_true]
  rfl

theorem Holds.read_short (h : Holds l .readWord period tmp 7 data 3 s) (hhigh : ¬x > period)
    (hparity : parityCheck (shiftIn tmp (valueOf period y)) = true) :
    s.takeBit x y = s.resetState := by
  obtain ⟨_, _, _, _, _, _, _, _, _, _, _⟩ := s
  obtain ⟨rfl, rfl, rfl, rfl, rfl, rfl, rfl, rfl⟩ := h
  simp only [MetakomDecoder.takeBit, readBit_eq, hparity, if_neg hhigh, if_true]
  rfl

theorem Holds.stop_reset (h : Holds l .readStopWord period tmp 2 data 4 s)
    (htmp : shiftIn tmp (valueOf period y) ≠ 0b010) : s.takeBit x y = s.resetState := by
  obtain ⟨_, _, _, _, _, _, _, _, _, _, _⟩ := s
  obtain ⟨rfl, rfl, rfl, rfl, rfl, rfl, rfl, rfl⟩ := h
  simp only [MetakomDecoder.takeBit, readBit_eq, if_true]
  exact (if_neg htmp).trans rfl

end Resets

theorem evenBytes_append {byte : List Bool} {i : ℕ} (hlen : bits.length = 8 * i)
    (hbyte : byte.length = 8) (h : EvenBytes bits i) (hparity : parityCheck (shiftAll 0 byte) = true) :
    EvenBytes (bits ++ byte) (i + 1) := by
  intro j hj
  rcases Nat.lt_or_ge j i with hlt | hge
  · rw [List.drop_append_of_le_length (by omega), List.take_append_of_le_length (by simp; omega)]
    exact h j hlt
  · obtain rfl : j = i := by omega
    rw [List.drop_append, ← hlen, List.drop_length, Nat.sub_self, List.nil_append, List.drop_zero,
      List.take_of_length_le hbyte.le]
    exact hparity

theorem next_readWord {start word data byte : List Cell} {i : ℕ} (hstart : Start period start)
    (hword : word.map (Cell.bit period) = [false, true, false]) (hdata : data.length = 8 * i)
    (hi : i < 4) (heven : EvenBytes (data.map (Cell.bit period)) i) (hlen : byte.length < 8)
    (h : Holds l .readWord period (shiftAll 0 (byte.map (Cell.bit period))) byte.length
      (shiftAll 0 (data.map (Cell.bit period))) i s) (c : Cell) :
    Next l (start ++ word ++ data ++ byte ++ [c]) (s.takeBit c.high c.low) := by
  rcases Nat.lt_or_ge byte.length 7 with hlt | hge
  · have hbit := h.read_bit (x := c.high) (y := c.low) hlt
    rw [shiftAll_concat] at hbit
    refine .since (.readWord (List.append_assoc (start ++ word ++ data) byte [c]) hstart hword hdata
      hi heven (by simp; omega) ?_)
    simpa using hbit
  · have hlast : byte.length = 7 := by omega
    have hlen' : ((byte ++ [c]).map (Cell.bit period)).length = 8 := by simp [hlast]
    have hlen'' : (data.map (Cell.bit period)).length = 8 * i := by simp [hdata]
    rw [hlast] at h
    cases hparity : parityCheck (shiftAll 0 ((byte ++ [c]).map (Cell.bit period))) with
    | false => exact .reset (h.read_odd (x := c.high) (y := c.low) (by rwa [shiftAll_concat]))
    | true =>
      have heven' := evenBytes_append hlen'' hlen' heven hparity
      rw [← List.map_append] at heven'
      have hshift : (shiftAll 0 (data.map (Cell.bit period)) : BitVec 32) <<< 8 |||
          (shiftAll (0 : BitVec 8) ((byte ++ [c]).map (Cell.bit period))).setWidth 32 =
          shiftAll 0 ((data ++ (byte ++ [c])).map (Cell.bit period)) := by
        rw [shiftAll_eq_or (by decide) hlen', ← shiftAll_append, ← List.map_append]
      rcases Nat.lt_or_ge i 3 with hlt | hge
      · have hread := h.read_byte (x := c.high) (y := c.low) hlt (by rwa [shiftAll_concat])
        rw [shiftAll_concat, hshift] at hread
        have heq : start ++ word ++ data ++ byte ++ [c] =
            start ++ word ++ (data ++ (byte ++ [c])) ++ [] := by simp
        exact .since (.readWord heq hstart hword (by simp [hdata, hlast]; omega) (by omega) heven'
          (by decide) hread)
      · obtain rfl : i = 3 := by omega
        by_cases hhigh : c.high > period
        · have hread := h.read_last (x := c.high) (y := c.low) hhigh (by rwa [shiftAll_concat])
          rw [shiftAll_concat, hshift, ← List.append_assoc] at hread
          rw [← List.append_assoc] at heven'
          have heq : start ++ word ++ data ++ byte ++ [c] =
              start ++ word ++ (data ++ byte ++ [c]) ++ [] := by simp
          exact .since (.stopWord heq hstart hword (by simp [hdata, hlast]) hhigh heven' (by decide)
            hread)
        · exact .reset (h.read_short (y := c.low) hhigh (by rwa [shiftAll_concat]))

theorem next_stopWord {start word data stop : List Cell} {last : Cell} (hstart : Start period start)
    (hword : word.map (Cell.bit period) = [false, true, false])
    (hdata : (data ++ [last]).length = 32) (hlast : period < last.high)
    (heven : EvenBytes ((data ++ [last]).map (Cell.bit period)) 4) (hlen : stop.length < 3)
    (h : Holds l .readStopWord period (shiftAll 0 (stop.map (Cell.bit period))) stop.length
      (shiftAll 0 ((data ++ [last]).map (Cell.bit period))) 4 s) (c : Cell) :
    Next l (start ++ word ++ (data ++ [last]) ++ stop ++ [c]) (s.takeBit c.high c.low) := by
  rcases Nat.lt_or_ge stop.length 2 with hlt | hge
  · have hbit := h.stop_bit (x := c.high) (y := c.low) hlt
    rw [shiftAll_concat] at hbit
    refine .since (.stopWord (List.append_assoc (start ++ word ++ (data ++ [last])) stop [c]) hstart
      hword hdata hlast heven (by simp; omega) ?_)
    simpa using hbit
  · have hend : stop.length = 2 := by omega
    rw [hend] at h
    have hstop : ((stop ++ [c]).map (Cell.bit period)).length = 3 := by simp [hend]
    have hiff := startBits_iff hstop
    by_cases htmp : shiftAll (0 : BitVec 8) ((stop ++ [c]).map (Cell.bit period)) = 0b010
    · obtain ⟨hready, hkey⟩ := h.stop_end (x := c.high) (y := c.low) (by rwa [shiftAll_concat])
      have hbits : ((data ++ [last]).map (Cell.bit period)).length = 32 := by simpa using hdata
      have hframe : Frame period (start ++ word ++ (data ++ [last]) ++ stop ++ [c])
          (keyBytes (s.takeBit c.high c.low).keyData) := by
        refine ⟨start, word ++ data, stop ++ [c], last, by simp, hstart, ?_, hlast, hiff.mp htmp⟩
        rw [hkey, metakomBits_keyBytes hbits, List.append_assoc, List.map_append, hword]
      refine .ready hready hframe ?_
      rw [hkey]
      exact evenParity_keyBytes hbits heven
    · exact .reset (h.stop_reset (x := c.high) (y := c.low) (by rwa [shiftAll_concat]))

theorem Since.takeBit (h : Since l cells s) (c : Cell) :
    Next l (cells ++ [c]) (s.takeBit c.high c.low) := by
  cases h with
  | sync h hlen => exact next_sync h hlen c
  | @waiting sync waiting period heq hlen hperiod hle hwaiting h =>
    subst heq
    by_cases hhigh : c.high > period
    · have hstart : Start period (sync ++ waiting ++ [c]) :=
        ⟨sync, waiting, c, rfl, hlen, hperiod, hle, hwaiting, hhigh⟩
      exact .since (.startWord (List.append_nil _).symm hstart (by decide)
        (h.start_pulse (y := c.low) hhigh))
    · rcases Nat.lt_or_ge waiting.length 40 with hlt | hge
      · refine .since (.waiting (List.append_assoc sync waiting [c]) hlen hperiod (by simp; omega)
          ?_ ?_)
        · intro c' hc'
          rcases List.mem_append.mp hc' with hc' | hc'
          · exact hwaiting c' hc'
          · rw [List.mem_singleton.mp hc']
            exact Nat.le_of_not_lt hhigh
        · simpa using h.start_wait (y := c.low) hhigh hlt
      · exact .reset (h.start_reset (y := c.low) hhigh hge)
  | startWord heq hstart hlen h => exact heq ▸ next_startWord hstart hlen h c
  | readWord heq hstart hword hdata hi heven hlen h =>
    exact heq ▸ next_readWord hstart hword hdata hi heven hlen h c
  | stopWord heq hstart hword hdata hlast heven hlen h =>
    exact heq ▸ next_stopWord hstart hword hdata hlast heven hlen h c

inductive Tail : BitState → ℕ → List Front → Prop
  | high {falls : List Front} {low : ℕ} (hfalls : ∀ f ∈ falls, f.1 = false) :
      Tail .waitFrontHigh low falls
  | low {falls rises : List Front} {low : ℕ} (hfalls : ∀ f ∈ falls, f.1 = false)
      (hrises : ∀ f ∈ rises, f.1 = true) : Tail .waitFrontLow low (falls ++ (true, low) :: rises)

theorem Tail.parts {low : ℕ} {tail : List Front} (h : Tail .waitFrontLow low tail) :
    ∃ falls rises : List Front, tail = falls ++ (true, low) :: rises ∧
      (∀ f ∈ falls, f.1 = false) ∧ ∀ f ∈ rises, f.1 = true := by
  cases h with
  | low hfalls hrises => exact ⟨_, _, rfl, hfalls, hrises⟩

/-- What the decoder keeps of the fronts since the last key. -/
inductive Hears (fronts : List Front) (s : MetakomDecoder) : Prop
  | fresh {low : ℕ} (h : s = initial low) : Hears fronts s
  | since {earlier tail : List Front} {pieces : List (List Front)} {c : Cell} {cells : List Cell}
      (heq : fronts = earlier ++ (false, c.high) :: pieces.flatten ++ tail)
      (hpieces : List.Forall₂ Piece pieces cells) (htail : Tail s.bitState s.lowTimeStorage tail)
      (h : Since s.bitState (c :: cells) s) : Hears fronts s
  | ready (hready : s.ready = true) (h : Carries fronts (keyBytes s.keyData)) : Hears fronts s

variable {fronts : List Front} {time : ℕ}

theorem processFront_falling_idle (h : s.ready = false) (hbit : s.bitState = .waitFrontHigh) :
    s.processFront false time = s := by
  obtain ⟨_, _, _, _, _, _, _, _, _, _, _⟩ := s
  cases h
  cases hbit
  rfl

theorem Next.hears (earlier : List Front) (pieces : List (List Front)) {cells : List Cell}
    (heq : fronts = earlier ++ (false, c.high) :: pieces.flatten)
    (hpieces : List.Forall₂ Piece pieces cells) (h : Next .waitFrontHigh (c :: cells) s) :
    Hears fronts s := by
  cases h with
  | since h =>
    have hbit := h.bitState
    rw [← List.append_nil (earlier ++ _)] at heq
    refine .since heq hpieces ?_ (hbit ▸ h)
    rw [hbit]
    exact .high nofun
  | reset h => exact .fresh h
  | @ready period hready hframe heven =>
    exact .ready hready ⟨earlier, [], pieces, c, cells, period, by simpa using heq, hpieces, hframe,
      heven⟩

theorem hears_initial (low : ℕ) (front : Front) :
    Hears (fronts ++ [front]) ((initial low).processFront front.1 front.2) := by
  obtain ⟨polarity, time⟩ := front
  cases polarity with
  | true =>
    rw [processFront_rising_idle rfl rfl]
    exact .fresh rfl
  | false =>
    rw [processFront_falling rfl rfl]
    have hsync : Since .waitFrontHigh []
        { initial low with bitState := .waitFrontHigh } :=
      .sync ((Sync.initial low).fields _ low) (by decide)
    exact (hsync.takeBit ⟨time, low⟩).hears fronts [] rfl .nil

theorem Since.rising {cells : List Cell} {tail : List Front} (h : Since s.bitState cells s)
    (htail : Tail s.bitState s.lowTimeStorage tail) (time : ℕ) :
    let s' := s.processFront true time
    Tail s'.bitState s'.lowTimeStorage (tail ++ [(true, time)]) ∧ Since s'.bitState cells s' := by
  intro s'
  cases hbit : s.bitState with
  | waitFrontHigh =>
    have hs' : s' = { s with lowTimeStorage := time, bitState := .waitFrontLow } :=
      processFront_rising h.ready hbit
    rw [hbit] at htail
    rw [hs']
    refine ⟨?_, h.fields _ _⟩
    cases htail with
    | high hfalls => exact .low hfalls nofun
  | waitFrontLow =>
    have hs' : s' = s := processFront_rising_idle h.ready hbit
    rw [hs']
    refine ⟨?_, h⟩
    rw [hbit] at htail ⊢
    obtain ⟨falls, rises, rfl, hfalls, hrises⟩ := htail.parts
    rw [List.append_assoc, List.cons_append]
    refine .low hfalls ?_
    intro f hf
    rcases List.mem_append.mp hf with hf | hf
    · exact hrises f hf
    · rw [List.mem_singleton.mp hf]

theorem Hears.hear (h : Hears fronts s) (front : Front) :
    Hears (fronts ++ [front]) (s.processFront front.1 front.2) := by
  cases h with
  | fresh h =>
    subst h
    exact hears_initial _ front
  | @since earlier tail pieces c cells heq hpieces htail h =>
    obtain ⟨polarity, time⟩ := front
    cases polarity with
    | true =>
      obtain ⟨htail', h'⟩ := h.rising htail time
      exact .since (by rw [heq, List.append_assoc]) hpieces htail' h'
    | false =>
      cases hbit : s.bitState with
      | waitFrontHigh =>
        rw [processFront_falling_idle h.ready hbit]
        rw [heq, List.append_assoc]
        refine .since rfl hpieces ?_ h
        rw [hbit] at htail ⊢
        cases htail with
        | high hfalls =>
          refine .high ?_
          intro f hf
          rcases List.mem_append.mp hf with hf | hf
          · exact hfalls f hf
          · rw [List.mem_singleton.mp hf]
      | waitFrontLow =>
        rw [processFront_falling h.ready hbit]
        have hsince : Since .waitFrontHigh (c :: cells) { s with bitState := .waitFrontHigh } :=
          h.fields .waitFrontHigh s.lowTimeStorage
        rw [hbit] at htail
        obtain ⟨falls, rises, rfl, hfalls, hrises⟩ := htail.parts
        have hnext := hsince.takeBit ⟨time, s.lowTimeStorage⟩
        rw [List.cons_append] at hnext
        refine hnext.hears earlier
          (pieces ++ [falls ++ (true, s.lowTimeStorage) :: rises ++ [(false, time)]]) ?_ ?_
        · simp [heq]
        · exact List.rel_append hpieces
            (.cons (.intro (c := ⟨time, s.lowTimeStorage⟩) hfalls hrises) .nil)
  | ready hready h =>
    obtain ⟨earlier, ignored, pieces, c, cells, period, heq, hpieces, hframe, heven⟩ := h
    rw [processFront_ready hready]
    exact .ready hready ⟨earlier, ignored ++ [front], pieces, c, cells, period, by simp [heq],
      hpieces, hframe, heven⟩

theorem Hears.read (h : Hears fronts s) {key : Vector (BitVec 8) 4}
    (hread : s.read.1 = some key) : Carries fronts key ∧ Hears [] s.read.2 := by
  cases hready : s.ready with
  | false => simp [MetakomDecoder.read, hready] at hread
  | true =>
    obtain rfl : keyBytes s.keyData = key := by simpa [MetakomDecoder.read, hready] using hread
    cases h with
    | fresh h => simp [h, initial] at hready
    | since heq hpieces htail h => simp [h.ready] at hready
    | ready _ h =>
      refine ⟨h, ?_⟩
      rw [MetakomDecoder.read, hready, if_pos rfl]
      exact .fresh rfl

theorem sound (stored : ℕ) : (listener stored).Sound Hears Carries where
  init := .fresh rfl
  hear front h := h.hear front
  value h hread := h.read hread
  idle h hread := by
    rename_i s
    cases hready : s.ready with
    | false => simpa [listener, MetakomDecoder.read, hready] using h
    | true => simp [listener, MetakomDecoder.read, hready] at hread

end MetakomDecoder

end FlipperZero.IButton
