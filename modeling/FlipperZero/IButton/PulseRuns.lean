import FlipperZero.IButton.PulseSequencer
import Mathlib.Algebra.Group.Nat.Defs

/-! # Pulse sequences played one after another

One sequencer plays the pulses of every emulated key. `start` programs the period under the
index that the sequence before has left, and sets the index only after that; and the pin state
that `start` has negated is negated again by the first update.
-/

namespace FlipperZero.IButton

/-- A sequence as `set_periods` and `start` get it, with the updates until `stop`. -/
structure PulseRun where
  periods : List ℕ
  pinStartState : Bool
  updates : ℕ
  two_le : 2 ≤ periods.length
  lt : periods.length < 2 ^ 16

namespace PulseSequencer

def setPeriods (q : PulseSequencer) (periods : List ℕ) (pinStartState : Bool) : PulseSequencer :=
  { q with periods := periods, pinStartState := pinStartState }

/-- `start` of a sequencer that may have been used before. -/
def startUsed (q : PulseSequencer) : PulseSequencer :=
  { q with
    period := q.periods.getD q.periodIndex 0
    pinState := !q.pinStartState
    pin := q.pinStartState
    periodIndex := 1 }

def begin (q : PulseSequencer) (run : PulseRun) : PulseSequencer :=
  (q.setPeriods run.periods run.pinStartState).startUsed

/-- The sequencer when a sequence was stopped; `stop` does not touch the index or the pin. -/
def play (q : PulseSequencer) (run : PulseRun) : PulseSequencer := (q.begin run).after run.updates

/-- The periods of a sequence come in turn, no other entry is read, and the pin alternates from
its start state in every cycle. -/
structure Plays (q : PulseSequencer) (run : PulseRun) : Prop where
  first : q.periodIndex < run.periods.length
  index : ∀ n < run.updates, ((q.begin run).after n).periodIndex < run.periods.length
  period : ∀ n ≤ run.updates,
    ((q.begin run).after n).period = run.periods.getD (n % run.periods.length) 0
  pin : ∀ n ≤ run.updates, ((q.begin run).after n).pin =
    (run.pinStartState ^^ decide (n % run.periods.length % 2 = 1))

def PlaysAll (q : PulseSequencer) : List PulseRun → Prop
  | [] => True
  | run :: runs => q.Plays run ∧ (q.play run).PlaysAll runs

/-- Every sequence is stopped before its first update, and the index that is left when it begins
selects a period as long as its first one. -/
def Undisturbed (periodIndex : ℕ) : List PulseRun → Prop
  | [] => True
  | run :: runs => run.updates = 0 ∧ periodIndex < run.periods.length ∧
      run.periods.getD periodIndex 0 = run.periods.getD 0 0 ∧ Undisturbed 1 runs

variable {q : PulseSequencer} {run : PulseRun} {n : ℕ}

theorem after_begin :
    (q.begin run).after (n + 1) = (start run.periods run.pinStartState).after (n + 1) := by
  induction n with
  | zero => rfl
  | succ n ih => exact congrArg timerElapsedCallback ih

theorem begin_period_zero : ((q.begin run).after 0).period = run.periods.getD q.periodIndex 0 := rfl

theorem begin_pin_one : ((q.begin run).after 1).pin = run.pinStartState := by
  have hlt : 1 % run.periods.length = 1 := Nat.mod_eq_of_lt run.two_le
  have hpin := @after_succ_pin run.periods run.pinStartState 0 run.two_le
  rw [hlt, if_neg Nat.one_ne_zero] at hpin
  rw [after_begin, hpin]
  exact Bool.not_not _

theorem plays_iff : q.Plays run ↔ run.updates = 0 ∧ q.periodIndex < run.periods.length ∧
    run.periods.getD q.periodIndex 0 = run.periods.getD 0 0 := by
  constructor
  · rintro ⟨hfirst, hindex, hperiod, hpin⟩
    have hzero := hperiod 0 (Nat.zero_le _)
    rw [begin_period_zero, Nat.zero_mod] at hzero
    refine ⟨?_, hfirst, hzero⟩
    by_contra hne
    have hone := hpin 1 (Nat.one_le_iff_ne_zero.mpr hne)
    rw [begin_pin_one, Nat.mod_eq_of_lt run.two_le] at hone
    cases run.pinStartState <;> simp at hone
  · rintro ⟨hupdates, hfirst, hzero⟩
    rw [← Nat.zero_mod run.periods.length] at hzero
    constructor
    · exact hfirst
    · intro n hn
      omega
    · intro n hn
      obtain rfl : n = 0 := by omega
      exact hzero
    · intro n hn
      obtain rfl : n = 0 := by omega
      rw [Nat.zero_mod]
      exact (Bool.xor_false _).symm

/-- A history is played as intended exactly when no sequence gets to its first update and the
indices that are left do no harm. -/
theorem pulse_sequences_play (runs : List PulseRun) :
    q.PlaysAll runs ↔ Undisturbed q.periodIndex runs := by
  induction runs generalizing q with
  | nil => exact Iff.rfl
  | cons run runs ih =>
    simp only [PlaysAll, Undisturbed, plays_iff, ih, and_assoc]
    refine and_congr_right fun hupdates => ?_
    have hleft : (q.play run).periodIndex = 1 := by
      rw [play, hupdates]
      rfl
    rw [hleft]

/-- The first key of a new sequencer: its second pulse has the level of the first one. -/
theorem pulse_sequence_stays :
    ¬ PlaysAll ⟨[], false, false, 0, false, 0⟩ [⟨[10, 20], false, 1, by decide, by decide⟩] := by
  rintro ⟨hplays, -⟩
  cases hplays.pin 1 (Nat.le_refl 1)

end PulseSequencer

end FlipperZero.IButton
