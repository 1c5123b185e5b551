import FlipperZero.Lib.Leads

/-! # Keys emulated by pulses

A timer steps a pin through a list of periods, for ever. A reader near the key gets the
edges of the pin with the time since the edge before, and is polled at arbitrary times.
-/

namespace FlipperZero.IButton

open Lib

structure PulseSequencer where
  periods : List ℕ
  pinStartState : Bool
  pinState : Bool
  periodIndex : ℕ
  pin : Bool
  period : ℕ

namespace PulseSequencer

/-- The sequencer when `start` has returned. -/
def start (periods : List ℕ) (pinStartState : Bool) : PulseSequencer where
  periods := periods
  pinStartState := pinStartState
  pinState := !pinStartState
  periodIndex := 1
  pin := pinStartState
  period := periods.getD 0 0

def timerElapsedCallback (q : PulseSequencer) : PulseSequencer :=
  let pinState := if q.periodIndex = 0 then q.pinStartState else !q.pinState
  let periodIndex := q.periodIndex + 1
  { q with
    pinState := pinState
    pin := pinState
    period := q.periods.getD q.periodIndex 0
    periodIndex := if periodIndex = q.periods.length then 0 else periodIndex }

/-- The sequencer when `n` periods have elapsed. -/
def after (q : PulseSequencer) : ℕ → PulseSequencer
  | 0 => q
  | n + 1 => (q.after n).timerElapsedCallback

variable {periods : List ℕ} {pinStartState : Bool} {n : ℕ}

theorem after_fixed (q : PulseSequencer) (n : ℕ) :
    (q.after n).periods = q.periods ∧ (q.after n).pinStartState = q.pinStartState := by
  induction n with
  | zero => exact ⟨rfl, rfl⟩
  | succ n ih => exact ih

theorem succ_mod {m : ℕ} (hm : 2 ≤ m) (n : ℕ) :
    (n + 1) % m = if n % m + 1 = m then 0 else n % m + 1 := by
  have hlt := Nat.mod_lt n (by omega : m > 0)
  have hnext := Nat.add_mod n 1 m
  rw [Nat.mod_eq_of_lt (by omega : 1 < m)] at hnext
  rw [hnext]
  split
  · next heq => rw [heq, Nat.mod_self]
  · next hne => exact Nat.mod_eq_of_lt (by omega)

theorem after_periodIndex (hlen : 2 ≤ periods.length) :
    ((start periods pinStartState).after n).periodIndex = (n + 1) % periods.length := by
  induction n with
  | zero => exact (Nat.mod_eq_of_lt hlen).symm
  | succ n ih =>
    simp only [after, timerElapsedCallback, (after_fixed _ n).1, ih]
    exact (succ_mod hlen (n + 1)).symm

theorem after_period (hlen : 2 ≤ periods.length) :
    ((start periods pinStartState).after n).period = periods.getD (n % periods.length) 0 := by
  cases n with
  | zero => rw [Nat.zero_mod]; rfl
  | succ n =>
    simp only [after, timerElapsedCallback, (after_fixed _ n).1, after_periodIndex hlen]
    rfl

theorem after_succ_pin (hlen : 2 ≤ periods.length) :
    ((start periods pinStartState).after (n + 1)).pin =
      if (n + 1) % periods.length = 0 then pinStartState
      else !((start periods pinStartState).after n).pinState := by
  simp only [after, timerElapsedCallback, (after_fixed _ n).2, after_periodIndex hlen]
  rfl

theorem after_pin (hlen : 2 ≤ periods.length) (k : ℕ) :
    ((start periods pinStartState).after (periods.length + k)).pin =
      (pinStartState ^^ decide (k % periods.length % 2 = 1)) := by
  induction k with
  | zero =>
    obtain ⟨m, hm⟩ : ∃ m, periods.length = m + 1 := ⟨periods.length - 1, by omega⟩
    have hpin : ((start periods pinStartState).after (m + 1)).pin = _ := after_succ_pin hlen
    rw [← hm, Nat.mod_self, if_pos rfl] at hpin
    rw [Nat.add_zero, hpin, Nat.zero_mod]
    exact (Bool.xor_false _).symm
  | succ k ih =>
    obtain ⟨m, hm⟩ : ∃ m, periods.length + k = m + 1 := ⟨periods.length + k - 1, by omega⟩
    rw [hm] at ih
    rw [← Nat.add_assoc, hm, after_succ_pin hlen]
    have hmod : (m + 1 + 1) % periods.length = (k + 1) % periods.length := by
      rw [← hm, Nat.add_assoc, Nat.add_mod_left]
    have hstate : ((start periods pinStartState).after (m + 1)).pinState =
        (pinStartState ^^ decide (k % periods.length % 2 = 1)) := ih
    have hsucc := succ_mod hlen k
    rw [hmod, hstate]
    split
    · next hzero =>
      rw [hzero]
      exact (Bool.xor_false _).symm
    · next hne =>
      rw [hsucc, if_neg fun h => hne (by rw [hsucc, if_pos h])]
      rcases Nat.mod_two_eq_zero_or_one (k % periods.length) with h | h
      · rw [Nat.add_mod, h]
        cases pinStartState <;> rfl
      · rw [Nat.add_mod, h]
        cases pinStartState <;> rfl

end PulseSequencer

/-- What `hal_gpio_get_rfid_in_level` gives for the pin: the comparator follows the pin, and the
level is high while the comparator is low. -/
def rfidInLevel (pin : Bool) : Bool := !pin

/-- The operations of a decoder that its reader uses. -/
structure PulseReader (δ κ : Type*) where
  processFront : δ → Bool → ℕ → δ
  read : δ → Option κ × δ
  ready : δ → Bool

/-- A decoder while a period of the sequencer runs, with the time that the next front would
report. -/
structure PulseAir (δ : Type*) where
  decoder : δ
  position : ℕ
  time : ℕ

inductive PulseLabel where
  | elapse
  | poll

section Air

variable {δ κ : Type*} (q : PulseSequencer) (R : PulseReader δ κ)

/-- The running period elapses, and gives a front if the pin changes. -/
def PulseAir.elapse (s : PulseAir δ) : PulseAir δ :=
  let position := s.position + 1
  let level := rfidInLevel (q.after position).pin
  let period := (q.after position).period
  if level = rfidInLevel (q.after s.position).pin then
    ⟨s.decoder, position, s.time + period⟩
  else
    ⟨R.processFront s.decoder level s.time, position, period⟩

def PulseAir.poll (s : PulseAir δ) : PulseAir δ := { s with decoder := (R.read s.decoder).2 }

/-- A decoder started while a period of the second pass or later runs. -/
def pulseAir (decoder : δ) (offset time : ℕ) : Machine (PulseAir δ) PulseLabel where
  init := ⟨decoder, q.periods.length + offset, time⟩
  next s l := some <| match l with
    | .elapse => s.elapse q R
    | .poll => s.poll R

/-- Every read that succeeds returns the key, and the first one is possible within some frames. -/
structure Readable (decoder : δ) (key : κ) (frames : ℕ) : Prop where
  reads : ∀ offset time s v, (pulseAir q R decoder offset time).Reachable s →
    (R.read s.decoder).1 = some v → v = key
  becomesReady : ∀ offset time, ∃ n : ℕ,
    let s := (PulseAir.elapse q R)^[n] (pulseAir q R decoder offset time).init
    s.position ≤ q.periods.length + offset + frames * q.periods.length ∧
      R.ready s.decoder = true

end Air

end FlipperZero.IButton
