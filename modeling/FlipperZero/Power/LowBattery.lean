import FlipperZero.Lib.Machine
import Mathlib.Algebra.GroupWithZero.Nat
import Mathlib.Order.Nat

/-! # Switching off with a low battery

An iteration of the power service looks at the battery once. When it is low for the first time the
tick at which the power goes off is stored; zero stands for no such tick. The tick counter has 32
bits.
-/

namespace FlipperZero.Power

open Lib

def powerOffTimeout : ℕ := 30

def osKernelGetTickFreq : ℕ := 1024

def offTicks : ℕ := osKernelGetTickFreq * powerOffTimeout

def tickPeriod : ℕ := 2 ^ 32

structure Reading where
  charge : BitVec 8
  /-- In millivolts. -/
  vbus : BitVec 16
deriving DecidableEq, Repr

def Reading.batteryLow (reading : Reading) : Bool :=
  reading.charge = 0 && reading.vbus.toNat < 4000

inductive PowerView where
  | info
  | dialog
  | off
  | disconnect
deriving DecidableEq, Repr

structure PowerOffModel where
  poweroffTick : BitVec 32
  batteryLow : Bool
deriving DecidableEq, Repr

def PowerOffModel.tick (model : PowerOffModel) (batteryLow : Bool) (tickCount : BitVec 32) :
    BitVec 32 × Bool :=
  if batteryLow then
    if model.poweroffTick = 0 then (tickCount + .ofNat 32 offTicks, false)
    else (model.poweroffTick, model.poweroffTick < tickCount)
  else (0, false)

structure PowerTask where
  model : PowerOffModel
  /-- The view shown; none is `VIEW_NONE`. -/
  view : Option PowerView
  /-- The last iteration has called `power_off`. -/
  poweredOff : Bool
  /-- The tick at which the next iteration begins at the earliest. -/
  time : ℕ
  /-- The tick at which the last iteration has looked at the battery. -/
  checked : ℕ
  /-- The first of the iterations since which the battery was low; the code keeps only `model`. -/
  lowSince : Option ℕ

namespace PowerTask

variable (s : PowerTask)

/-- An iteration reads the battery, a while after it has begun. -/
structure Iteration where
  elapsed : ℕ
  reading : Reading
deriving DecidableEq, Repr

def lookTime (i : Iteration) : ℕ := s.time + i.elapsed

def switchedView (batteryLow poweredOff : Bool) : Option PowerView :=
  if s.model.batteryLow ≠ batteryLow then if batteryLow then some .off else none
  else if poweredOff then some .disconnect
  else s.view

/-- The body of the loop, with the delay of 1024 ticks at its end. -/
def iterate (i : Iteration) : PowerTask :=
  let batteryLow := i.reading.batteryLow
  let (poweroffTick, poweredOff) := s.model.tick batteryLow (.ofNat 32 (s.lookTime i))
  { model := ⟨poweroffTick, batteryLow⟩
    view := s.switchedView batteryLow poweredOff
    poweredOff := poweredOff
    time := s.lookTime i + 1024
    checked := s.lookTime i
    lowSince := if batteryLow then some (s.lowSince.getD (s.lookTime i)) else none }

def machine (start : ℕ) : Machine PowerTask Iteration where
  init := ⟨⟨0, false⟩, none, false, start, start, none⟩
  next s i := some (s.iterate i)

/-- The power is switched off if and only if the battery has been low for so long. -/
def Meets : Prop := s.poweredOff = true ↔ ∃ t ∈ s.lowSince, t + offTicks ≤ s.checked

/-- The tick at which the power goes off is not zero. The counter does not wrap between a look at
the battery before that tick and the tick itself, and at a look from then on it is beyond it. -/
def Keeps (i : Iteration) : Prop :=
  i.reading.batteryLow = true →
    (s.lowSince = none → ¬tickPeriod ∣ s.lookTime i + offTicks) ∧
    ∀ t ∈ s.lowSince,
      if s.lookTime i < t + offTicks then s.lookTime i / tickPeriod = (t + offTicks) / tickPeriod
      else (t + offTicks) % tickPeriod < s.lookTime i % tickPeriod

instance : Decidable s.Meets := inferInstanceAs (Decidable (_ ↔ _))

instance (i : Iteration) : Decidable (s.Keeps i) := inferInstanceAs (Decidable (_ → _ ∧ _))

/-- The tick that is stored is that of the first iteration with a low battery. -/
structure Sound : Prop where
  unarmed : s.lowSince = none → s.model.poweroffTick = 0
  armed : ∀ t ∈ s.lowSince, s.model.poweroffTick = .ofNat 32 (t + offTicks)
  mark : ∀ t ∈ s.lowSince, ¬tickPeriod ∣ t + offTicks
  since : ∀ t ∈ s.lowSince, t ≤ s.time
  meets : s.Meets

variable {s : PowerTask} {s' : PowerTask} {i : Iteration} {start : ℕ}

theorem sound_init : (machine start).init.Sound := by
  constructor
  · intro _
    rfl
  · rintro t ⟨⟩
  · rintro t ⟨⟩
  · rintro t ⟨⟩
  · constructor
    · rintro ⟨⟩
    · rintro ⟨t, ⟨⟩, _⟩

section Ticks

variable {t time : ℕ}

theorem ofNat_eq_zero_iff : BitVec.ofNat 32 t = 0 ↔ tickPeriod ∣ t := by
  rw [← BitVec.toNat_inj, BitVec.toNat_ofNat, Nat.dvd_iff_mod_eq_zero]
  rfl

theorem ofNat_lt_iff :
    BitVec.ofNat 32 t < BitVec.ofNat 32 time ↔ t % tickPeriod < time % tickPeriod := by
  rw [BitVec.lt_def, BitVec.toNat_ofNat, BitVec.toNat_ofNat]
  rfl

theorem mod_lt_iff (hle : t ≤ time + offTicks) : (t % tickPeriod < time % tickPeriod ↔ t ≤ time) ↔
    if time < t then time / tickPeriod = t / tickPeriod
    else t % tickPeriod < time % tickPeriod := by
  simp only [offTicks, osKernelGetTickFreq, powerOffTimeout, tickPeriod] at hle ⊢
  split
  · omega
  · omega

end Ticks

namespace Sound

theorem iterate_of_low (h : s.Sound) (hlow : i.reading.batteryLow = true) {t : ℕ}
    (ht : s.lowSince = some t) : (s.iterate i).model.poweroffTick = s.model.poweroffTick ∧
      (s.iterate i).lowSince = some t ∧ ((s.iterate i).poweredOff = true ↔
        (t + offTicks) % tickPeriod < s.lookTime i % tickPeriod) := by
  have harmed := h.armed t ht
  have hmark : s.model.poweroffTick ≠ 0 := by
    rw [harmed, Ne, ofNat_eq_zero_iff]
    exact h.mark t ht
  simp only [iterate, PowerOffModel.tick, hlow, if_true, if_neg hmark, ht, Option.getD_some,
    decide_eq_true_iff, true_and]
  rw [harmed, ofNat_lt_iff]

theorem iterate_of_first (h : s.Sound) (hlow : i.reading.batteryLow = true)
    (hnone : s.lowSince = none) :
    (s.iterate i).model.poweroffTick = .ofNat 32 (s.lookTime i + offTicks) ∧
      (s.iterate i).lowSince = some (s.lookTime i) ∧ (s.iterate i).poweredOff = false := by
  simp only [iterate, PowerOffModel.tick, hlow, if_true, h.unarmed hnone, hnone, Option.getD_none,
    BitVec.ofNat_add, and_self]

theorem meets_iterate (h : s.Sound) (hlow : i.reading.batteryLow = true) {t : ℕ}
    (ht : s.lowSince = some t) : (s.iterate i).Meets ↔
      if s.lookTime i < t + offTicks then s.lookTime i / tickPeriod = (t + offTicks) / tickPeriod
      else (t + offTicks) % tickPeriod < s.lookTime i % tickPeriod := by
  obtain ⟨_, hsince, hoff⟩ := h.iterate_of_low hlow ht
  have hle : t + offTicks ≤ s.lookTime i + offTicks :=
    Nat.add_le_add_right ((h.since t ht).trans (Nat.le_add_right _ _)) _
  rw [Meets, hoff, hsince, ← mod_lt_iff hle]
  simp [iterate]

theorem next (h : s.Sound) (hkeeps : s.Keeps i) (hs : (machine start).next s i = some s') :
    s'.Sound := by
  obtain rfl := Option.some.inj hs
  cases hlow : i.reading.batteryLow with
  | false =>
    have hsince : (s.iterate i).lowSince = none := by simp [iterate, hlow]
    constructor
    · intro _
      simp [iterate, PowerOffModel.tick, hlow]
    · rw [hsince]
      rintro t ⟨⟩
    · rw [hsince]
      rintro t ⟨⟩
    · rw [hsince]
      rintro t ⟨⟩
    · rw [Meets, hsince]
      simp [iterate, PowerOffModel.tick, hlow]
  | true =>
    obtain ⟨hfirst, hlater⟩ := hkeeps hlow
    cases ht : s.lowSince with
    | none =>
      obtain ⟨htick, hsince, hoff⟩ := h.iterate_of_first hlow ht
      constructor
      · rw [hsince]
        rintro ⟨⟩
      · rw [hsince]
        rintro t ⟨⟩
        exact htick
      · rw [hsince]
        rintro t ⟨⟩
        exact hfirst ht
      · rw [hsince]
        rintro t ⟨⟩
        exact Nat.le_add_right _ _
      · rw [Meets, hsince, hoff]
        constructor
        · rintro ⟨⟩
        · rintro ⟨t, ⟨⟩, hle⟩
          exact absurd hle (Nat.not_le.mpr (Nat.lt_add_of_pos_right (by decide)))
    | some t =>
      obtain ⟨htick, hsince, _⟩ := h.iterate_of_low hlow ht
      constructor
      · rw [hsince]
        rintro ⟨⟩
      · rw [hsince, ← ht, htick]
        exact h.armed
      · rw [hsince, ← ht]
        exact h.mark
      · rw [hsince, ← ht]
        intro t ht
        exact (h.since t ht).trans (Nat.le_add_right_of_le (Nat.le_add_right _ _))
      · exact (h.meets_iterate hlow ht).mpr (hlater t ht)

theorem misses_of_mark (h : s.Sound) (hlow : i.reading.batteryLow = true)
    (hnone : s.lowSince = none) (hmark : tickPeriod ∣ s.lookTime i + offTicks) :
    ¬((s.iterate i).iterate { i with elapsed := offTicks }).Meets := by
  obtain ⟨htick, hsince, _⟩ := h.iterate_of_first hlow hnone
  have hzero : (s.iterate i).model.poweroffTick = 0 := by rw [htick, ofNat_eq_zero_iff.mpr hmark]
  have hoff : ((s.iterate i).iterate { i with elapsed := offTicks }).poweredOff = false := by
    simp only [iterate.eq_1 (s.iterate i), PowerOffModel.tick, hlow, hzero, if_true]
  have hsince' : ((s.iterate i).iterate { i with elapsed := offTicks }).lowSince =
      some (s.lookTime i) := by
    simp only [iterate.eq_1 (s.iterate i), hlow, hsince, if_true, Option.getD_some]
  intro hmeets
  rw [Meets, hoff, hsince'] at hmeets
  have hle : s.lookTime i + offTicks ≤
      ((s.iterate i).iterate { i with elapsed := offTicks }).checked :=
    Nat.add_le_add_right (Nat.le_add_right _ _) _
  cases hmeets.mpr ⟨_, rfl, hle⟩

theorem misses_of_not_keeps (h : s.Sound) (hkeeps : ¬s.Keeps i)
    (hs : (machine start).next s i = some s') :
    ¬s'.Meets ∨ ∃ i' s'', (machine start).next s' i' = some s'' ∧ ¬s''.Meets := by
  obtain rfl := Option.some.inj hs
  simp only [Keeps, Classical.not_imp, not_and_or] at hkeeps
  obtain ⟨hlow, hfirst | hlater⟩ := hkeeps
  · obtain ⟨hnone, hmark⟩ := hfirst
    exact .inr ⟨_, _, rfl, h.misses_of_mark hlow hnone (not_not.mp hmark)⟩
  · push Not at hlater
    obtain ⟨t, ht, hlater⟩ := hlater
    exact .inl fun hmeets => hlater ((h.meets_iterate hlow ht).mp hmeets)

end Sound

end PowerTask

/-- In every run that meets the condition, from every start of the counter, an iteration switches
the power off exactly when the battery has been low for the timeout. After any other iteration of
such a run this fails, if not at once then in the next iteration. -/
theorem power_task_low_battery {start : ℕ} {s : PowerTask}
    (hreach : (PowerTask.machine start).ReachableWith PowerTask.Keeps s) :
    s.Meets ∧ ∀ i s', (PowerTask.machine start).next s i = some s' → ¬s.Keeps i →
      ¬s'.Meets ∨ ∃ i' s'', (PowerTask.machine start).next s' i' = some s'' ∧ ¬s''.Meets := by
  have hsound : s.Sound := hreach.invariant (P := PowerTask.Sound) PowerTask.sound_init
    fun _ _ _ h hkeeps hs => h.next hkeeps hs
  exact ⟨hsound.meets, fun _ _ hs hkeeps => hsound.misses_of_not_keeps hkeeps hs⟩

/-- The counter wraps between the tick at which the power goes off and the next look at the battery.
The power is not switched off. -/
theorem power_task_low_battery_wrap : ∃ s s' : PowerTask, s.Meets ∧
    (PowerTask.machine (2 ^ 32 - 30770)).next s ⟨100, ⟨0, 0⟩⟩ = some s' ∧
    s'.lowSince = some (2 ^ 32 - 30770) ∧ s'.poweredOff = false ∧
    (¬s'.Meets ∨ ∃ i' s'',
      (PowerTask.machine (2 ^ 32 - 30770)).next s' i' = some s'' ∧ ¬s''.Meets) := by
  have hrun : ∃ s s' : PowerTask, (PowerTask.machine (2 ^ 32 - 30770)).execWith PowerTask.Keeps
      (PowerTask.machine (2 ^ 32 - 30770)).init
      (⟨0, ⟨0, 0⟩⟩ :: List.replicate 29 ⟨0, ⟨0, 0⟩⟩) = some s ∧
      (PowerTask.machine (2 ^ 32 - 30770)).next s ⟨100, ⟨0, 0⟩⟩ = some s' ∧
      s'.lowSince = some (2 ^ 32 - 30770) ∧ s'.poweredOff = false ∧ ¬s.Keeps ⟨100, ⟨0, 0⟩⟩ :=
    ⟨_, _, rfl, rfl, rfl, rfl, by decide⟩
  obtain ⟨s, s', hexec, hs, hsince, hoff, hkeeps⟩ := hrun
  have hreach := Machine.execWith_reachableWith .init hexec
  obtain ⟨hmeets, hmisses⟩ := power_task_low_battery hreach
  exact ⟨s, s', hmeets, hs, hsince, hoff, hmisses _ s' hs hkeeps⟩

/-- Ten seconds before the counter wraps the power is switched off after one second. -/
theorem power_task_low_battery_early : ¬∀ (start : ℕ) (s : PowerTask),
    (PowerTask.machine start).Reachable s → s.Meets := by
  intro h
  have hrun : ∃ s : PowerTask, (PowerTask.machine (2 ^ 32 - 10240)).exec
      (PowerTask.machine (2 ^ 32 - 10240)).init [⟨0, ⟨0, 0⟩⟩, ⟨0, ⟨0, 0⟩⟩] = some s ∧
      s.poweredOff = true ∧ ¬s.Meets := ⟨_, rfl, by decide, by decide⟩
  obtain ⟨s, hexec, _, hmeets⟩ := hrun
  exact hmeets (h _ s (Machine.exec_reachable .init hexec))

end FlipperZero.Power
