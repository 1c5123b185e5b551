import FlipperZero.Lib.Machine
import Mathlib.Algebra.Group.Nat.Defs
import Mathlib.Data.Nat.Notation

/-! # Tickless sleep

The low-power timer counts the clocks of the LSE. While the system is active it gives an OS tick
every 32 clocks, and for a sleep it is started again to count up to the expected end. What the
sleep has over whole ticks is kept as the skew for the next one.
-/

namespace FlipperZero.Firmware

open Lib

def apiHalOsClkFrequency : ℕ := 32768
def apiHalOsTickPerSecond : ℕ := 1024
def apiHalOsClkPerTick : ℕ := apiHalOsClkFrequency / apiHalOsTickPerSecond
def apiHalOsTimerMax : ℕ := 0xFFFF
def apiHalOsTickPerEpoch : ℕ := apiHalOsTimerMax / apiHalOsClkPerTick
def apiHalOsMaxSleep : ℕ := apiHalOsTickPerEpoch - 1

structure Lptim where
  /-- The clocks from one autoreload match of the continuous timer to the next. -/
  period : (autoReload : ℕ) → ℕ
  /-- The counter of the timer so many clocks after it was started once. -/
  counter : (autoReload clocks : ℕ) → ℕ

/-- What the tick code relies on: the timer counts clocks, a period is as long as the autoreload
value says, and a timer that was started once stops with zero. -/
structure Lptim.Lawful (timer : Lptim) : Prop where
  continuous : timer.period apiHalOsClkPerTick = apiHalOsClkPerTick
  running : ∀ autoReload clocks, clocks < autoReload → timer.counter autoReload clocks = clocks
  stopped : ∀ autoReload clocks, autoReload ≤ clocks → timer.counter autoReload clocks = 0

/-- The clocks of the LSE and the ticks since the start, with the clocks of the tick timer since its
last match. -/
structure OsClock where
  elapsed : ℕ
  ticks : ℕ
  skew : ℕ
  counter : ℕ

section Steps

variable (timer : Lptim)

def OsClock.run (s : OsClock) (clocks : ℕ) : OsClock :=
  let period := timer.period apiHalOsClkPerTick
  { s with
    elapsed := s.elapsed + clocks
    ticks := s.ticks + (s.counter + clocks) / period
    counter := (s.counter + clocks) % period }

/-- The compare match flag some clocks after `api_hal_os_timer_single`. -/
def isActiveFlagCmpm (count clocks : ℕ) : Bool :=
  decide ((count + 2 ^ 16 - 3) % 2 ^ 16 ≤ clocks)

/-- The autoreload match flag some clocks after `api_hal_os_timer_single`. -/
def isActiveFlagArrm (count clocks : ℕ) : Bool := decide (count ≤ clocks)

/-- What a call of `vPortSuppressTicksAndSleep` finds: whether no one forbids to sleep, whether the
scheduler confirms it, and how many clocks pass from one of its steps to the next. -/
structure Sleep where
  available : Bool
  confirmed : Bool
  /-- From `__disable_irq` to the reset of the tick timer, whose match is not served any more. -/
  reset : ℕ
  /-- From there to the start of the one-shot timer. -/
  single : ℕ
  /-- From there, with the sleep, to the read of the counter that ends `get_cnt`. -/
  getCnt : ℕ
  /-- From there to the read of the compare match flag. -/
  cmpm : ℕ
  /-- From there to the read of the autoreload match flag. -/
  arrm : ℕ
  /-- From there to the new start of the tick timer. -/
  continuous : ℕ

def Sleep.unread (sleep : Sleep) : ℕ :=
  sleep.reset + sleep.single + sleep.cmpm + sleep.arrm + sleep.continuous

/-- `api_hal_os_sleep` and the ticks that it returns. -/
def apiHalOsSleep (s : OsClock) (expectedIdleTicks : ℕ) (sleep : Sleep) : OsClock × ℕ :=
  let count := expectedIdleTicks * apiHalOsClkPerTick
  let afterCnt := timer.counter count sleep.getCnt + s.skew
  let afterTick := afterCnt / apiHalOsClkPerTick
  let cmpm := isActiveFlagCmpm count (sleep.getCnt + sleep.cmpm)
  let arrm := isActiveFlagArrm count (sleep.getCnt + sleep.cmpm + sleep.arrm)
  ({ s with
      elapsed := s.elapsed + sleep.getCnt + sleep.unread
      skew := afterCnt % apiHalOsClkPerTick
      counter := 0 },
    if cmpm && arrm then afterTick + expectedIdleTicks else afterTick)

def vTaskStepTick (s : OsClock) (ticks : ℕ) : OsClock := { s with ticks := s.ticks + ticks }

def expectedTicks (expectedIdleTicks : ℕ) : ℕ :=
  if expectedIdleTicks > apiHalOsMaxSleep then apiHalOsMaxSleep else expectedIdleTicks

def vPortSuppressTicksAndSleep (s : OsClock) (expectedIdleTicks : ℕ) (sleep : Sleep) : OsClock :=
  if ¬sleep.available then s
  else
    let expectedIdleTicks := expectedTicks expectedIdleTicks
    if ¬sleep.confirmed then s
    else
      let (s, completedTicks) := apiHalOsSleep timer s expectedIdleTicks sleep
      if completedTicks > 0 then
        if completedTicks > expectedIdleTicks then vTaskStepTick s expectedIdleTicks
        else vTaskStepTick s completedTicks
      else s

end Steps

inductive OsLabel where
  | run (clocks : ℕ)
  | suppress (expectedIdleTicks : ℕ) (sleep : Sleep)

def osClock (timer : Lptim) : Machine OsClock OsLabel where
  init := ⟨0, 0, 0, 0⟩
  next s l := some <| match l with
    | .run clocks => s.run timer clocks
    | .suppress expectedIdleTicks sleep =>
      vPortSuppressTicksAndSleep timer s expectedIdleTicks sleep

/-- The ticks that were counted and the whole ticks of the time that has passed differ by at most
one. -/
def OsClock.KeepsTime (s : OsClock) : Prop :=
  s.ticks ≤ s.elapsed / apiHalOsClkPerTick + 1 ∧ s.elapsed / apiHalOsClkPerTick ≤ s.ticks + 1

/-- A sleep that begins with a tick, leaves no clock unread and does not go beyond the clocks that
its timer counts. -/
def OnTick (s : OsClock) : OsLabel → Prop
  | .run _ => True
  | .suppress expectedIdleTicks sleep => sleep.available = true → sleep.confirmed = true →
    s.counter = 0 ∧ sleep.unread = 0 ∧
      sleep.getCnt ≤ expectedTicks expectedIdleTicks * apiHalOsClkPerTick

/-- Every clock is in the ticks, in the skew or in the tick timer. -/
structure OsClock.Accounted (s : OsClock) : Prop where
  elapsed : s.elapsed = apiHalOsClkPerTick * s.ticks + s.skew + s.counter
  skew : s.skew < apiHalOsClkPerTick
  counter : s.counter < apiHalOsClkPerTick

section Runs

variable {timer : Lptim} {s s' : OsClock} {l : OsLabel} {clocks expectedIdleTicks : ℕ} {pause : Sleep}

theorem clkPerTick_eq : apiHalOsClkPerTick = 32 := rfl

theorem OsClock.Accounted.run (h : s.Accounted) (htimer : timer.Lawful) (clocks : ℕ) :
    (s.run timer clocks).Accounted := by
  obtain ⟨helapsed, hskew, hcounter⟩ := h
  unfold OsClock.run
  rw [htimer.continuous]
  rw [clkPerTick_eq] at *
  constructor
  · simp only [clkPerTick_eq]
    omega
  · exact hskew
  · exact Nat.mod_lt _ (by decide)

theorem isActiveFlag_ended (hpos : 0 < expectedIdleTicks)
    (hmax : expectedIdleTicks ≤ apiHalOsMaxSleep)
    (hclocks : expectedIdleTicks * apiHalOsClkPerTick ≤ clocks) :
    isActiveFlagCmpm (expectedIdleTicks * apiHalOsClkPerTick) clocks = true ∧
      isActiveFlagArrm (expectedIdleTicks * apiHalOsClkPerTick) clocks = true := by
  have hmax' : expectedIdleTicks ≤ 2046 := hmax
  rw [clkPerTick_eq] at *
  have hcompare : (expectedIdleTicks * 32 + 2 ^ 16 - 3) % 2 ^ 16 ≤ clocks := by omega
  exact ⟨decide_eq_true hcompare, decide_eq_true hclocks⟩

theorem isActiveFlagArrm_running (hclocks : clocks < expectedIdleTicks * apiHalOsClkPerTick) :
    isActiveFlagArrm (expectedIdleTicks * apiHalOsClkPerTick) clocks = false :=
  decide_eq_false (Nat.not_le.mpr hclocks)

/-- A sleep within its timer returns as many ticks as it was long with the skew, and no more than
were expected. -/
theorem OsClock.Accounted.sleep_ticks (h : s.Accounted) (htimer : timer.Lawful)
    (hmax : expectedIdleTicks ≤ apiHalOsMaxSleep) (hunread : pause.unread = 0)
    (hclocks : pause.getCnt ≤ expectedIdleTicks * apiHalOsClkPerTick) :
    let r := apiHalOsSleep timer s expectedIdleTicks pause
    r.2 ≤ expectedIdleTicks ∧ r.1.elapsed = s.elapsed + pause.getCnt ∧
      pause.getCnt + s.skew = apiHalOsClkPerTick * r.2 + r.1.skew ∧
      r.1.skew < apiHalOsClkPerTick := by
  have hskew := h.skew
  obtain ⟨hcmpm, harrm⟩ : pause.cmpm = 0 ∧ pause.arrm = 0 := by
    unfold Sleep.unread at hunread
    omega
  unfold apiHalOsSleep
  simp only [hunread, hcmpm, harrm, Nat.add_zero, true_and]
  rcases Nat.lt_or_ge pause.getCnt (expectedIdleTicks * apiHalOsClkPerTick) with hlt | hge
  · have hflag := isActiveFlagArrm_running hlt
    simp only [htimer.running _ _ hlt, hflag, Bool.and_false, Bool.false_eq_true, if_false]
    rw [clkPerTick_eq] at *
    omega
  · rcases Nat.eq_zero_or_pos expectedIdleTicks with rfl | hpos
    · simp only [htimer.stopped _ _ hge, Nat.add_zero, ite_self]
      rw [clkPerTick_eq] at *
      omega
    · obtain ⟨hcompare, hreload⟩ := isActiveFlag_ended hpos hmax hge
      simp only [htimer.stopped _ _ hge, hcompare, hreload, Bool.and_self, if_true]
      rw [clkPerTick_eq] at *
      omega

theorem expectedTicks_le (expectedIdleTicks : ℕ) :
    expectedTicks expectedIdleTicks ≤ apiHalOsMaxSleep := by
  unfold expectedTicks
  split
  · exact Nat.le_refl _
  · omega

theorem OsClock.Accounted.step {r : OsClock × ℕ} (h : s.Accounted) (hcounter : s.counter = 0)
    (helapsed : r.1.elapsed = s.elapsed + clocks) (hticks : r.1.ticks = s.ticks)
    (hcounter' : r.1.counter = 0)
    (hsum : clocks + s.skew = apiHalOsClkPerTick * r.2 + r.1.skew)
    (hskew : r.1.skew < apiHalOsClkPerTick) : (vTaskStepTick r.1 r.2).Accounted := by
  have hall := h.elapsed
  rw [clkPerTick_eq] at *
  constructor
  · simp only [vTaskStepTick, clkPerTick_eq]
    omega
  · exact hskew
  · simp only [vTaskStepTick, clkPerTick_eq]
    omega

theorem OsClock.Accounted.suppress (h : s.Accounted) (htimer : timer.Lawful)
    (hok : OnTick s (.suppress expectedIdleTicks pause)) :
    (vPortSuppressTicksAndSleep timer s expectedIdleTicks pause).Accounted := by
  unfold vPortSuppressTicksAndSleep
  by_cases havailable : pause.available = true
  · rw [if_neg (not_not.mpr havailable)]
    by_cases hconfirmed : pause.confirmed = true
    · obtain ⟨hcounter, hunread, hclocks⟩ := hok havailable hconfirmed
      obtain ⟨hle, helapsed, hsum, hskew⟩ :=
        h.sleep_ticks htimer (expectedTicks_le expectedIdleTicks) hunread hclocks
      have hstep := h.step hcounter helapsed rfl rfl hsum hskew
      simp only [if_neg (not_not.mpr hconfirmed), if_neg (Nat.not_lt.mpr hle)]
      split
      · exact hstep
      · next hzero =>
        have hnone := Nat.eq_zero_of_not_pos hzero
        rwa [hnone] at hstep
    · simp only [if_pos hconfirmed]
      exact h
  · rw [if_pos havailable]
    exact h

theorem OsClock.Accounted.keepsTime (h : s.Accounted) : s.KeepsTime := by
  obtain ⟨helapsed, hskew, hcounter⟩ := h
  unfold OsClock.KeepsTime
  rw [clkPerTick_eq] at *
  omega

/-- In every run whose sleeps begin with a tick, leave no clock unread and stay within their timer,
the ticks keep time. -/
theorem os_ticks_keep_time (htimer : timer.Lawful) (h : (osClock timer).ReachableWith OnTick s) :
    s.KeepsTime := by
  have haccounted : s.Accounted := by
    refine h.invariant ⟨rfl, Nat.succ_pos 31, Nat.succ_pos 31⟩ ?_
    rintro s l s' hs hok ⟨⟩
    cases l with
    | run clocks => exact hs.run htimer clocks
    | suppress expectedIdleTicks pause => exact hs.suppress htimer hok
  exact haccounted.keepsTime

def countingTimer : Lptim := ⟨id, fun autoReload clocks => if clocks < autoReload then clocks else 0⟩

theorem countingTimer_lawful : countingTimer.Lawful where
  continuous := rfl
  running _ _ h := if_pos h
  stopped _ _ h := if_neg (Nat.not_lt.mpr h)

def wakeUp (clocks : ℕ) : Sleep := ⟨true, true, 0, 0, clocks, 0, 0, 0⟩

theorem os_ticks_keep_time_early :
    ((vPortSuppressTicksAndSleep countingTimer ⟨0, 0, 0, 0⟩ 8 (wakeUp 100)).run
      countingTimer 31).KeepsTime := by
  have hok : OnTick ⟨0, 0, 0, 0⟩ (.suppress 8 (wakeUp 100)) := fun _ _ => ⟨rfl, rfl, by decide⟩
  have hinit : (osClock countingTimer).ReachableWith OnTick ⟨0, 0, 0, 0⟩ := .init
  have hsleep := hinit.step hok rfl
  have hok' (s : OsClock) : OnTick s (.run 31) := trivial
  have hrun := hsleep.step (hok' _) rfl
  exact os_ticks_keep_time countingTimer_lawful hrun

/-- The clocks since the last tick are lost in every sleep: after three sleeps of eight ticks, each
begun 31 clocks behind a tick, two ticks are missing. -/
theorem not_os_ticks_keep_time : ¬∀ timer : Lptim, timer.Lawful → ∀ s,
    (osClock timer).Reachable s → s.KeepsTime := by
  intro h
  have hrun : (osClock countingTimer).exec (osClock countingTimer).init
      [.run 31, .suppress 8 (wakeUp 256), .run 31, .suppress 8 (wakeUp 256),
        .run 31, .suppress 8 (wakeUp 256)] = some ⟨861, 24, 0, 0⟩ := rfl
  have hkeeps := h countingTimer countingTimer_lawful _ (Machine.exec_reachable .init hrun)
  exact absurd hkeeps.2 (by decide)

end Runs

end FlipperZero.Firmware
