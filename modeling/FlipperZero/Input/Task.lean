import FlipperZero.Input.Pin
import FlipperZero.Lib.Machine
import FlipperZero.Rtos.Timers

/-! # The input task and its press timers

One machine interleaves the loop of the input task over its pins with the timer task,
which runs the callback of one press timer at a time. A step is one access to what the
two share: a publication, a command to a timer, or the press counter.
-/

namespace FlipperZero.Input

open Lib Rtos

variable {n : ℕ}

/-- How far the callback of a press timer is. -/
inductive PressTimerCallback where
  | entered
  | counted
  | notify (type : InputType)
deriving DecidableEq, Repr

inductive TaskPc (n : ℕ) where
  | read (pin : ℕ)
  | notify (key : Fin n) (state : Bool)
  | timerStart (key : Fin n)
  | timerStop (key : Fin n)
  | timerStopWait (key : Fin n)
  | short (key : Fin n)
  | reset (key : Fin n)
  | sleep
deriving DecidableEq, Repr

structure InputState (n : ℕ) where
  pins : Fin n → InputPinState
  pc : TaskPc n
  isChanging : Bool
  timers : Timers (Fin n) PressTimerCallback
  /-- What was published, oldest first. -/
  events : List (Fin n × InputType)

namespace InputState

def setPin (s : InputState n) (k : Fin n) (p : InputPinState) : InputState n :=
  { s with pins := Function.update s.pins k p }

def notifyPubsub (s : InputState n) (k : Fin n) (type : InputType) : InputState n :=
  { s with events := s.events ++ [(k, type)] }

def goto (s : InputState n) (pc : TaskPc n) : InputState n := { s with pc := pc }

def read (s : InputState n) (level : Bool) : Option (InputState n) :=
  match s.pc with
  | .read i =>
    if h : i < n then
      let k : Fin n := ⟨i, h⟩
      match (s.pins k).sample level with
      | (p, .changing) => some { s.setPin k p with isChanging := true, pc := .read (i + 1) }
      | (p, .changed) => some ((s.setPin k p).goto (.notify k level))
      | (p, .same) => some ((s.setPin k p).goto (.read (i + 1)))
    else none
  | _ => none

def taskStep (s : InputState n) : Option (InputState n) :=
  match s.pc with
  | .read i => if i < n then none else some (s.goto .sleep)
  | .notify k state =>
    some ((s.notifyPubsub k (changeType state)).goto (if state then .timerStart k else .timerStop k))
  | .timerStart k =>
    (s.timers.post k .changePeriod).map fun t => { s with timers := t, pc := .read (k + 1) }
  | .timerStop k =>
    (s.timers.post k .stop).map fun t => { s with timers := t, pc := .timerStopWait k }
  | .timerStopWait k => if s.timers.active k then some s else some (s.goto (.short k))
  | .short k =>
    if (s.pins k).pressCounter < inputLongPressCounts then
      some ((s.notifyPubsub k .short).goto (.reset k))
    else some (s.goto (.reset k))
  | .reset k => some ((s.setPin k { s.pins k with pressCounter := 0 }).goto (.read (k + 1)))
  | .sleep => none

/-- The end of the delay, or a flag from an interrupt. -/
def wake (s : InputState n) : Option (InputState n) :=
  match s.pc with
  | .sleep => some { s with isChanging := false, pc := .read 0 }
  | _ => none

/-- The steps of `input_press_timer_callback`. -/
def inputPressTimerCallback (s : InputState n) : Option (InputState n) :=
  match s.timers.task with
  | .callback k .entered =>
    some { s.setPin k { s.pins k with pressCounter := ((s.pins k).pressCounter + 1) % 256 } with
      timers := s.timers.setTask (.callback k .counted) }
  | .callback k .counted =>
    if (s.pins k).pressCounter = inputLongPressCounts then
      some { s with timers := s.timers.setTask (.callback k (.notify .long)) }
    else if (s.pins k).pressCounter > inputLongPressCounts then
      some { s.setPin k { s.pins k with pressCounter := ((s.pins k).pressCounter + 255) % 256 } with
        timers := s.timers.setTask (.callback k (.notify .repeated)) }
    else some { s with timers := s.timers.setTask .drain }
  | .callback k (.notify type) =>
    some { s.notifyPubsub k type with timers := s.timers.setTask .drain }
  | _ => none

end InputState

inductive InputLabel (n : ℕ) where
  | read (level : Bool)
  | task
  | wake
  | timers
  | expire (key : Fin n)
  | callback

/-- The input task over `n` pins, from the levels that it reads when it starts. -/
def inputTask (levels : Fin n → Bool) : Machine (InputState n) (InputLabel n) where
  init := ⟨fun k => .init (levels k), .read 0, false, .init, []⟩
  next s
    | .read level => s.read level
    | .task => s.taskStep
    | .wake => s.wake
    | .timers => s.timers.turn.map fun t => { s with timers := t }
    | .expire k => (s.timers.expire k .entered).map fun t => { s with timers := t }
    | .callback => s.inputPressTimerCallback

def InputState.eventsOf (s : InputState n) (k : Fin n) : List InputType :=
  (s.events.filter fun e => e.1 = k).map Prod.snd

namespace InputState

variable {s : InputState n} {k k' : Fin n}

@[simp]
theorem setPin_self (p : InputPinState) : (s.setPin k p).pins k = p := by simp [setPin]

theorem setPin_of_ne (p : InputPinState) (h : k' ≠ k) : (s.setPin k p).pins k' = s.pins k' := by
  simp [setPin, h]

theorem setPin_state {p : InputPinState} (hp : p.state = (s.pins k).state) (k' : Fin n) :
    ((s.setPin k p).pins k').state = (s.pins k').state := by
  by_cases h : k' = k
  · subst h
    simpa using hp
  · rw [setPin_of_ne p h]

end InputState

end FlipperZero.Input
