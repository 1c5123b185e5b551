import Mathlib.Data.List.Basic

/-! # Input pins

The input task samples the level of every pin in turn. A sample moves the debounce counter
while it is strictly between its ends, and otherwise sets the state of the key, which the
task then publishes.
-/

namespace FlipperZero.Input

inductive InputType where
  | press
  | release
  | short
  | long
  | repeated
deriving DecidableEq, Repr

def inputDebounceTicks : ℕ := 20
def inputDebounceTicksHalf : ℕ := inputDebounceTicks / 2
def inputLongPressCounts : ℕ := 4

structure InputPinState where
  state : Bool
  debounce : ℕ
  pressCounter : ℕ
deriving DecidableEq, Repr

inductive Sampled where
  | changing
  | changed
  | same
deriving DecidableEq, Repr

namespace InputPinState

/-- The pin at the start of the task, with the level read there. -/
def init (level : Bool) : InputPinState := ⟨level, inputDebounceTicksHalf, 0⟩

def sample (p : InputPinState) (level : Bool) : InputPinState × Sampled :=
  if 0 < p.debounce ∧ p.debounce < inputDebounceTicks then
    ({ p with debounce := if level then p.debounce + 1 else p.debounce - 1 }, .changing)
  else if p.state ≠ level then ({ p with state := level }, .changed)
  else (p, .same)

end InputPinState

/-- The event published first for a change of the state. -/
def changeType (state : Bool) : InputType := if state then .press else .release

end FlipperZero.Input
