import FlipperZero.Lib.Machine
import Mathlib.Logic.Function.Basic

/-! # Value mutexes

A value in memory and the mutex that guards it. The mutex is not recursive, and only the
thread that holds it can give it back. Every byte that `memcpy` copies is a step, so a copy can
be interleaved with anything that other threads do.
-/

namespace FlipperZero.Furi

open Lib

def osWaitForever : ℕ := 0xFFFFFFFF

inductive Call (Byte : Type) where
  | acquireMutex (timeout : ℕ)
  /-- `valid` says that the pointer given is the one to the value. -/
  | releaseMutex (valid : Bool)
  | readMutex (len timeout : ℕ)
  | writeMutex (data : ℕ → Byte) (len timeout : ℕ)

variable {Thread Byte : Type}

def Call.timeout : Call Byte → ℕ
  | .acquireMutex timeout | .readMutex _ timeout | .writeMutex _ _ timeout => timeout
  | .releaseMutex _ => 0

/-- Where a thread is inside a call, with what the call has read or how much it has written, and
whether the thread held the mutex when it made the call. -/
inductive Pc (Byte : Type) where
  | idle
  | acquire (c : Call Byte) (held : Bool)
  | locked (c : Call Byte) (held : Bool)
  | load (len : ℕ) (held : Bool) (got : List Byte)
  | store (data : ℕ → Byte) (len : ℕ) (held : Bool) (count : ℕ)
  | readRelease (len : ℕ) (held : Bool) (got : List Byte)
  | writeRelease (len : ℕ) (held : Bool) (count : ℕ)
  | release (held : Bool)

/-- What `read_mutex` or `write_mutex` returned, with the bytes it handed over, the number of
bytes it stored, and whether its thread held the mutex before and after. -/
structure Return (Byte : Type) where
  len : ℕ
  result : Bool
  data : List Byte
  stored : ℕ
  before : Bool
  after : Bool

structure Store (Byte : Type) where
  data : ℕ → Byte
  length : ℕ

structure State (Thread Byte : Type) where
  /-- The memory from the value on. -/
  value : ℕ → Byte
  mutex : Option Thread
  pc : Thread → Pc Byte
  /-- The newest first. -/
  stores : List (Store Byte)
  reads : List (Return Byte)
  writes : List (Return Byte)

inductive Label (Thread Byte : Type) where
  | call (t : Thread) (c : Call Byte)
  | timeout (t : Thread)
  | step (t : Thread)

def copyLength (size len : ℕ) : ℕ := if 0 < len then len else size

variable [DecidableEq Thread]

namespace State

variable (s : State Thread Byte) (t : Thread)

def holds : Bool := s.mutex = some t

def goto (p : Pc Byte) : State Thread Byte := { s with pc := Function.update s.pc t p }

def call (c : Call Byte) : Option (State Thread Byte) :=
  match s.pc t with
  | .idle =>
    match c with
    | .releaseMutex valid => some (if valid then s.goto t (.release (s.holds t)) else s)
    | c => some (s.goto t (.acquire c (s.holds t)))
  | _ => none

/-- `osMutexRelease`, which fails for a thread that does not hold the mutex. -/
def osMutexRelease : State Thread Byte × Bool :=
  if s.mutex = some t then ({ s with mutex := none }, true) else (s, false)

def returnRead (len : ℕ) (held result : Bool) (data : List Byte) : State Thread Byte :=
  { s.goto t .idle with reads := ⟨len, result, data, 0, held, s.holds t⟩ :: s.reads }

def returnWrite (len : ℕ) (held result : Bool) (count : ℕ) : State Thread Byte :=
  { s.goto t .idle with writes := ⟨len, result, [], count, held, s.holds t⟩ :: s.writes }

def refuse (c : Call Byte) (held : Bool) : State Thread Byte :=
  match c with
  | .readMutex len _ => s.returnRead t len held false []
  | .writeMutex _ len _ => s.returnWrite t len held false 0
  | _ => s.goto t .idle

/-- `osMutexAcquire` gives up; it waits at most as long as it was told to. -/
def timeout : Option (State Thread Byte) :=
  match s.pc t with
  | .acquire c held =>
    if s.mutex ≠ none ∧ c.timeout ≠ osWaitForever then some (s.refuse t c held) else none
  | _ => none

def step (size : ℕ) : Option (State Thread Byte) :=
  match s.pc t with
  | .idle => none
  | .acquire c held =>
    if s.mutex = none then some ({ s with mutex := some t }.goto t (.locked c held)) else none
  | .locked c held =>
    match c with
    | .readMutex len _ =>
      if size < len then some (s.refuse t c held) else some (s.goto t (.load len held []))
    | .writeMutex data len _ =>
      if size < len then some (s.refuse t c held) else some (s.goto t (.store data len held 0))
    | _ => some (s.goto t .idle)
  | .load len held got =>
    if got.length < copyLength size len then
      some (s.goto t (.load len held (got ++ [s.value got.length])))
    else some (s.goto t (.readRelease len held got))
  | .store data len held count =>
    if count < copyLength size len then
      some ({ s with value := Function.update s.value count (data count) }.goto t
        (.store data len held (count + 1)))
    else
      some ({ s with stores := ⟨data, copyLength size len⟩ :: s.stores }.goto t
        (.writeRelease len held count))
  | .readRelease len held got =>
    some ((s.osMutexRelease t).1.returnRead t len held (s.osMutexRelease t).2 got)
  | .writeRelease len held count =>
    some ((s.osMutexRelease t).1.returnWrite t len held (s.osMutexRelease t).2 count)
  | .release _ => some ((s.osMutexRelease t).1.goto t .idle)

end State

/-- The threads around a value of `size` bytes that `init_mutex` has been given. -/
def valueMutex (Thread : Type) [DecidableEq Thread] (size : ℕ) (value : ℕ → Byte) :
    Machine (State Thread Byte) (Label Thread Byte) where
  init :=
    { value := value, mutex := none, pc := fun _ => .idle, stores := [], reads := [], writes := [] }
  next s l :=
    match l with
    | .call t c => s.call t c
    | .timeout t => s.timeout t
    | .step t => s.step t size

end FlipperZero.Furi
