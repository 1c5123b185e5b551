import Mathlib.Logic.Function.Basic

/-! # Thread flags

Every thread owns a 32-bit set of flags. Any thread sets bits of any other one;
a thread that waits for any of some bits is blocked until one is set and takes
the bits it waited for.
-/

namespace FlipperZero.Rtos

variable {Thread : Type} [DecidableEq Thread]

abbrev ThreadFlags (Thread : Type) := Thread → BitVec 32

/-- Some of the bits in `f` is set for the thread `t`. -/
def Pending (flags : ThreadFlags Thread) (t : Thread) (f : BitVec 32) : Prop :=
  flags t &&& f ≠ 0

instance (flags : ThreadFlags Thread) (t : Thread) (f : BitVec 32) :
    Decidable (Pending flags t f) :=
  inferInstanceAs (Decidable (_ ≠ _))

def osThreadFlagsSet (flags : ThreadFlags Thread) (t : Thread) (f : BitVec 32) :
    ThreadFlags Thread :=
  Function.update flags t (flags t ||| f)

/-- `osThreadFlagsWait` with `osFlagsWaitAny` and `osWaitForever`: `none` while blocked. -/
def osThreadFlagsWait (flags : ThreadFlags Thread) (t : Thread) (f : BitVec 32) :
    Option (ThreadFlags Thread) :=
  if Pending flags t f then some (Function.update flags t (flags t &&& ~~~f)) else none

def osThreadFlagsClear (flags : ThreadFlags Thread) (t : Thread) (f : BitVec 32) :
    ThreadFlags Thread :=
  Function.update flags t (flags t &&& ~~~f)

variable {flags flags' : ThreadFlags Thread} {t u : Thread} {f : BitVec 32}

theorem pending_set_self (hf : f ≠ 0) : Pending (osThreadFlagsSet flags t f) t f := by
  intro h
  apply hf
  have hb : f &&& (flags t ||| f) = f := by
    ext i; simp; grind
  rw [← hb, BitVec.and_comm]
  simpa [osThreadFlagsSet] using h

theorem Pending.set (h : Pending flags u f) (g : BitVec 32) :
    Pending (osThreadFlagsSet flags t g) u f := by
  by_cases hu : u = t
  · subst hu
    intro hz
    apply h
    ext i hi
    have := congrArg (fun b : BitVec 32 => b[i]) hz
    simp [osThreadFlagsSet] at this ⊢
    grind
  · simpa [Pending, osThreadFlagsSet, hu] using h

theorem pending_set_of_ne (hu : u ≠ t) (g : BitVec 32) :
    Pending (osThreadFlagsSet flags t g) u f ↔ Pending flags u f := by
  simp [Pending, osThreadFlagsSet, hu]

theorem pending_of_wait (h : osThreadFlagsWait flags t f = some flags') : Pending flags t f := by
  unfold osThreadFlagsWait at h
  split at h
  · assumption
  · cases h

theorem wait_of_ne (h : osThreadFlagsWait flags t f = some flags') (hu : u ≠ t) :
    flags' u = flags u := by
  unfold osThreadFlagsWait at h
  split at h
  · cases h; simp [hu]
  · cases h

theorem Pending.wait_of_ne (hp : Pending flags u f) (hu : u ≠ t) {g : BitVec 32}
    (h : osThreadFlagsWait flags t g = some flags') : Pending flags' u f := by
  simpa [Pending, Rtos.wait_of_ne h hu] using hp

theorem Pending.clear {g : BitVec 32} (h : Pending flags t f) (hd : f &&& g = 0) :
    Pending (osThreadFlagsClear flags t g) t f := by
  intro hz
  apply h
  ext i hi
  have h1 := congrArg (fun b : BitVec 32 => b[i]) hz
  have h2 := congrArg (fun b : BitVec 32 => b[i]) hd
  simp [osThreadFlagsClear] at h1 h2 ⊢
  grind

end FlipperZero.Rtos
