import Mathlib.Data.List.Basic
import Mathlib.Order.MinMax

/-! # Processes on an open-drain line

Time on the line is cut into slots at its falling edges. In each slot every process
holds the line low for some time from the edge, so the line stays low for the longest
of these times, and every process goes on from what it saw.
-/

namespace FlipperZero.Lib

/-- A slot as it is seen on the line: the time it stays low, and the time to the next edge. -/
structure Slot where
  low : ℕ
  period : ℕ

inductive Proc where
  | done
  | slot (hold : ℕ) (next : Slot → Proc)

namespace Proc

def hold : Proc → ℕ
  | done => 0
  | slot hold _ => hold

def step : Proc → Slot → Proc
  | done, _ => done
  | slot _ next, s => next s

def Silent : Proc → Prop
  | done => True
  | slot hold next => hold = 0 ∧ ∀ s, (next s).Silent

@[simp] theorem hold_done : done.hold = 0 := rfl

@[simp] theorem hold_slot (hold : ℕ) (next : Slot → Proc) : (slot hold next).hold = hold := rfl

@[simp] theorem step_done (s : Slot) : done.step s = done := rfl

@[simp] theorem step_slot (hold : ℕ) (next : Slot → Proc) (s : Slot) :
    (slot hold next).step s = next s := rfl

theorem Silent.hold_eq {p : Proc} (h : p.Silent) : p.hold = 0 := by
  cases p with
  | done => rfl
  | slot hold next => exact h.1

theorem Silent.step {p : Proc} (h : p.Silent) (s : Slot) : (p.step s).Silent := by
  cases p with
  | done => trivial
  | slot hold next => exact h.2 s

/-- Through these slots the process holds nothing, and it ends up as `q`. -/
def Hears : Proc → List Slot → Proc → Prop
  | p, [], q => p = q
  | p, s :: ss, q => p.hold = 0 ∧ (p.step s).Hears ss q

end Proc

/-- How long the line stays low when the driver and the processes pull it. -/
def lineLow (drive : ℕ) (holds : List ℕ) : ℕ := holds.foldr max drive

theorem lineLow_le_iff {drive t : ℕ} {holds : List ℕ} :
    lineLow drive holds ≤ t ↔ drive ≤ t ∧ ∀ h ∈ holds, h ≤ t := by
  induction holds with
  | nil => simp [lineLow]
  | cons h holds ih =>
    have hcons : lineLow drive (h :: holds) = max h (lineLow drive holds) := rfl
    rw [hcons, max_le_iff, ih, List.forall_mem_cons]
    exact and_left_comm

theorem lineLow_eq_drive {drive : ℕ} {holds : List ℕ} (h : ∀ t ∈ holds, t = 0) :
    lineLow drive holds = drive := by
  induction holds with
  | nil => rfl
  | cons t holds ih =>
    have hcons : lineLow drive (t :: holds) = max t (lineLow drive holds) := rfl
    obtain ⟨ht, hrest⟩ := List.forall_mem_cons.mp h
    rw [hcons, ht, ih hrest]
    exact Nat.zero_max drive

end FlipperZero.Lib
