import Mathlib.Algebra.BigOperators.Group.List.Basic
import Mathlib.Algebra.GroupWithZero.Nat

/-! # Run-length lists

A waveform is a list of segments, each with a level and a length. Its run-length list
joins adjacent segments of one level. A block of one level in front of another level is
one run.
-/

namespace FlipperZero.Lib

section Expand

variable {α : Type*} {a : α} {l r : List (α × ℕ)}

def expand (l : List (α × ℕ)) : List α := l.flatMap fun s => List.replicate s.2 s.1

@[simp]
theorem expand_append : expand (l ++ r) = expand l ++ expand r := List.flatMap_append

theorem length_expand : (expand l).length = (l.map Prod.snd).sum := by
  simp [expand, List.length_flatMap]

theorem expand_block (ha : ∀ s ∈ l, s.1 = a) : expand l = List.replicate (l.map Prod.snd).sum a := by
  induction l with
  | nil => rfl
  | cons s l ih =>
    have hs := ha s List.mem_cons_self
    have hl := ih fun s hs => ha s (List.mem_cons_of_mem _ hs)
    rw [List.map_cons, List.sum_cons, ← List.replicate_append_replicate, ← hl, ← hs]
    rfl

end Expand

variable {α M : Type*} [DecidableEq α] [AddMonoid M]

def joinRun (s : α × M) : List (α × M) → List (α × M)
  | [] => [s]
  | r :: rs => if s.1 = r.1 then (s.1, s.2 + r.2) :: rs else s :: r :: rs

def runs (l : List (α × M)) : List (α × M) := l.foldr joinRun []

variable {a : α} {l r : List (α × M)}

@[simp]
theorem runs_nil : runs ([] : List (α × M)) = [] := rfl

@[simp]
theorem runs_cons (s : α × M) : runs (s :: l) = joinRun s (runs l) := rfl

theorem head?_joinRun (s : α × M) : ((joinRun s l).head?.map Prod.fst) = some s.1 := by
  cases l with
  | nil => rfl
  | cons r rs =>
    by_cases h : s.1 = r.1 <;> simp [joinRun, h]

theorem head?_runs : (runs l).head?.map Prod.fst = l.head?.map Prod.fst := by
  cases l with
  | nil => rfl
  | cons s l => exact head?_joinRun s

theorem joinRun_of_head_ne {m : M} (h : r.head?.map Prod.fst ≠ some a) :
    joinRun (a, m) r = (a, m) :: r := by
  cases r with
  | nil => rfl
  | cons s r =>
    have hne : a ≠ s.1 := by
      rintro rfl
      exact h rfl
    exact if_neg hne

theorem runs_block (hl : l ≠ []) (ha : ∀ s ∈ l, s.1 = a) (h : r.head?.map Prod.fst ≠ some a) :
    runs (l ++ r) = (a, (l.map Prod.snd).sum) :: runs r := by
  induction l with
  | nil => exact absurd rfl hl
  | cons s l ih =>
    obtain ⟨b, m⟩ := s
    obtain rfl : b = a := ha _ List.mem_cons_self
    rcases eq_or_ne l [] with rfl | hne
    · have hr : (runs r).head?.map Prod.fst ≠ some b := by rwa [head?_runs]
      simpa using joinRun_of_head_ne hr
    · have hih := ih hne fun s hs => ha s (List.mem_cons_of_mem _ hs)
      simp only [List.cons_append, runs_cons, hih, joinRun, List.map_cons, List.sum_cons, ↓reduceIte]

end FlipperZero.Lib
