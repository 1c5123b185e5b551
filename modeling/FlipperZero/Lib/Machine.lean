import Mathlib.Logic.Relation
import Mathlib.Data.List.Basic

/-! # Machines given by a partial transition function

A machine has one initial state and a partial step function on labels. A label
that yields no state is blocked there. Runs are restricted by a predicate on the
steps they take, so an assumption on the clients is an assumption on the run.
-/

namespace FlipperZero.Lib

structure Machine (σ ι : Type*) where
  init : σ
  next : σ → ι → Option σ

namespace Machine

variable {σ ι : Type*} (M : Machine σ ι)

/-- A step with some label that the predicate admits in the state before it. -/
def StepWith (ok : σ → ι → Prop) (s s' : σ) : Prop := ∃ l, ok s l ∧ M.next s l = some s'

def ReachableWith (ok : σ → ι → Prop) : σ → Prop :=
  Relation.ReflTransGen (M.StepWith ok) M.init

def Reachable : σ → Prop := M.ReachableWith fun _ _ => True

variable {M} {ok ok' : σ → ι → Prop} {P : σ → Prop} {s s' : σ} {l : ι}

theorem ReachableWith.init : M.ReachableWith ok M.init := .refl

theorem ReachableWith.step (h : M.ReachableWith ok s) (hok : ok s l)
    (hs : M.next s l = some s') : M.ReachableWith ok s' :=
  .tail h ⟨l, hok, hs⟩

theorem Reachable.step (h : M.Reachable s) (hs : M.next s l = some s') : M.Reachable s' :=
  ReachableWith.step h trivial hs

/-- What holds initially and is kept by every admitted step holds along every admitted run. -/
theorem ReachableWith.invariant (h0 : P M.init)
    (hstep : ∀ s l s', P s → ok s l → M.next s l = some s' → P s')
    (h : M.ReachableWith ok s) : P s := by
  induction h with
  | refl => exact h0
  | tail _ hs ih =>
    obtain ⟨l, hok, hs⟩ := hs
    exact hstep _ l _ ih hok hs

theorem Reachable.invariant (h0 : P M.init)
    (hstep : ∀ s l s', P s → M.next s l = some s' → P s') (h : M.Reachable s) : P s :=
  ReachableWith.invariant h0 (fun s l s' hp _ hs => hstep s l s' hp hs) h

theorem ReachableWith.mono (hle : ∀ s l, ok s l → ok' s l) (h : M.ReachableWith ok s) :
    M.ReachableWith ok' s :=
  h.invariant (P := M.ReachableWith ok') .init fun _ _ _ hr hok hs => hr.step (hle _ _ hok) hs

theorem ReachableWith.reachable (h : M.ReachableWith ok s) : M.Reachable s :=
  h.mono fun _ _ _ => trivial

section Execution

variable [∀ s l, Decidable (ok s l)]

variable (M ok) in
/-- Run a list of labels; `none` when one of them is blocked or not admitted. -/
def execWith : σ → List ι → Option σ
  | s, [] => some s
  | s, l :: ls => if ok s l then (M.next s l).bind fun s' => execWith s' ls else none

theorem execWith_reachableWith {ls : List ι} (h : M.ReachableWith ok s)
    (hs : M.execWith ok s ls = some s') : M.ReachableWith ok s' := by
  induction ls generalizing s with
  | nil => exact Option.some.inj hs ▸ h
  | cons l ls ih =>
    unfold execWith at hs
    split at hs
    · next hok =>
      obtain ⟨t, ht, hs⟩ := Option.bind_eq_some_iff.mp hs
      exact ih (h.step hok ht) hs
    · cases hs

theorem execWith_append {ls ls' : List ι} : M.execWith ok s (ls ++ ls') =
    (M.execWith ok s ls).bind fun s' => M.execWith ok s' ls' := by
  induction ls generalizing s with
  | nil => rfl
  | cons l ls ih =>
    rw [List.cons_append, execWith, execWith]
    split
    · rw [Option.bind_assoc]
      exact congrArg _ (funext fun _ => ih)
    · rfl

theorem execWith_concat {ls : List ι} (hs : M.execWith ok s (ls ++ [l]) = some s') :
    ∃ t, M.execWith ok s ls = some t ∧ ok t l ∧ M.next t l = some s' := by
  rw [execWith_append] at hs
  obtain ⟨t, ht, hs⟩ := Option.bind_eq_some_iff.mp hs
  refine ⟨t, ht, ?_⟩
  simp only [execWith] at hs
  split at hs
  · next hok => exact ⟨hok, by simpa using hs⟩
  · cases hs

end Execution

variable (M) in
def exec : σ → List ι → Option σ := M.execWith fun _ _ => True

theorem exec_cons {ls : List ι} (h : M.next s l = some s') :
    M.exec s (l :: ls) = M.exec s' ls := by
  simp [exec, execWith, h]

theorem exec_cons_some {ls : List ι} (h : M.exec s (l :: ls) = some s') :
    ∃ t, M.next s l = some t ∧ M.exec t ls = some s' := by
  rw [exec, execWith, if_pos trivial] at h
  exact Option.bind_eq_some_iff.mp h

theorem exec_reachable {ls : List ι} (h : M.Reachable s) (hs : M.exec s ls = some s') :
    M.Reachable s' :=
  execWith_reachableWith h hs

end Machine

end FlipperZero.Lib
