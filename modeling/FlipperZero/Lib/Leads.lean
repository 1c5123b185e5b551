import FlipperZero.Lib.Machine
import Mathlib.Logic.Function.Iterate

/-! # What repeated steps lead to

A system that takes the same step again and again leads to a property when some number of
steps gives a state that has it. A measure that falls until the property holds is enough.
-/

namespace FlipperZero.Lib

variable {σ ι : Type*} {f : σ → σ} {P Q I : σ → Prop} {s : σ}

def Leads (f : σ → σ) (s : σ) (P : σ → Prop) : Prop := ∃ n, P (f^[n] s)

namespace Leads

theorem now (h : P s) : Leads f s P := ⟨0, h⟩

theorem step (h : Leads f (f s) P) : Leads f s P := by
  obtain ⟨n, hn⟩ := h
  exact ⟨n + 1, hn⟩

theorem trans (h : Leads f s P) (hnext : ∀ t, P t → Leads f t Q) : Leads f s Q := by
  obtain ⟨n, hn⟩ := h
  obtain ⟨m, hm⟩ := hnext _ hn
  refine ⟨m + n, ?_⟩
  rwa [Function.iterate_add_apply]

theorem mono (h : Leads f s P) (himp : ∀ t, P t → Q t) : Leads f s Q := by
  obtain ⟨n, hn⟩ := h
  exact ⟨n, himp _ hn⟩

theorem invariant (hstep : ∀ t, I t → I (f t)) (h : Leads f s P) (hs : I s) :
    Leads f s fun t => I t ∧ P t := by
  obtain ⟨n, hn⟩ := h
  refine ⟨n, ?_, hn⟩
  clear hn
  induction n generalizing s with
  | zero => exact hs
  | succ n ih => exact ih (hstep s hs)

theorem of_measure (m : σ → ℕ) (hstep : ∀ t, I t → P t ∨ I (f t) ∧ m (f t) < m t) (hs : I s) :
    Leads f s P := by
  generalize hk : m s = k
  induction k using Nat.strongRecOn generalizing s with
  | ind k ih =>
    rcases hstep s hs with hp | ⟨hi, hlt⟩
    · exact now hp
    · exact step (ih _ (hk ▸ hlt) hi rfl)

theorem of_semiconj {τ : Type*} {g : σ → τ} {f' : τ → τ} {P : τ → Prop}
    (hstep : ∀ t, I t → I (f t) ∧ g (f t) = f' (g t)) (hs : I s) (h : Leads f' (g s) P) :
    Leads f s fun t => I t ∧ P (g t) := by
  obtain ⟨n, hn⟩ := h
  induction n generalizing s with
  | zero => exact now ⟨hs, hn⟩
  | succ n ih =>
    obtain ⟨hinv, hmap⟩ := hstep s hs
    exact step (ih hinv (by rwa [hmap]))

theorem reachable {M : Machine σ ι} (h : Leads f s P) (hs : M.Reachable s)
    (hstep : ∀ t, ∃ l, M.next t l = some (f t)) : ∃ t, M.Reachable t ∧ P t := by
  have hlead := h.invariant (I := M.Reachable) (fun t ht => ?_) hs
  · obtain ⟨n, hn⟩ := hlead
    exact ⟨_, hn⟩
  · obtain ⟨l, hl⟩ := hstep t
    exact ht.step hl

end Leads

end FlipperZero.Lib
