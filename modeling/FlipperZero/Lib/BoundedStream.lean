import Mathlib.Data.List.Basic

/-! # Bounded streams

A buffer with room for a number of elements takes as much of each message as fits, and gives
them to a reader in order. What was read and what still waits is a subsequence of what was sent,
and all of it as long as nothing was lost.
-/

namespace FlipperZero.Lib

structure BoundedStream (α : Type*) (capacity : ℕ) where
  content : List α
  length_le : content.length ≤ capacity

namespace BoundedStream

variable {α : Type*} {capacity : ℕ}

def empty : BoundedStream α capacity := ⟨[], Nat.zero_le capacity⟩

variable (s : BoundedStream α capacity)

def sent (xs : List α) : ℕ := min xs.length (capacity - s.content.length)

def send (xs : List α) : BoundedStream α capacity where
  content := s.content ++ xs.take (s.sent xs)
  length_le := by
    have hle := s.length_le
    rw [List.length_append, List.length_take, sent]
    omega

/-- The elements that a reader gets who asks for some; it waits for the first one. -/
def receive (n : ℕ) : Option (List α × BoundedStream α capacity) :=
  if s.content = [] then none
  else some (s.content.take n, ⟨s.content.drop n, Nat.le_trans (s.content.drop_sublist n).length_le s.length_le⟩)

variable {s} {offered taken xs : List α} {lost n : ℕ}

theorem sent_le : s.sent xs ≤ xs.length := Nat.min_le_left _ _

@[simp] theorem send_nil : s.send [] = s := by
  cases s
  simp [send]

theorem receive_some {ys : List α} {t : BoundedStream α capacity} (h : s.receive n = some (ys, t)) :
    ys = s.content.take n ∧ t.content = s.content.drop n := by
  obtain ⟨_, heq⟩ := Option.ite_none_left_eq_some.mp h
  obtain ⟨rfl, rfl⟩ := Prod.mk.inj (Option.some.inj heq)
  exact ⟨rfl, rfl⟩

/-- What was taken and what waits is what was offered without some that were lost. -/
structure Delivers (s : BoundedStream α capacity) (offered taken : List α) (lost : ℕ) : Prop where
  sublist : (taken ++ s.content).Sublist offered
  length : offered.length = (taken ++ s.content).length + lost

namespace Delivers

theorem empty : (empty : BoundedStream α capacity).Delivers [] [] 0 := ⟨.slnil, rfl⟩

theorem send (h : s.Delivers offered taken lost) (xs : List α) :
    (s.send xs).Delivers (offered ++ xs) taken (lost + (xs.length - s.sent xs)) := by
  constructor
  · rw [BoundedStream.send, ← List.append_assoc]
    exact h.sublist.append (xs.take_sublist _)
  · have hlength := h.length
    have hsent : s.sent xs ≤ xs.length := sent_le
    simp only [BoundedStream.send, List.length_append, List.length_take] at hlength ⊢
    omega

theorem receive (h : s.Delivers offered taken lost) {ys : List α} {t : BoundedStream α capacity}
    (hreceive : s.receive n = some (ys, t)) : t.Delivers offered (taken ++ ys) lost := by
  obtain ⟨rfl, hcontent⟩ := receive_some hreceive
  have hsplit : taken ++ s.content.take n ++ t.content = taken ++ s.content := by
    rw [hcontent, List.append_assoc, List.take_append_drop]
  exact ⟨hsplit ▸ h.sublist, hsplit ▸ h.length⟩

theorem eq_iff (h : s.Delivers offered taken lost) : taken ++ s.content = offered ↔ lost = 0 := by
  have hlength := h.length
  constructor
  · intro heq
    rw [heq] at hlength
    omega
  · intro hlost
    exact h.sublist.eq_of_length (by omega)

end Delivers

end BoundedStream

end FlipperZero.Lib
