import Mathlib.Data.List.Induction
import Mathlib.Data.List.Forall2

/-! # Listeners

A listener hears one thing after another and is asked at any time for what it has received. What it
hears falls into segments, one for each value that it gives away and a last one. A relation between
what a listener has heard since the last value and its state tells what each segment carries.
-/

namespace FlipperZero.Lib

structure Listener (σ ι κ : Type*) where
  init : σ
  hear : σ → ι → σ
  read : σ → Option κ × σ

namespace Listener

variable {σ ι κ : Type*}

inductive Event (ι : Type*) where
  | hear (i : ι)
  | read

def heard : List (Event ι) → List ι
  | [] => []
  | .hear i :: events => i :: heard events
  | .read :: events => heard events

variable (R : Listener σ ι κ)

def step (s : σ) : Event ι → Option κ × σ
  | .hear i => (none, R.hear s i)
  | .read => R.read s

def run (s : σ) : List (Event ι) → List κ × σ
  | [] => ([], s)
  | event :: events =>
    let (value, s) := R.step s event
    let (values, s) := run s events
    (value.toList ++ values, s)

def received (events : List (Event ι)) : List κ := (R.run R.init events).1

/-- What a listener keeps between its state and what it has heard since the last value. -/
structure Sound (inv : List ι → σ → Prop) (Carries : List ι → κ → Prop) : Prop where
  init : inv [] R.init
  hear : ∀ {h s} i, inv h s → inv (h ++ [i]) (R.hear s i)
  value : ∀ {h s k}, inv h s → (R.read s).1 = some k → Carries h k ∧ inv [] (R.read s).2
  idle : ∀ {h s}, inv h s → (R.read s).1 = none → inv h (R.read s).2

variable {R} {inv : List ι → σ → Prop} {Carries : List ι → κ → Prop}

theorem Sound.run (hR : R.Sound inv Carries) {h : List ι} {s : σ} (hs : inv h s)
    (events : List (Event ι)) : ∃ (segments : List (List ι)) (rest : List ι),
      h ++ heard events = segments.flatten ++ rest ∧
      List.Forall₂ Carries segments (R.run s events).1 ∧ inv rest (R.run s events).2 := by
  induction events generalizing h s with
  | nil => exact ⟨[], h, by simp [heard], .nil, hs⟩
  | cons event events ih =>
    cases event with
    | hear i =>
      obtain ⟨segments, rest, heq, hall, hinv⟩ := ih (hR.hear i hs)
      exact ⟨segments, rest, by simpa [heard] using heq, hall, hinv⟩
    | read =>
      cases hread : (R.read s).1 with
      | none =>
        obtain ⟨segments, rest, heq, hall, hinv⟩ := ih (hR.idle hs hread)
        refine ⟨segments, rest, heq, ?_, hinv⟩
        simpa [Listener.run, step, hread] using hall
      | some k =>
        obtain ⟨hcarries, hs'⟩ := hR.value hs hread
        obtain ⟨segments, rest, heq, hall, hinv⟩ := ih hs'
        refine ⟨h :: segments, rest, ?_, ?_, hinv⟩
        · rw [List.flatten_cons, List.append_assoc, ← heq]
          rfl
        · simpa [Listener.run, step, hread] using ⟨hcarries, hall⟩

theorem Sound.received (hR : R.Sound inv Carries) (events : List (Event ι)) :
    ∃ (segments : List (List ι)) (rest : List ι), heard events = segments.flatten ++ rest ∧
      List.Forall₂ Carries segments (R.received events) := by
  obtain ⟨segments, rest, heq, hall, -⟩ := hR.run hR.init events
  exact ⟨segments, rest, heq, hall⟩

end Listener

end FlipperZero.Lib
