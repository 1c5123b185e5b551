import Mathlib.Data.Sum.Basic
import Mathlib.Order.WellFounded
import Mathlib.Data.Nat.Notation

/-! # Loops that are left from their body

The body of a loop either leaves it with a result or goes on with a new state. The loop leads
to a result when some number of rounds does. A body whose accesses are checked may also stop at
one that is out of bounds.
-/

namespace FlipperZero.Lib

variable {α β : Type*} (body : α → β ⊕ α) {a a' : α} {b b' : β} {n k : ℕ}

def loop : ℕ → α → Option β
  | 0, _ => none
  | n + 1, a =>
    match body a with
    | .inl b => some b
    | .inr a' => loop n a'

/-- The state after some rounds, `none` when the loop has been left before. -/
def rounds : ℕ → α → Option α
  | 0, a => some a
  | n + 1, a =>
    match body a with
    | .inl _ => none
    | .inr a' => rounds n a'

variable {body}

theorem loop_inl (h : body a = .inl b) : loop body (n + 1) a = some b := by
  simp only [loop, h]

theorem loop_inr (h : body a = .inr a') : loop body (n + 1) a = loop body n a' := by
  simp only [loop, h]

theorem rounds_inl (h : body a = .inl b) : rounds body (n + 1) a = none := by
  simp only [rounds, h]

theorem rounds_inr (h : body a = .inr a') : rounds body (n + 1) a = rounds body n a' := by
  simp only [rounds, h]

theorem loop_of_rounds (h : rounds body k a = some a') :
    loop body (k + n) a = loop body n a' := by
  induction k generalizing a with
  | zero =>
    rw [Nat.zero_add, Option.some.inj h]
  | succ k ih =>
    cases hb : body a with
    | inl b =>
      rw [rounds_inl hb] at h
      cases h
    | inr a₁ =>
      rw [rounds_inr hb] at h
      rw [Nat.succ_add_eq_add_succ, Nat.add_succ, loop_inr hb]
      exact ih h

theorem loop_unique (h : loop body n a = some b) (h' : loop body k a = some b') : b = b' := by
  induction n generalizing a k with
  | zero => cases h
  | succ n ih =>
    cases k with
    | zero => cases h'
    | succ k =>
      cases hb : body a with
      | inl b₁ =>
        rw [loop_inl hb] at h h'
        exact Option.some.inj (h.symm.trans h')
      | inr a₁ =>
        rw [loop_inr hb] at h h'
        exact ih h h'

theorem loop_iff : (∃ n, loop body n a = some b) ↔
    ∃ k a', rounds body k a = some a' ∧ body a' = .inl b := by
  constructor
  · rintro ⟨n, hn⟩
    induction n generalizing a with
    | zero => cases hn
    | succ n ih =>
      cases hb : body a with
      | inl b' =>
        rw [loop_inl hb] at hn
        obtain rfl := Option.some.inj hn
        exact ⟨0, a, rfl, hb⟩
      | inr a₁ =>
        rw [loop_inr hb] at hn
        obtain ⟨k, a', hk, hb'⟩ := ih hn
        exact ⟨k + 1, a', (rounds_inr hb).trans hk, hb'⟩
  · rintro ⟨k, a', hk, hb⟩
    exact ⟨k + 1, (loop_of_rounds hk).trans (loop_inl hb)⟩

theorem rounds_succ : rounds body (k + 1) a = (rounds body k a).bind (rounds body 1) := by
  induction k generalizing a with
  | zero => rfl
  | succ k ih =>
    cases hb : body a with
    | inl b => rw [rounds_inl hb, rounds_inl hb, Option.bind_none]
    | inr a₁ => rw [rounds_inr hb, rounds_inr hb, ih]

/-- Some number of rounds leads from a state to another. -/
def Reaches (body : α → β ⊕ α) (a a' : α) : Prop := ∃ k, rounds body k a = some a'

theorem Reaches.refl (body : α → β ⊕ α) (a : α) : Reaches body a a := ⟨0, rfl⟩

theorem Reaches.next {a'' : α} (h : Reaches body a a') (hbody : body a' = .inr a'') :
    Reaches body a a'' := by
  obtain ⟨k, hk⟩ := h
  refine ⟨k + 1, ?_⟩
  rw [rounds_succ, hk, Option.bind_some, rounds_inr hbody]
  rfl

theorem Reaches.leaves (h : Reaches body a a') (hbody : body a' = .inl b) :
    ∃ n, loop body n a = some b := by
  obtain ⟨k, hk⟩ := h
  exact loop_iff.mpr ⟨k, a', hk, hbody⟩

theorem Reaches.loop_eq (h : Reaches body a a') (hn : loop body n a = some b) :
    ∃ m, loop body m a' = some b := by
  obtain ⟨k, hk⟩ := h
  induction k generalizing a n with
  | zero =>
    obtain rfl := Option.some.inj hk
    exact ⟨n, hn⟩
  | succ k ih =>
    cases hb : body a with
    | inl b' =>
      rw [rounds_inl hb] at hk
      cases hk
    | inr a₁ =>
      cases n with
      | zero => cases hn
      | succ n =>
        rw [rounds_inr hb] at hk
        rw [loop_inr hb] at hn
        exact ih hn hk

/-- What holds of a state and of what its rounds make of it holds of what the loop leads to. -/
theorem loop_invariant {P : α → Prop} {Q : β → Prop} (hnext : ∀ a a', P a → body a = .inr a' → P a')
    (hleave : ∀ a b, P a → body a = .inl b → Q b) (ha : P a) (hn : loop body n a = some b) :
    Q b := by
  induction n generalizing a with
  | zero => cases hn
  | succ n ih =>
    cases hb : body a with
    | inl b' =>
      rw [loop_inl hb] at hn
      exact hleave a b ha (Option.some.inj hn ▸ hb)
    | inr a₁ =>
      rw [loop_inr hb] at hn
      exact ih (hnext a a₁ ha hb) hn

theorem loop_eq_none {P : α → Prop} (hP : ∀ a, P a → ∃ a', body a = .inr a' ∧ P a') (ha : P a)
    (n : ℕ) : loop body n a = none := by
  induction n generalizing a with
  | zero => rfl
  | succ n ih =>
    obtain ⟨a', hbody, ha'⟩ := hP a ha
    rw [loop_inr hbody]
    exact ih ha'

/-- The body of a loop with checked accesses: `none` is one that is out of bounds. -/
def checked (round : α → Option (β ⊕ α)) (a : α) : Option β ⊕ α :=
  match round a with
  | none => .inl none
  | some (.inl b) => .inl (some b)
  | some (.inr a') => .inr a'

/-- No access of the loop is out of bounds, however many rounds it makes. -/
def InBounds (round : α → Option (β ⊕ α)) (a : α) : Prop :=
  ∀ n, loop (checked round) n a ≠ some none

section InBounds

variable {round : α → Option (β ⊕ α)}

theorem checked_eq {r : β ⊕ α} (h : round a = some r) :
    checked round a = r.map some id := by
  rw [checked, h]
  cases r <;> rfl

theorem loop_checked_cases (h : loop (checked round) n a = some (some b)) :
    round a = some (.inl b) ∨ ∃ m a', n = m + 1 ∧ round a = some (.inr a') ∧
      loop (checked round) m a' = some (some b) := by
  cases n with
  | zero => cases h
  | succ n =>
    cases hround : round a with
    | none =>
      have hleft : checked round a = .inl none := by rw [checked, hround]
      rw [loop_inl hleft] at h
      cases h
    | some r =>
      cases r with
      | inl b' =>
        rw [loop_inl (checked_eq hround)] at h
        exact .inl (congrArg _ (congrArg _ (Option.some.inj (Option.some.inj h))))
      | inr a' =>
        rw [loop_inr (checked_eq hround)] at h
        exact .inr ⟨n, a', rfl, rfl, h⟩

theorem not_inBounds (h : round a = none) : ¬InBounds round a := by
  intro ha
  have hleft : checked round a = .inl none := by rw [checked, h]
  exact ha 1 (loop_inl hleft)

theorem InBounds.next (ha : InBounds round a) (h : round a = some (.inr a')) :
    InBounds round a' := by
  intro n
  have hn := ha (n + 1)
  rwa [loop_inr (checked_eq h)] at hn

/-- A property that allows every access and is kept by every round keeps the loop in bounds. -/
theorem inBounds_of_invariant {P : α → Prop}
    (hP : ∀ a, P a → ∃ r, round a = some r ∧ ∀ a', r = .inr a' → P a') (ha : P a) :
    InBounds round a := by
  intro n
  induction n generalizing a with
  | zero => exact (Option.some_ne_none _).symm
  | succ n ih =>
    obtain ⟨r, hr, hnext⟩ := hP a ha
    cases r with
    | inl b =>
      rw [loop_inl (checked_eq hr)]
      simp
    | inr a' =>
      rw [loop_inr (checked_eq hr)]
      exact ih (hnext a' rfl)

/-- What a round does to a property `P` of the states: it stops where `P` fails, it leaves where
`P` holds, or it goes on and either keeps `P` and comes closer to the end, or starts again. -/
inductive Rounds {δ : Type*} [LT δ] (round : α → Option (β ⊕ α)) (Q P start : α → Prop)
    (μ : α → δ) (a : α) : Prop
  | stops (h : round a = none) (hP : ¬P a)
  | leaves (b : β) (h : round a = some (.inl b)) (hP : P a)
  | keeps (a' : α) (h : round a = some (.inr a')) (hQ : Q a') (hμ : μ a' < μ a) (hP : P a ↔ P a')
  | restarts (a' : α) (h : round a = some (.inr a')) (hQ : Q a') (hstart : start a') (hP : P a)

theorem inBounds_iff {δ : Type*} [LT δ] [WellFoundedLT δ] {Q P start : α → Prop} {μ : α → δ}
    (hround : ∀ a, Q a → Rounds round Q P start μ a)
    (hsame : ∀ a a', start a → start a' → (P a ↔ P a')) (hQ : Q a) (ha : start a) :
    InBounds round a ↔ P a := by
  constructor
  · clear ha
    induction hn : μ a using WellFoundedLT.induction generalizing a with
    | ind n ih =>
      intro hin
      cases hround a hQ with
      | stops h => exact absurd hin (not_inBounds h)
      | leaves b h hP => exact hP
      | keeps a' h hQ' hμ hP => exact hP.mpr (ih _ (hn ▸ hμ) hQ' rfl (hin.next h))
      | restarts a' h hQ' hstart hP => exact hP
  · intro hP
    refine inBounds_of_invariant (P := fun a => Q a ∧ P a) ?_ ⟨hQ, hP⟩
    rintro c ⟨hQc, hPc⟩
    cases hround c hQc with
    | stops h hnot => exact absurd hPc hnot
    | leaves b h =>
      refine ⟨_, h, ?_⟩
      rintro a' ⟨⟩
    | keeps a' h hQ' hμ hkeep =>
      refine ⟨_, h, ?_⟩
      rintro _ ⟨⟩
      exact ⟨hQ', hkeep.mp hPc⟩
    | restarts a' h hQ' hstart =>
      refine ⟨_, h, ?_⟩
      rintro _ ⟨⟩
      exact ⟨hQ', (hsame a a' ha hstart).mp hP⟩

end InBounds

end FlipperZero.Lib
