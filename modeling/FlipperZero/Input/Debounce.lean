import FlipperZero.Input.Pin

/-! # Debouncing

A settled pin has its debounce counter at one of the ends, and the counter never leaves
them: every change of the level is published with its first sample. A deviation that
lasts is published once, as it should be, but so is each that does not.
-/

namespace FlipperZero.Input

variable {p : InputPinState} {w w' : List Bool} {level : Bool}

namespace InputPinState

def Settled (p : InputPinState) : Prop := p.debounce = 0 ∨ p.debounce = inputDebounceTicks

def after (p : InputPinState) (w : List Bool) : InputPinState :=
  w.foldl (fun p level => (p.sample level).1) p

/-- The press and release events published for a sequence of samples. -/
def changes (p : InputPinState) : List Bool → List InputType
  | [] => []
  | level :: w =>
    match p.sample level with
    | (q, .changed) => changeType level :: q.changes w
    | (q, _) => q.changes w

/-- What debouncing promises for the samples of a pin: no event for a deviation that is shorter
than half the range of the counter and returns for as long, one event for a deviation that lasts
for the whole range. -/
structure Debounced (p : InputPinState) (w : List Bool) : Prop where
  bounce : ∀ pre k m post, (p.after pre).Settled → k < inputDebounceTicksHalf → k ≤ m →
    let s := (p.after pre).state
    w = pre ++ (List.replicate k (!s) ++ List.replicate m s) ++ post →
      (p.after pre).changes (List.replicate k (!s) ++ List.replicate m s) = []
  change : ∀ pre post, (p.after pre).Settled →
    let s := (p.after pre).state
    w = pre ++ List.replicate inputDebounceTicks (!s) ++ post →
      (p.after pre).changes (List.replicate inputDebounceTicks (!s)) = [changeType (!s)]

theorem settled_init (level : Bool) :
    ((init level).after (List.replicate inputDebounceTicksHalf level)).Settled := by
  cases level with
  | false => exact .inl rfl
  | true => exact .inr rfl

theorem Settled.not_between (h : p.Settled) :
    ¬(0 < p.debounce ∧ p.debounce < inputDebounceTicks) := by
  rintro ⟨hpos, hlt⟩
  rcases h with h | h
  · exact Nat.ne_of_gt hpos h
  · exact Nat.ne_of_lt hlt h

theorem Settled.sample (h : p.Settled) :
    p.sample level = ({ p with state := level }, if p.state ≠ level then .changed else .same) := by
  unfold InputPinState.sample
  rw [if_neg h.not_between]
  by_cases hne : p.state = level
  · subst hne
    simp
  · rw [if_pos hne, if_pos hne]

theorem Settled.changes_cons (h : p.Settled) :
    p.changes (level :: w) =
      if p.state ≠ level then changeType level :: changes { p with state := level } w
      else changes { p with state := level } w := by
  rw [changes, h.sample]
  by_cases hne : p.state = level <;> simp [hne]

theorem Settled.after (h : p.Settled) (w : List Bool) :
    p.after w = { p with state := (p.state :: w).getLast (List.cons_ne_nil _ _) } := by
  induction w generalizing p with
  | nil => rfl
  | cons level w ih =>
    have hq : ({ p with state := level } : InputPinState).Settled := h
    rw [InputPinState.after, List.foldl_cons, h.sample, List.getLast_cons (List.cons_ne_nil _ _)]
    exact ih hq

theorem Settled.changes_same (h : p.Settled) (n : ℕ) :
    p.changes (List.replicate n p.state ++ w) = p.changes w := by
  induction n with
  | zero => rfl
  | succ n ih =>
    rw [List.replicate_succ, List.cons_append, h.changes_cons, if_neg (not_not.mpr rfl)]
    exact ih

theorem Settled.changes_deviation (h : p.Settled) {n : ℕ} (hn : 0 < n) :
    p.changes (List.replicate n (!p.state) ++ w) =
      changeType (!p.state) :: changes { p with state := !p.state } w := by
  obtain ⟨n, rfl⟩ := Nat.exists_eq_succ_of_ne_zero (Nat.ne_of_gt hn)
  have hne : p.state ≠ !p.state := by cases p.state <;> decide
  have hq : ({ p with state := !p.state } : InputPinState).Settled := h
  rw [List.replicate_succ, List.cons_append, h.changes_cons, if_pos hne]
  exact congrArg _ (hq.changes_same n)

end InputPinState

open InputPinState

/-- A deviation that is shorter than half the range of the counter and returns for as long, in the
samples of a pin that is settled at a level. -/
def HasBounce (level : Bool) (w : List Bool) : Prop :=
  ∃ (pre : List Bool) (k m : ℕ) (post : List Bool),
    let s := (level :: pre).getLast (List.cons_ne_nil _ _)
    0 < k ∧ k < inputDebounceTicksHalf ∧ k ≤ m ∧
      w = pre ++ (List.replicate k (!s) ++ List.replicate m s) ++ post

/-- A settled pin is debounced exactly as long as there is nothing to debounce. -/
theorem input_debounced_iff (p : InputPinState) (h : p.Settled) (w : List Bool) :
    p.Debounced w ↔ ¬HasBounce p.state w := by
  have hstate : ∀ pre, (p.after pre).state = (p.state :: pre).getLast (List.cons_ne_nil _ _) :=
    fun pre => congrArg InputPinState.state (h.after pre)
  have hsettled : ∀ pre, (p.after pre).Settled := fun pre => (h.after pre).symm ▸ h
  constructor
  · rintro hd ⟨pre, k, m, post, hk, hhalf, hkm, hw⟩
    have hnil := hd.bounce pre k m post (hsettled pre) hhalf hkm
    rw [hstate] at hnil
    have hchanges := hnil hw
    rw [← hstate, (hsettled pre).changes_deviation hk] at hchanges
    exact List.cons_ne_nil _ _ hchanges
  · intro hb
    constructor
    · intro pre k m post hs hhalf hkm s hw
      rcases Nat.eq_zero_or_pos k with rfl | hk
      · have hsame := hs.changes_same (w := []) m
        rw [List.append_nil] at hsame
        exact hsame
      · refine absurd ⟨pre, k, m, post, hk, hhalf, hkm, ?_⟩ hb
        rw [← hstate]
        exact hw
    · intro pre post hs s hw
      simpa [changes] using hs.changes_deviation (w := []) (n := inputDebounceTicks) (by decide)

theorem input_debounced_held :
    let p := (InputPinState.init false).after (List.replicate inputDebounceTicksHalf false)
    p.Debounced (List.replicate 20 true) ↔ ¬HasBounce p.state (List.replicate 20 true) :=
  input_debounced_iff _ (settled_init false) _

/-- One sample of the other level is a press and a release. -/
theorem input_not_debounced :
    let p := (InputPinState.init false).after (List.replicate inputDebounceTicksHalf false)
    p.Settled ∧ ¬p.Debounced [true, false] :=
  ⟨settled_init false, fun h =>
    absurd (h.bounce [] 1 1 [] (settled_init false) (by decide) (Nat.le_refl 1) rfl) (by decide)⟩

end FlipperZero.Input
