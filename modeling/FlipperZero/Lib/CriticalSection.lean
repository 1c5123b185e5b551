import Mathlib.Data.List.Basic

/-! # Critical sections under one interrupt mask

Programs of a processor disable and enable its interrupts, each call in the name of a user, and
read an environment. What a program does to the mask is the list of its calls, and the list of a
sequence of programs is that of its parts. A critical section of a user is kept when no other
call enables interrupts in it.
-/

namespace FlipperZero.Lib

inductive Irq (ι : Type) where
  | disable (user : ι)
  | enable (user : ι)
deriving DecidableEq, Repr

variable {ι σ α β : Type}

def masked (mask : Bool) : List (Irq ι) → Bool
  | [] => mask
  | .disable _ :: calls => masked true calls
  | .enable _ :: calls => masked false calls

/-- In the sections of a user nothing else enables interrupts; `inside` tells whether the calls
begin in such a section. -/
def Kept [DecidableEq ι] (user : ι) : (inside : Bool) → List (Irq ι) → Prop
  | _, [] => True
  | inside, .disable u :: calls => Kept user (inside || u = user) calls
  | inside, .enable u :: calls => (inside = true → u = user) ∧ Kept user false calls

theorem masked_append {mask : Bool} {calls calls' : List (Irq ι)} :
    masked mask (calls ++ calls') = masked (masked mask calls) calls' := by
  induction calls generalizing mask with
  | nil => rfl
  | cons c calls ih => cases c <;> exact ih

section Kept

variable [DecidableEq ι] {user : ι} {calls calls' : List (Irq ι)}

def decideKept (user : ι) : (inside : Bool) → (calls : List (Irq ι)) →
    Decidable (Kept user inside calls)
  | _, [] => isTrue trivial
  | inside, .disable u :: calls => decideKept user (inside || u = user) calls
  | inside, .enable _ :: calls =>
    have := decideKept user false calls
    inferInstanceAs (Decidable ((inside = true → _) ∧ _))

instance (inside : Bool) : Decidable (Kept user inside calls) := decideKept user inside calls

/-- Whether a user is in a section after some calls: it has disabled interrupts, and has not
enabled them since. -/
def opened (user : ι) : (inside : Bool) → List (Irq ι) → Bool
  | inside, [] => inside
  | inside, .disable u :: calls => opened user (inside || u = user) calls
  | inside, .enable u :: calls => opened user (inside && u ≠ user) calls

theorem kept_append {inside : Bool} :
    Kept user inside (calls ++ calls') ↔
      Kept user inside calls ∧ Kept user (opened user inside calls) calls' := by
  induction calls generalizing inside with
  | nil => exact (and_iff_right trivial).symm
  | cons c calls ih =>
    cases c with
    | disable u => exact ih
    | enable u =>
      simp only [List.cons_append, Kept, opened, ih]
      rw [and_assoc]
      apply and_congr_right
      intro h
      have hclosed : (inside && decide (u ≠ user)) = false := by simpa using h
      rw [hclosed]

theorem opened_append {inside : Bool} :
    opened user inside (calls ++ calls') = opened user (opened user inside calls) calls' := by
  induction calls generalizing inside with
  | nil => rfl
  | cons c calls ih => cases c <;> exact ih

theorem kept_iff_masked {inside mask : Bool} (h : inside = true → mask = true) :
    Kept user inside calls ↔
      ∀ p, p <+: calls → opened user inside p = true → masked mask p = true := by
  induction calls generalizing inside mask with
  | nil =>
    refine iff_of_true trivial ?_
    rintro p hp
    obtain rfl := List.prefix_nil.mp hp
    exact h
  | cons c calls ih =>
    cases c with
    | disable u =>
      rw [Kept, ih fun _ => rfl]
      constructor
      · rintro hkept p hp
        rcases List.prefix_cons_iff.mp hp with rfl | ⟨t, rfl, ht⟩
        · exact h
        · exact hkept t ht
      · rintro hmask p hp
        exact hmask (.disable u :: p) (List.cons_prefix_cons.mpr ⟨rfl, hp⟩)
    | enable u =>
      rw [Kept, ih fun hfalse => absurd hfalse Bool.false_ne_true]
      constructor
      · rintro ⟨huser, hkept⟩ p hp
        have hclosed : (inside && decide (u ≠ user)) = false := by simpa using huser
        rcases List.prefix_cons_iff.mp hp with rfl | ⟨t, rfl, ht⟩
        · exact h
        · rw [opened, hclosed]
          exact hkept t ht
      · rintro hmask
        have hclosed : (inside && decide (u ≠ user)) = false := by
          by_contra hopen
          have hone := hmask [.enable u] (List.cons_prefix_cons.mpr ⟨rfl, List.nil_prefix⟩)
          exact absurd (hone (eq_true_of_ne_false hopen)) Bool.false_ne_true
        constructor
        · simpa using hclosed
        · rintro p hp hopen
          refine hmask (.enable u :: p) (List.cons_prefix_cons.mpr ⟨rfl, hp⟩) ?_
          rw [opened, hclosed]
          exact hopen

/-- The calls keep the sections of every user, and leave none open. -/
def Closed (calls : List (Irq ι)) : Prop :=
  ∀ user, Kept user false calls ∧ opened user false calls = false

theorem closed_nil : Closed ([] : List (Irq ι)) := fun _ => ⟨trivial, rfl⟩

theorem Closed.append (h : Closed calls) (h' : Closed calls') : Closed (calls ++ calls') := by
  intro user
  obtain ⟨hkept, hopen⟩ := h user
  constructor
  · rw [kept_append, hopen]
    exact ⟨hkept, (h' user).1⟩
  · rw [opened_append, hopen]
    exact (h' user).2

theorem closed_section (u : ι) : Closed [.disable u, .enable u] := by
  intro user
  constructor
  · refine ⟨?_, trivial⟩
    intro h
    simpa using h
  · simp [opened]

end Kept

/-- A processor: the mask, the calls so far and the environment that programs read. -/
structure Cpu (ι σ : Type) where
  irqDisabled : Bool
  irqs : List (Irq ι)
  env : σ

abbrev Program (ι σ : Type) := StateM (Cpu ι σ)

def disableIrq (user : ι) : Program ι σ Unit :=
  modify fun c => { c with irqDisabled := true, irqs := c.irqs ++ [.disable user] }

def enableIrq (user : ι) : Program ι σ Unit :=
  modify fun c => { c with irqDisabled := false, irqs := c.irqs ++ [.enable user] }

def sense (f : σ → α × σ) : Program ι σ α := fun c => ((f c.env).1, { c with env := (f c.env).2 })

/-- The calls of a program that begins with some processor. -/
structure Calls (f : Program ι σ α) (c : Cpu ι σ) (calls : List (Irq ι)) : Prop where
  irqs : (f c).2.irqs = c.irqs ++ calls
  irqDisabled : (f c).2.irqDisabled = masked c.irqDisabled calls

/-- The calls of a program, whatever its environment answers. -/
def Emits (f : Program ι σ α) (calls : List (Irq ι)) : Prop := ∀ c, Calls f c calls

section Rules

variable {f : Program ι σ α} {g : α → Program ι σ β} {c : Cpu ι σ} {l l' : List (Irq ι)}

theorem bind_apply : (f >>= g) c = g (f c).1 (f c).2 := rfl

theorem calls_pure (a : α) : Calls (pure a : Program ι σ α) c [] :=
  ⟨(List.append_nil _).symm, rfl⟩

theorem Calls.bind (hf : Calls f c l) (hg : Calls (g (f c).1) (f c).2 l') :
    Calls (f >>= g) c (l ++ l') where
  irqs := by
    refine hg.irqs.trans ?_
    rw [hf.irqs, List.append_assoc]
  irqDisabled := by
    refine hg.irqDisabled.trans ?_
    rw [hf.irqDisabled, masked_append]

theorem emits_pure (a : α) : Emits (pure a : Program ι σ α) [] := fun _ => calls_pure a

theorem emits_disableIrq (user : ι) : Emits (disableIrq user : Program ι σ Unit) [.disable user] :=
  fun _ => ⟨rfl, rfl⟩

theorem emits_enableIrq (user : ι) : Emits (enableIrq user : Program ι σ Unit) [.enable user] :=
  fun _ => ⟨rfl, rfl⟩

theorem emits_sense (h : σ → α × σ) : Emits (sense h : Program ι σ α) [] :=
  fun _ => ⟨(List.append_nil _).symm, rfl⟩

theorem Emits.bind (hf : Emits f l) (hg : ∀ a, Emits (g a) l') : Emits (f >>= g) (l ++ l') :=
  fun c => (hf c).bind (hg _ _)

theorem Emits.silent_bind (hf : Emits f []) (hg : ∀ a, Emits (g a) l') : Emits (f >>= g) l' :=
  hf.bind hg

theorem Emits.bind_silent (hf : Emits f l) (hg : ∀ a, Emits (g a) []) : Emits (f >>= g) l := by
  have h := hf.bind hg
  rwa [List.append_nil] at h

theorem Calls.unique (h : Calls f c l) (h' : Calls f c l') : l = l' :=
  List.append_cancel_left (h.irqs.symm.trans h'.irqs)

def Logs (f : Program ι σ α) : Prop := ∀ c, ∃ calls, Calls f c calls

theorem Emits.logs (h : Emits f l) : Logs f := fun c => ⟨l, h c⟩

theorem Logs.bind (hf : Logs f) (hg : ∀ a, Logs (g a)) : Logs (f >>= g) := by
  intro c
  obtain ⟨l, hl⟩ := hf c
  obtain ⟨l', hl'⟩ := hg (f c).1 (f c).2
  exact ⟨l ++ l', hl.bind hl'⟩

theorem Logs.ite {p : Prop} [Decidable p] {f' : Program ι σ α} (hf : Logs f) (hf' : Logs f') :
    Logs (if p then f else f') := by
  split
  · exact hf
  · exact hf'

theorem Emits.ite {p : Prop} [Decidable p] {f' : Program ι σ α} (hf : Emits f l)
    (hf' : Emits f' l) : Emits (if p then f else f') l := by
  split
  · exact hf
  · exact hf'

section Guards

variable [DecidableEq ι]

/-- Wherever a section that the program has begun is open, interrupts are disabled. -/
def Guards (f : Program ι σ α) (c : Cpu ι σ) : Prop :=
  ∃ calls, Calls f c calls ∧ ∀ user p, p <+: calls → opened user false p = true →
    masked c.irqDisabled p = true

theorem Calls.guards_iff (h : Calls f c l) : Guards f c ↔ ∀ user, Kept user false l := by
  have hkept (user : ι) : Kept user false l ↔
      ∀ p, p <+: l → opened user false p = true → masked c.irqDisabled p = true :=
    kept_iff_masked fun hfalse => absurd hfalse Bool.false_ne_true
  constructor
  · rintro ⟨calls, hcalls, hmask⟩ user
    obtain rfl := h.unique hcalls
    exact (hkept user).mpr (hmask user)
  · rintro hall
    exact ⟨l, h, fun user => (hkept user).mp (hall user)⟩

theorem Closed.guards (hl : Closed l) (h : Calls f c l) : Guards f c :=
  h.guards_iff.mpr fun user => (hl user).1

theorem Closed.guards_bind (hl : Closed l) (hf : Emits f l) (hg : ∀ a, Logs (g a)) :
    Guards (f >>= g) c ↔ Guards (g (f c).1) (f c).2 := by
  obtain ⟨l', hl'⟩ := hg (f c).1 (f c).2
  rw [((hf c).bind hl').guards_iff, hl'.guards_iff]
  apply forall_congr'
  intro user
  rw [kept_append, (hl user).2]
  exact and_iff_right (hl user).1

theorem Logs.guards_bind_pure (hf : Logs f) (h : α → β) :
    Guards (f >>= fun a => pure (h a)) c ↔ Guards f c := by
  obtain ⟨l, hl⟩ := hf c
  have hbind : Calls (f >>= fun a => pure (h a)) c (l ++ []) := hl.bind (calls_pure _)
  rw [hl.guards_iff, hbind.guards_iff, List.append_nil]

end Guards

end Rules

end FlipperZero.Lib
