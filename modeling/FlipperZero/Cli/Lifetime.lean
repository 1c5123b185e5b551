import FlipperZero.Cli.Basic

/-! # The lifetime of a command

A lookup leaves the CLI thread with a pointer into the command tree, which it follows after it
has given the mutex back, and the callback runs without the mutex. As long as no change of the
tree makes the pointer miss its command or removes the command of a running callback, a deleted
command stays silent and every line runs the command it names once.
-/

namespace FlipperZero.Cli

open Lib Mlib

variable {T Ref Thread Callback Context : Type}

variable [BPTree T (List Char) (CliCommand Callback Context) Ref]

namespace State

/-- The thread is between taking the mutex and giving it back. -/
def Holds (s : State T Ref Thread Callback Context) (t : Option Thread) : Prop :=
  (∃ c, s.pc t = .change c ∨ s.pc t = .release c) ∨
    t = none ∧ ∃ command, s.phase = .get command ∨ ∃ ref, s.phase = .release command ref

/-- The line whose command the CLI thread looks for. -/
def Searches (s : State T Ref Thread Callback Context) (command : List Char) : Prop :=
  ∃ r, s.current = some r ∧ r.command = command ∧ r.args = s.line ∧ r.ran = [] ∧
    ∀ cmd, r.registered = some cmd → BPTree.lookup s.commands command = some cmd

/-- What the place of the CLI thread says about the tree and about the line. -/
def At (s : State T Ref Thread Callback Context) : Phase Ref Callback Context → Prop
  | .input | .escape | .bracket => s.pc none = .idle ∧ s.current = none
  | .acquire command | .get command => s.pc none = .idle ∧ s.Searches command
  | .release command ref =>
    s.pc none = .idle ∧ s.Searches command ∧ BPTree.get s.commands command = ref
  | .call _ none => s.pc none = .idle ∧ ∃ r, s.current = some r ∧ r.registered = none
  | .call command (some ref) =>
    s.pc none = .idle ∧ s.Searches command ∧
      BPTree.read s.commands ref = BPTree.lookup s.commands command ∧
      (BPTree.lookup s.commands command).isSome
  | .running command cmd =>
    (BPTree.lookup s.commands command).isSome ∧
      ∃ r, s.current = some r ∧ r.ran = [(cmd, r.args)] ∧
        ∀ cmd', r.registered = some cmd' → cmd' = cmd
  | .fault => False

end State

structure Inv (s : State T Ref Thread Callback Context) : Prop where
  mutex : ∀ t, s.mutex = some t ↔ s.Holds t
  deleted : ∀ k ∈ s.deleted, BPTree.lookup s.commands k = none
  once : ∀ r ∈ s.processed, ∀ cmd, r.registered = some cmd → r.ran = [(cmd, r.args)]
  place : s.At s.phase

variable {s s' : State T Ref Thread Callback Context}

theorem lookup_change_ne {c : Call Callback Context} {k : List Char} (h : k ≠ c.key) (t : T) :
    BPTree.lookup (c.change t) k = BPTree.lookup t k := by
  cases c with
  | addCommand name command => exact BPTree.lookup_setAt_ne h
  | deleteCommand name => exact BPTree.lookup_erase_ne h

namespace Inv

theorem of_input (h : Inv s) (hphase : s.phase = .input ∨ s.phase = .escape ∨ s.phase = .bracket)
    {phase : Phase Ref Callback Context} {line : List Char}
    (hnext : phase = .input ∨ phase = .escape ∨ phase = .bracket) :
    Inv { s with phase := phase, line := line } where
  mutex t := by
    rw [h.mutex t]
    unfold State.Holds
    rcases hphase with hp | hp | hp <;> rcases hnext with rfl | rfl | rfl <;> simp [hp]
  deleted := h.deleted
  once := h.once
  place := by
    have hplace : s.pc none = .idle ∧ s.current = none := by
      have hat := h.place
      rcases hphase with hp | hp | hp <;> rw [hp] at hat <;> exact hat
    rcases hnext with rfl | rfl | rfl <;> exact hplace

theorem line (h : Inv s) (hphase : s.phase = .input) (line : List Char) :
    Inv { s with line := line } := by
  have hat := h.place
  refine ⟨h.mutex, h.deleted, h.once, ?_⟩
  rw [hphase] at hat ⊢
  exact hat

theorem cliEnter (h : Inv s) (hphase : s.phase = .input) : Inv s.cliEnter := by
  unfold State.cliEnter
  dsimp only
  split
  · exact h.line hphase _
  · have hat := h.place
    rw [hphase] at hat
    constructor
    · intro t
      rw [h.mutex t]
      simp [State.Holds, hphase]
    · exact h.deleted
    · exact h.once
    · exact ⟨hat.1, _, rfl, rfl, rfl, rfl, fun cmd hcmd => hcmd⟩

theorem ite_inv {P : Prop} [Decidable P] (hs : Inv s) (hs' : Inv s') :
    Inv (if P then s else s') := by
  split
  · exact hs
  · exact hs'

theorem processInput (h : Inv s) (hphase : s.phase = .input) (c : Char) :
    Inv (s.processInput c) := by
  have hreset : Inv s.resetState := h.line hphase []
  have hescape : Inv { s with phase := .escape } := h.of_input (.inl hphase) (.inr (.inl rfl))
  rw [State.processInput]
  apply ite_inv h
  apply ite_inv h
  apply ite_inv hreset
  apply ite_inv hescape
  apply ite_inv (h.line hphase s.line.dropLast)
  apply ite_inv (h.cliEnter hphase)
  exact ite_inv (h.line hphase (s.line ++ [c])) h

theorem char (h : Inv s) {c : Char} (hs : s.char c = some s') : Inv s' := by
  unfold State.char at hs
  split at hs
  · next hphase =>
    obtain rfl := Option.some.inj hs
    exact h.processInput hphase c
  · next hphase =>
    obtain rfl := Option.some.inj hs
    apply h.of_input (.inr (.inl hphase))
    split
    · exact .inr (.inr rfl)
    · exact .inl rfl
  · next hphase =>
    obtain rfl := Option.some.inj hs
    exact h.of_input (.inr (.inr hphase)) (.inl rfl)
  · cases hs

theorem disconnect (h : Inv s) (hs : s.disconnect = some s') : Inv s' := by
  unfold State.disconnect at hs
  split at hs
  · next hphase =>
    obtain rfl := Option.some.inj hs
    exact h.line hphase _
  · next command cmd hphase =>
    obtain rfl := Option.some.inj hs
    have hat := h.place
    refine ⟨h.mutex, h.deleted, h.once, ?_⟩
    rw [State.resetState, hphase]
    rw [hphase] at hat
    exact hat
  · next hphase =>
    obtain rfl := Option.some.inj hs
    exact h.of_input (.inr (.inl hphase)) (.inl rfl)
  · next hphase =>
    obtain rfl := Option.some.inj hs
    exact h.of_input (.inr (.inr hphase)) (.inl rfl)
  · cases hs

theorem finish (h : Inv s) (hidle : s.pc none = .idle)
    (hphase : ∀ command ref, s.phase ≠ .get command ∧ s.phase ≠ .release command ref)
    (hcurrent : ∀ r, s.current = some r → ∀ cmd, r.registered = some cmd →
      r.ran = [(cmd, r.args)]) : Inv s.finish where
  mutex t := by
    have hiff := h.mutex t
    simp only [State.Holds, (hphase _ none).1, (hphase _ _).2, or_self, exists_false, and_false,
      or_false] at hiff
    simpa [State.Holds, State.finish] using hiff
  deleted := h.deleted
  once r hr := by
    rcases List.mem_append.mp hr with hr | hr
    · exact hcurrent r (by simpa using hr)
    · exact h.once r hr
  place := ⟨hidle, rfl⟩

theorem not_changing (h : Inv s) {t : Option Thread} (hm : s.mutex ≠ some t)
    (c : Call Callback Context) : s.pc t ≠ .change c ∧ s.pc t ≠ .release c := by
  constructor
  · intro hc
    exact hm ((h.mutex t).mpr (.inl ⟨c, .inl hc⟩))
  · intro hc
    exact hm ((h.mutex t).mpr (.inl ⟨c, .inr hc⟩))

end Inv

theorem State.At.congr {p : Phase Ref Callback Context} (h : s.At p)
    (hcommands : s'.commands = s.commands) (hline : s'.line = s.line)
    (hcurrent : s'.current = s.current)
    (hpc : s'.pc none = s.pc none ∨ ∃ command cmd, p = .running command cmd) : s'.At p := by
  rcases hpc with hpc | ⟨command, cmd, rfl⟩
  · cases p with
    | call command ref =>
      cases ref <;> simpa [State.At, State.Searches, hcommands, hline, hcurrent, hpc] using h
    | fault => exact h
    | _ => simpa [State.At, State.Searches, hcommands, hline, hcurrent, hpc] using h
  · simpa [State.At, hcommands, hcurrent] using h

theorem Inv.running (h : Inv s) (hbusy : s.pc none ≠ .idle) :
    ∃ command cmd, s.phase = .running command cmd := by
  have hat := h.place
  generalize s.phase = p at hat
  cases p with
  | running command cmd => exact ⟨command, cmd, rfl⟩
  | fault => exact hat.elim
  | call command ref => cases ref <;> exact absurd hat.1 hbusy
  | _ => exact absurd hat.1 hbusy

theorem State.At.update [DecidableEq Thread] {p : Phase Ref Callback Context} (h : s.At p) {t : Option Thread}
    (mutex : Option (Option Thread)) (q : Pc Callback Context)
    (hrun : t = none → ∃ command cmd, p = .running command cmd) :
    State.At { s with mutex := mutex, pc := Function.update s.pc t q } p := by
  refine h.congr rfl rfl rfl ?_
  by_cases ht : t = none
  · exact .inr (hrun ht)
  · exact .inl (Function.update_of_ne (Ne.symm ht) _ _)

namespace Inv

theorem enter_acquire {command : List Char} (h : Inv s) (hphase : s.phase = .acquire command)
    (hfree : s.mutex = none) : Inv { s with mutex := some none, phase := .get command } := by
  have hat := h.place
  rw [hphase] at hat
  refine ⟨fun t => ?_, h.deleted, h.once, hat⟩
  constructor
  · rintro ⟨⟩
    exact .inr ⟨rfl, command, .inl rfl⟩
  · rintro (⟨c, hc⟩ | ⟨rfl, -⟩)
    · have hno := h.not_changing (t := t) (by simp [hfree]) c
      exact (hc.elim hno.1 hno.2).elim
    · rfl

theorem enter_release {command : List Char} {ref : Option Ref} (h : Inv s)
    (hphase : s.phase = .release command ref) :
    Inv { s with mutex := none, phase := .call command ref } := by
  have hat := h.place
  rw [hphase] at hat
  have hm : s.mutex = some none := (h.mutex none).mpr (.inr ⟨rfl, command, .inr ⟨ref, hphase⟩⟩)
  refine ⟨fun t => ?_, h.deleted, h.once, ?_⟩
  · constructor
    · rintro ⟨⟩
    · rintro (⟨c, hc⟩ | ⟨-, command', hc | ⟨ref', hc⟩⟩)
      · cases t with
        | none => rcases hc with hc | hc <;> exact absurd (hat.1.symm.trans hc) (by simp)
        | some t =>
          have hno := h.not_changing (t := some t) (by simp [hm]) c
          exact (hc.elim hno.1 hno.2).elim
      · cases hc
      · cases hc
  · obtain ⟨hidle, hsearch, hget⟩ := hat
    cases ref with
    | none =>
      obtain ⟨r, hr, -, -, -, hreg⟩ := hsearch
      refine ⟨hidle, r, hr, ?_⟩
      rw [Option.eq_none_iff_forall_ne_some]
      intro cmd hcmd
      have hlookup := hreg cmd hcmd
      rw [BPTree.lookup_eq_none hget] at hlookup
      cases hlookup
    | some ref =>
      exact ⟨hidle, hsearch, (BPTree.lookup_eq_read hget).symm, BPTree.isSome_lookup hget⟩

theorem note (h : Inv s) (c : Call Callback Context) : Inv (s.note c) := by
  cases c with
  | addCommand name command => exact h
  | deleteCommand name =>
    unfold State.note
    dsimp only
    split
    · next hnone =>
      refine ⟨h.mutex, ?_, h.once, h.place.congr rfl rfl rfl (.inl rfl)⟩
      intro k hk
      rcases List.mem_cons.mp hk with rfl | hk
      · exact hnone
      · exact h.deleted k hk
    · exact h

variable [DecidableEq Thread]

theorem move (h : Inv s) {t : Option Thread} {p : Pc Callback Context}
    (hold : ∀ c, s.pc t ≠ .change c ∧ s.pc t ≠ .release c) (hnew : ∀ c, p ≠ .change c ∧ p ≠ .release c)
    (hrun : t = none → ∃ command cmd, s.phase = .running command cmd) :
    Inv { s with pc := Function.update s.pc t p } where
  mutex u := by
    rw [h.mutex u]
    unfold State.Holds
    apply or_congr_left
    by_cases hu : u = t
    · subst hu
      simp [(hold _).1, (hold _).2, (hnew _).1, (hnew _).2]
    · simp [hu]
  deleted := h.deleted
  once := h.once
  place := h.place.update s.mutex p hrun

theorem call (h : Inv s) {t : Option Thread} {c : Call Callback Context}
    (hs : s.call t c = some s') : Inv s' := by
  unfold State.call at hs
  split at hs
  · next u hidle =>
    obtain rfl := Option.some.inj hs
    exact h.move (by simp [hidle]) (by simp) (by simp)
  · next command cmd hphase hidle =>
    obtain rfl := Option.some.inj hs
    exact h.move (by simp [hidle]) (by simp) fun _ => ⟨command, cmd, hphase⟩
  · cases hs

theorem acquire (h : Inv s) {t : Option Thread} {c : Call Callback Context}
    (hpc : s.pc t = .acquire c) (hfree : s.mutex = none) :
    Inv { s with mutex := some t, pc := Function.update s.pc t (.change c) } where
  mutex u := by
    constructor
    · rintro ⟨⟩
      exact .inl ⟨c, .inl (Function.update_self ..)⟩
    · rintro (⟨c', hc⟩ | ⟨rfl, command, hc⟩)
      · by_cases hu : u = t
        · rw [hu]
        · simp only [Function.update_of_ne hu] at hc
          have hno := h.not_changing (t := u) (by simp [hfree]) c'
          exact (hc.elim hno.1 hno.2).elim
      · have hm := (h.mutex none).mpr (.inr ⟨rfl, command, hc⟩)
        rw [hfree] at hm
        cases hm
  deleted := h.deleted
  once := h.once
  place := h.place.update _ _ fun ht => h.running (by simp [← ht, hpc])

theorem release (h : Inv s) {t : Option Thread} {c : Call Callback Context}
    (hpc : s.pc t = .release c) :
    Inv { s with mutex := none, pc := Function.update s.pc t (.return c) } where
  mutex u := by
    have hm : s.mutex = some t := (h.mutex t).mpr (.inl ⟨c, .inr hpc⟩)
    constructor
    · rintro ⟨⟩
    · rintro (⟨c', hc⟩ | ⟨rfl, command, hc⟩)
      · by_cases hu : u = t
        · subst hu
          simp at hc
        · simp only [Function.update_of_ne hu] at hc
          have hno := h.not_changing (t := u) (by simpa [hm] using Ne.symm hu) c'
          exact (hc.elim hno.1 hno.2).elim
      · have hn := (h.mutex none).mpr (.inr ⟨rfl, command, hc⟩)
        obtain rfl : t = none := Option.some.inj (hm.symm.trans hn)
        obtain ⟨command', cmd, hphase⟩ := h.running (by simp [hpc])
        simp [hphase] at hc
  deleted := h.deleted
  once := h.once
  place := h.place.update _ _ fun ht => h.running (by simp [← ht, hpc])

end Inv

variable [DecidableEq Callback] [DecidableEq Context]

theorem LineRecord.see_registered {r : LineRecord Callback Context} {t : T}
    {cmd : CliCommand Callback Context} (h : (r.see t).registered = some cmd) :
    r.registered = some cmd ∧ BPTree.lookup t r.command = some cmd := by
  unfold LineRecord.see at h
  split at h
  · next hl => exact ⟨h, hl.trans h⟩
  · cases h

theorem LineRecord.see_eq_none {r : LineRecord Callback Context} (h : r.registered = none)
    (t : T) : (r.see t).registered = none := by
  unfold LineRecord.see
  split
  · exact h
  · rfl

theorem State.Searches.change {command : List Char} (h : s.Searches command)
    (c : Call Callback Context) : (s.change c).Searches command := by
  obtain ⟨r, hr, rfl, hargs, hran, -⟩ := h
  refine ⟨r.see (c.change s.commands), by simp [State.change, hr], rfl, hargs, hran, ?_⟩
  intro cmd hcmd
  exact (LineRecord.see_registered hcmd).2

/-- The changed tree still has the command the CLI thread is about to run, where the pointer
points, or the command whose callback is running. -/
def Undisturbed (s : State T Ref Thread Callback Context) :
    Label Thread Callback Context → Prop
  | .step t =>
    match s.pc t, s.phase with
    | .change c, .call command (some ref) =>
      BPTree.read (c.change s.commands) ref = BPTree.lookup (c.change s.commands) command ∧
        (BPTree.lookup (c.change s.commands) command).isSome
    | .change c, .running command _ => (BPTree.lookup (c.change s.commands) command).isSome
    | _, _ => True
  | _ => True

namespace Inv

/-- The pointer is still to the command of the line, which runs with the arguments of the line. -/
theorem enter_call {command : List Char} {ref : Ref} (h : Inv s)
    (hphase : s.phase = .call command (some ref)) (hs : s.enter = some s') : Inv s' := by
  have hat := h.place
  rw [hphase] at hat
  obtain ⟨hidle, ⟨r, hr, hcommand, hargs, hran, hreg⟩, hread, hsome⟩ := hat
  simp only [State.enter, hphase] at hs
  split at hs
  · next cmd hcmd =>
    obtain rfl := Option.some.inj hs
    refine ⟨fun t => ?_, h.deleted, h.once, hsome, ?_⟩
    · rw [h.mutex t]
      simp [State.Holds, hphase]
    · refine ⟨{ r with ran := (cmd, s.line) :: r.ran }, by rw [hr]; rfl, ?_, ?_⟩
      · rw [hran, ← hargs]
        rfl
      · intro cmd' hcmd'
        have hlookup := hreg cmd' hcmd'
        rw [← hread, hcmd] at hlookup
        exact (Option.some.inj hlookup).symm
  · next hnone =>
    rw [← hread, hnone] at hsome
    cases hsome

theorem enter (h : Inv s) (hs : s.enter = some s') : Inv s' := by
  have hat := h.place
  unfold State.enter at hs
  split at hs
  · next command hphase =>
    split at hs
    · next hfree =>
      obtain rfl := Option.some.inj hs
      exact h.enter_acquire hphase hfree
    · cases hs
  · next command hphase =>
    rw [hphase] at hat
    obtain rfl := Option.some.inj hs
    refine ⟨fun t => ?_, h.deleted, h.once, hat.1, hat.2, rfl⟩
    rw [h.mutex t]
    simp [State.Holds, hphase]
  · next command ref hphase =>
    obtain rfl := Option.some.inj hs
    exact h.enter_release hphase
  · next command hphase =>
    rw [hphase] at hat
    obtain ⟨hidle, r, hr, hnone⟩ := hat
    obtain rfl := Option.some.inj hs
    refine h.finish hidle (by simp [hphase]) ?_
    intro r' hr' cmd hcmd
    obtain rfl := Option.some.inj (hr.symm.trans hr')
    rw [hnone] at hcmd
    cases hcmd
  · next command ref hphase =>
    refine h.enter_call hphase ?_
    rw [State.enter, hphase]
    exact hs
  · next command cmd hphase =>
    rw [hphase] at hat
    obtain ⟨-, r, hr, hran, hreg⟩ := hat
    split at hs
    · next hidle =>
      obtain rfl := Option.some.inj hs
      refine h.finish hidle (by simp [hphase]) ?_
      intro r' hr' cmd' hcmd'
      obtain rfl := Option.some.inj (hr.symm.trans hr')
      rw [hran, hreg cmd' hcmd']
    · cases hs
  · cases hs

theorem deleted_change (h : Inv s) (c : Call Callback Context) :
    ∀ k ∈ (s.change c).deleted, BPTree.lookup (c.change s.commands) k = none := by
  intro k hk
  cases c with
  | addCommand name command =>
    obtain ⟨hk, hne⟩ := List.mem_filter.mp hk
    have hne : k ≠ commandKey name := by simpa using hne
    exact (lookup_change_ne (c := .addCommand name command) hne _).trans (h.deleted k hk)
  | deleteCommand name =>
    by_cases hkey : k = commandKey name
    · rw [hkey]
      exact BPTree.lookup_erase ..
    · exact (lookup_change_ne (c := .deleteCommand name) hkey _).trans (h.deleted k hk)

theorem at_change (h : Inv s) {t : Option Thread} {c : Call Callback Context}
    (hpc : s.pc t = .change c) (hok : Undisturbed s (.step t)) : (s.change c).At s.phase := by
  have hat := h.place
  have hm : s.mutex = some t := (h.mutex t).mpr (.inl ⟨c, .inl hpc⟩)
  have hlock : s.pc none = .idle → ¬ s.Holds none := by
    intro hidle hholds
    have hn := (h.mutex none).mpr hholds
    obtain rfl : t = none := Option.some.inj (hm.symm.trans hn)
    rw [hidle] at hpc
    cases hpc
  simp only [Undisturbed, hpc] at hok
  unfold State.Holds at hlock
  generalize s.phase = p at hat hok hlock
  cases p with
  | input => exact ⟨hat.1, by simp [State.change, hat.2]⟩
  | escape => exact ⟨hat.1, by simp [State.change, hat.2]⟩
  | bracket => exact ⟨hat.1, by simp [State.change, hat.2]⟩
  | acquire command => exact ⟨hat.1, hat.2.change c⟩
  | get command => exact absurd (.inr ⟨rfl, command, .inl rfl⟩) (hlock hat.1)
  | release command ref => exact absurd (.inr ⟨rfl, command, .inr ⟨ref, rfl⟩⟩) (hlock hat.1)
  | call command ref =>
    cases ref with
    | none =>
      obtain ⟨hidle, r, hr, hnone⟩ := hat
      exact ⟨hidle, r.see (c.change s.commands), by simp [State.change, hr],
        LineRecord.see_eq_none hnone _⟩
    | some ref => exact ⟨hat.1, hat.2.1.change c, hok⟩
  | running command cmd =>
    obtain ⟨-, r, hr, hran, hreg⟩ := hat
    refine ⟨hok, r.see (c.change s.commands), by simp [State.change, hr], hran, ?_⟩
    intro cmd' hcmd'
    exact hreg cmd' (LineRecord.see_registered hcmd').1
  | fault => exact hat

end Inv

variable [DecidableEq Thread]

structure Lifetime (s : State T Ref Thread Callback Context) : Prop where
  silent : ∀ command cmd, s.phase = .running command cmd → command ∉ s.deleted
  valid : s.phase ≠ .fault
  once : ∀ r ∈ s.processed, ∀ cmd, r.registered = some cmd → r.ran = [(cmd, r.args)]
  proceeds : ∀ command, s.phase = .acquire command →
    s.enter.isSome ∨ ∃ t, s.mutex = some (some t) ∧ (s.step (some t)).isSome

namespace Inv

theorem change (h : Inv s) {t : Option Thread} {c : Call Callback Context}
    (hpc : s.pc t = .change c) (hok : Undisturbed s (.step t)) :
    Inv { s.change c with pc := Function.update s.pc t (.release c) } where
  mutex u := by
    change s.mutex = some u ↔ _
    rw [h.mutex u]
    unfold State.Holds
    apply or_congr_left
    by_cases hu : u = t
    · subst hu
      simp [hpc]
    · simp [hu]
  deleted := h.deleted_change c
  once := h.once
  place := (h.at_change hpc hok).update s.mutex _ fun ht => h.running (by simp [← ht, hpc])

theorem step (h : Inv s) {t : Option Thread} (hok : Undisturbed s (.step t))
    (hs : s.step t = some s') : Inv s' := by
  unfold State.step at hs
  split at hs
  · cases hs
  · next c hpc =>
    split at hs
    · next hfree =>
      obtain rfl := Option.some.inj hs
      exact h.acquire hpc hfree
    · cases hs
  · next c hpc =>
    obtain rfl := Option.some.inj hs
    exact h.change hpc hok
  · next c hpc =>
    obtain rfl := Option.some.inj hs
    exact h.release hpc
  · next c hpc =>
    obtain rfl := Option.some.inj hs
    have hnote : (s.note c).pc = s.pc ∧ (s.note c).phase = s.phase := by
      cases c with
      | addCommand name command => exact ⟨rfl, rfl⟩
      | deleteCommand name =>
        unfold State.note
        dsimp only
        split <;> exact ⟨rfl, rfl⟩
    rw [← hnote.1] at hpc ⊢
    refine (h.note c).move (by simp [hpc]) (by simp) ?_
    rintro rfl
    exact (h.note c).running (by simp [hpc])

theorem next (h : Inv s) {l : Label Thread Callback Context} (hok : Undisturbed s l)
    (hs : s.next l = some s') : Inv s' := by
  cases l with
  | char c => exact h.char hs
  | disconnect => exact h.disconnect hs
  | enter => exact h.enter hs
  | call t c => exact h.call hs
  | step t => exact h.step hok hs

theorem proceeds (h : Inv s) {command : List Char} (hphase : s.phase = .acquire command) :
    s.enter.isSome ∨ ∃ t, s.mutex = some (some t) ∧ (s.step (some t)).isSome := by
  have hat := h.place
  rw [hphase] at hat
  cases hm : s.mutex with
  | none =>
    left
    simp [State.enter, hphase, hm]
  | some t =>
    right
    rcases (h.mutex t).mp hm with ⟨c, hc⟩ | ⟨-, command', hc⟩
    · cases t with
      | none => simp [hat.1] at hc
      | some t =>
        refine ⟨t, rfl, ?_⟩
        rcases hc with hc | hc <;> simp [State.step, hc]
    · simp [hphase] at hc

theorem lifetime (h : Inv s) : Lifetime s where
  silent command cmd hphase hdel := by
    have hat := h.place
    rw [hphase] at hat
    have hsome := hat.1
    rw [h.deleted command hdel] at hsome
    cases hsome
  valid hphase := by
    have hat := h.place
    rw [hphase] at hat
    exact hat
  once := h.once
  proceeds _ := h.proceeds

end Inv

theorem inv_init : Inv (cli T Ref Thread Callback Context).init where
  mutex t := by
    constructor
    · rintro ⟨⟩
    · rintro (⟨c, h | h⟩ | ⟨-, command, h | ⟨ref, h⟩⟩) <;> cases h
  deleted k hk := by cases hk
  once r hr := by cases hr
  place := ⟨rfl, rfl⟩

instance (s : State T Ref Thread Callback Context) (l : Label Thread Callback Context)
    [DecidableEq Ref] : Decidable (Undisturbed s l) := by
  unfold Undisturbed
  split
  · split <;> infer_instance
  · infer_instance

/-- Unless a change disturbs the command being run, the commands keep to their lifetime. -/
theorem command_lifetime (h : (cli T Ref Thread Callback Context).ReachableWith Undisturbed s) :
    Lifetime s :=
  (h.invariant inv_init fun _ _ _ hi hok hs => hi.next hok hs).lifetime

section Runs

/-- A tree with one leaf node, one other thread, and callbacks named by numbers. -/
abbrev leafCli : Machine (State (Leaf (List Char) (CliCommand ℕ ℕ)) ℕ Unit ℕ ℕ) (Label Unit ℕ ℕ) :=
  cli (Leaf (List Char) (CliCommand ℕ ℕ)) ℕ Unit ℕ ℕ

def callRun (c : Call ℕ ℕ) : List (Label Unit ℕ ℕ) :=
  [.call (some ()) c, .step (some ()), .step (some ()), .step (some ()), .step (some ())]

def lineRun (line : List Char) : List (Label Unit ℕ ℕ) :=
  line.map .char ++ [Label.char symbolAsciiCR]

/-- Two commands are added, a line runs the second, which is deleted afterwards. -/
def quietRun : List (Label Unit ℕ ℕ) :=
  callRun (.addCommand ['i', 'r', ' ', 'r', 'x'] ⟨1, 10⟩) ++ callRun (.addCommand ['t', 'm'] ⟨2, 20⟩) ++
    lineRun ['t', 'm', ' ', ' ', 'r', 'e', 'a', 'd', ' ', 'a', 'l', 'l'] ++ List.replicate 5 Label.enter ++
    callRun (.deleteCommand ['t', 'm'])

theorem command_lifetime_quiet :
    ∃ s, leafCli.ReachableWith Undisturbed s ∧ s.deleted = [['t', 'm']] ∧
      s.processed = [⟨['t', 'm', ' ', ' ', 'r', 'e', 'a', 'd', ' ', 'a', 'l', 'l'], some ⟨2, 20⟩,
        [(⟨2, 20⟩, ['r', 'e', 'a', 'd', ' ', 'a', 'l', 'l'])]⟩] ∧ Lifetime s := by
  have hrun : ∃ s, leafCli.execWith Undisturbed leafCli.init quietRun = some s ∧
      s.deleted = [['t', 'm']] ∧
      s.processed = [⟨['t', 'm', ' ', ' ', 'r', 'e', 'a', 'd', ' ', 'a', 'l', 'l'], some ⟨2, 20⟩,
        [(⟨2, 20⟩, ['r', 'e', 'a', 'd', ' ', 'a', 'l', 'l'])]⟩] := ⟨_, rfl, rfl, rfl⟩
  obtain ⟨s, hs, hdeleted, hprocessed⟩ := hrun
  have hreach := Machine.execWith_reachableWith .init hs
  exact ⟨s, hreach, hdeleted, hprocessed, command_lifetime hreach⟩

def deletedRun : List (Label Unit ℕ ℕ) :=
  callRun (.addCommand ['t', 'm'] ⟨2, 20⟩) ++ lineRun ['t', 'm'] ++ List.replicate 4 Label.enter ++
    callRun (.deleteCommand ['t', 'm'])

/-- Another command is deleted between the lookup and the callback. -/
def shiftedRun : List (Label Unit ℕ ℕ) :=
  callRun (.addCommand ['a'] ⟨1, 10⟩) ++ callRun (.addCommand ['b'] ⟨2, 20⟩) ++
    callRun (.addCommand ['c'] ⟨3, 30⟩) ++ lineRun ['b'] ++ List.replicate 3 Label.enter ++
    callRun (.deleteCommand ['a']) ++ List.replicate 2 Label.enter

/-- The callback of a deleted command still runs, and a line runs the callback of another
command than the one it names. -/
theorem not_command_lifetime :
    (∃ s, leafCli.Reachable s ∧ s.phase = .running ['t', 'm'] ⟨2, 20⟩ ∧ ['t', 'm'] ∈ s.deleted) ∧
      (∃ s, leafCli.Reachable s ∧
        s.processed = [⟨['b'], some ⟨2, 20⟩, [(⟨3, 30⟩, [])]⟩]) ∧
      ¬ ∀ s, leafCli.Reachable s → Lifetime s := by
  have hdeleted : ∃ s, leafCli.exec leafCli.init deletedRun = some s ∧
      s.phase = .running ['t', 'm'] ⟨2, 20⟩ ∧ ['t', 'm'] ∈ s.deleted :=
    ⟨_, rfl, rfl, List.mem_cons_self⟩
  have hshifted : ∃ s, leafCli.exec leafCli.init shiftedRun = some s ∧
      s.processed = [⟨['b'], some ⟨2, 20⟩, [(⟨3, 30⟩, [])]⟩] := ⟨_, rfl, rfl⟩
  obtain ⟨s, hs, hphase, hmem⟩ := hdeleted
  obtain ⟨t, ht, hprocessed⟩ := hshifted
  have hreach := Machine.exec_reachable .init hs
  refine ⟨⟨s, hreach, hphase, hmem⟩, ⟨t, Machine.exec_reachable .init ht, hprocessed⟩, ?_⟩
  intro h
  exact (h s hreach).silent _ _ hphase hmem

end Runs

end FlipperZero.Cli
