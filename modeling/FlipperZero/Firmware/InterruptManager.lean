import FlipperZero.Lib.Machine

/-! # Interrupt callbacks

A table slot holds the callback of an interrupt, its context and whether it is ready. A thread
fills and clears the slot with single stores, and the interrupt may come between any two of them.
-/

namespace FlipperZero.Firmware.InterruptManager

open Lib

variable {F C : Type} [DecidableEq F]

structure InterruptCallbackItem (F C : Type) where
  callback : Option F
  context : Option C
  ready : Bool
deriving DecidableEq

/-- The slot after `api_interrupt_init`. -/
def apiInterruptInit : InterruptCallbackItem F C := ⟨none, none, false⟩

/-- The calls that a thread makes. Their callbacks are never `NULL`, which is the `none` of a slot. -/
inductive Op (F C : Type) where
  | add (callback : F) (context : C)
  | remove (callback : F)
  | enable (callback : F)
  | disable (callback : F)
deriving DecidableEq

inductive Store (F C : Type) where
  | callback (value : Option F)
  | context (value : Option C)
  | ready (value : Bool)

def Store.apply (item : InterruptCallbackItem F C) : Store F C → InterruptCallbackItem F C
  | .callback value => { item with callback := value }
  | .context value => { item with context := value }
  | .ready value => { item with ready := value }

/-- The `furi_check` of a call. -/
def Op.check (item : InterruptCallbackItem F C) : Op F C → Bool
  | .add _ _ => item.callback.isNone
  | .remove callback => item.callback.isNone || item.callback = some callback
  | .enable callback | .disable callback => item.callback = some callback

/-- The stores of a call, in the order of the program and its memory barriers. -/
def Op.stores : Op F C → List (Store F C)
  | .add callback context => [.callback (some callback), .context (some context), .ready true]
  | .remove _ => [.ready false, .callback none, .context none]
  | .enable _ => [.ready true]
  | .disable _ => [.ready false]

/-- A call that no interrupt comes into; `none` when its check fails. -/
def Op.run (item : InterruptCallbackItem F C) (op : Op F C) : Option (InterruptCallbackItem F C) :=
  if op.check item then some (op.stores.foldl Store.apply item) else none

def apiInterruptAdd (callback : F) (context : C) (item : InterruptCallbackItem F C) :=
  Op.run item (.add callback context)

def apiInterruptRemove (callback : F) (item : InterruptCallbackItem F C) :=
  Op.run item (.remove callback)

def apiInterruptEnable (callback : F) (item : InterruptCallbackItem F C) :=
  Op.run item (.enable callback)

def apiInterruptDisable (callback : F) (item : InterruptCallbackItem F C) :=
  Op.run item (.disable callback)

/-- `api_interrupt_call`: the callback that runs, with its context. -/
def apiInterruptCall (item : InterruptCallbackItem F C) : Option (F × Option C) :=
  item.callback.bind fun callback => if item.ready then some (callback, item.context) else none

structure State (F C : Type) where
  item : InterruptCallbackItem F C
  /-- The call that a thread is in, with the stores of it that are left. -/
  current : Option (Op F C × List (Store F C))
  /-- The calls that have stored whether the callback is ready. -/
  ops : List (Op F C)
  /-- What the interrupts so far have run, with the calls before them. -/
  invoked : List (List (Op F C) × F × Option C)

inductive Label (F C : Type) where
  | call (op : Op F C)
  | store
  | leave
  | interrupt

def next (st : State F C) : Label F C → Option (State F C)
  | .call op =>
    match st.current with
    | none => if op.check st.item then some { st with current := some (op, op.stores) } else none
    | some _ => none
  | .store =>
    match st.current with
    | some (op, .ready value :: rest) => some
        { st with
          item := (Store.ready value).apply st.item
          current := some (op, rest)
          ops := st.ops ++ [op] }
    | some (op, s :: rest) => some { st with item := s.apply st.item, current := some (op, rest) }
    | _ => none
  | .leave =>
    match st.current with
    | some (_, []) => some { st with current := none }
    | _ => none
  | .interrupt => some
      { st with
        invoked := st.invoked ++
          ((apiInterruptCall st.item).map fun run => (st.ops, run)).toList }

/-- A thread that calls the manager, with interrupts at any moment. -/
def system : Machine (State F C) (Label F C) where
  init := ⟨apiInterruptInit, none, [], []⟩
  next := next

/-- The callback that some calls ask for, with its context, and whether it may run. -/
structure Registration (F C : Type) where
  callback : Option (F × C)
  enabled : Bool

def Registration.after (r : Registration F C) : Op F C → Registration F C
  | .add callback context => ⟨some (callback, context), true⟩
  | .remove _ => ⟨none, false⟩
  | .enable _ => { r with enabled := true }
  | .disable _ => { r with enabled := false }

def registration (ops : List (Op F C)) : Registration F C :=
  ops.foldl Registration.after ⟨none, false⟩

def Registration.runs (r : Registration F C) : Option (F × Option C) :=
  r.callback.bind fun p => if r.enabled then some (p.1, some p.2) else none

def Settled (item : InterruptCallbackItem F C) (r : Registration F C) : Prop :=
  item.callback = r.callback.map Prod.fst ∧
    (item.callback.isSome → item.context = r.callback.map Prod.snd) ∧
    item.ready = (r.callback.isSome && r.enabled)

inductive Between : InterruptCallbackItem F C → Registration F C →
    Option (Op F C × List (Store F C)) → Prop
  | idle {item : InterruptCallbackItem F C} {r : Registration F C} (h : Settled item r) :
      Between item r none
  | begun {item : InterruptCallbackItem F C} {r : Registration F C} {op : Op F C}
      (h : Settled item r) (hc : op.check item) : Between item r (some (op, op.stores))
  | done {item : InterruptCallbackItem F C} {r : Registration F C} {op : Op F C}
      (h : Settled item r) : Between item r (some (op, []))
  | addCallback {r : Registration F C} {callback : F} {context : C} {x : Option C}
      (h : r.callback = none) : Between ⟨some callback, x, false⟩ r
        (some (.add callback context, [.context (some context), .ready true]))
  | addContext {r : Registration F C} {callback : F} {context : C} (h : r.callback = none) :
      Between ⟨some callback, some context, false⟩ r
        (some (.add callback context, [.ready true]))
  | removeReady {r : Registration F C} {f : F} {y : Option F} {x : Option C}
      (h : r.callback = none) :
      Between ⟨y, x, false⟩ r (some (.remove f, [.callback none, .context none]))
  | removeCallback {r : Registration F C} {f : F} {x : Option C} (h : r.callback = none) :
      Between ⟨none, x, false⟩ r (some (.remove f, [.context none]))

variable {st st' : State F C} {item : InterruptCallbackItem F C} {r : Registration F C}
  {op : Op F C} {current : Option (Op F C × List (Store F C))}

omit [DecidableEq F] in
theorem Settled.call (h : Settled item r) : apiInterruptCall item = r.runs := by
  obtain ⟨callback, context, ready⟩ := item
  obtain ⟨hcallback, hcontext, hready⟩ := h
  cases hr : r.callback with
  | none =>
    rw [hr] at hcallback
    simp_all [apiInterruptCall, Registration.runs]
  | some p =>
    rw [hr] at hcallback hcontext hready
    simp_all [apiInterruptCall, Registration.runs]

theorem Between.call (h : Between item r current) : apiInterruptCall item = r.runs := by
  cases h with
  | idle h => exact h.call
  | begun h _ => exact h.call
  | done h => exact h.call
  | addCallback h => simp [apiInterruptCall, Registration.runs, h]
  | addContext h => simp [apiInterruptCall, Registration.runs, h]
  | removeReady h => cases ‹Option F› <;> simp [apiInterruptCall, Registration.runs, h]
  | removeCallback h => simp [apiInterruptCall, Registration.runs, h]

omit [DecidableEq F] in
theorem registration_concat (ops : List (Op F C)) (op : Op F C) :
    registration (ops ++ [op]) = (registration ops).after op := by
  rw [registration, List.foldl_append]
  rfl

theorem Between.store_begun (h : Between st.item (registration st.ops) (some (op, op.stores)))
    (hc : op.check st.item) (hs : Settled st.item (registration st.ops))
    (hcur : st.current = some (op, op.stores)) (hn : next st .store = some st') :
    Between st'.item (registration st'.ops) st'.current ∧ st'.invoked = st.invoked := by
  obtain ⟨item, current, ops, invoked⟩ := st
  obtain ⟨callback, context, ready⟩ := item
  obtain ⟨hcallback, hcontext, hready⟩ := hs
  dsimp only at hcur hcallback hcontext hready
  subst hcur
  cases op with
  | add f c =>
    cases hn
    obtain rfl : callback = none := by simpa [Op.check] using hc
    have hr : (registration ops).callback = none := by simpa using hcallback.symm
    obtain rfl : ready = false := by simpa [hr] using hready
    exact ⟨.addCallback hr, rfl⟩
  | remove f =>
    cases hn
    refine ⟨?_, rfl⟩
    rw [registration_concat]
    exact .removeReady rfl
  | enable f =>
    cases hn
    obtain rfl : callback = some f := by simpa [Op.check] using hc
    refine ⟨.done ?_, rfl⟩
    rw [registration_concat]
    refine ⟨hcallback, hcontext, ?_⟩
    have hsome : (registration ops).callback.isSome := by
      rw [← Option.isSome_map (f := Prod.fst), ← hcallback]
      rfl
    simp [Store.apply, Registration.after, hsome]
  | disable f =>
    cases hn
    refine ⟨.done ?_, rfl⟩
    rw [registration_concat]
    exact ⟨hcallback, hcontext, by simp [Store.apply, Registration.after]⟩

theorem Between.next (h : Between st.item (registration st.ops) st.current) {l : Label F C}
    (hn : next st l = some st') : Between st'.item (registration st'.ops) st'.current ∧
      (st'.invoked = st.invoked ∨ ∃ run, apiInterruptCall st.item = some run ∧
        st'.invoked = st.invoked ++ [(st.ops, run)]) := by
  cases l with
  | call op =>
    obtain ⟨item, current, ops, invoked⟩ := st
    cases current with
    | some p => cases hn
    | none =>
      simp only [InterruptManager.next] at hn
      split at hn
      · next hc =>
        cases hn
        cases h with
        | idle h => exact ⟨.begun h hc, .inl rfl⟩
      · cases hn
  | store =>
    obtain ⟨item, current, ops, invoked⟩ := st
    have hbetween := h
    cases h with
    | idle h => cases hn
    | begun h hc =>
      obtain ⟨h₁, h₂⟩ := hbetween.store_begun hc h rfl hn
      exact ⟨h₁, .inl h₂⟩
    | done h => cases hn
    | addCallback h =>
      cases hn
      exact ⟨.addContext h, .inl rfl⟩
    | addContext h =>
      cases hn
      refine ⟨.done ?_, .inl rfl⟩
      rw [registration_concat]
      exact ⟨rfl, fun _ => rfl, rfl⟩
    | removeReady h =>
      cases hn
      exact ⟨.removeCallback h, .inl rfl⟩
    | removeCallback h =>
      cases hn
      refine ⟨.done ⟨?_, nofun, ?_⟩, .inl rfl⟩
      · simp [Store.apply, h]
      · simp [Store.apply, h]
  | leave =>
    obtain ⟨item, current, ops, invoked⟩ := st
    cases h with
    | done h =>
      cases hn
      exact ⟨.idle h, .inl rfl⟩
    | begun h hc =>
      rename_i op
      cases op <;> cases hn
    | _ => cases hn
  | interrupt =>
    cases hn
    refine ⟨h, ?_⟩
    cases hrun : apiInterruptCall st.item with
    | none => exact .inl (by simp)
    | some run => exact .inr ⟨run, rfl, by simp⟩

theorem between_of_reachable (h : system.Reachable st) :
    Between st.item (registration st.ops) st.current ∧
      ∀ run ∈ st.invoked, (registration run.1).runs = some run.2 := by
  have hinit : Settled (apiInterruptInit : InterruptCallbackItem F C) (registration []) :=
    ⟨rfl, by simp [apiInterruptInit], rfl⟩
  refine h.invariant (P := fun st : State F C =>
    Between st.item (registration st.ops) st.current ∧
      ∀ run ∈ st.invoked, (registration run.1).runs = some run.2)
    ⟨.idle hinit, fun run hrun => absurd hrun (List.not_mem_nil)⟩ ?_
  rintro st l st' ⟨hbetween, hinvoked⟩ hn
  obtain ⟨hnext, heq | ⟨run, hrun, heq⟩⟩ := hbetween.next hn
  · exact ⟨hnext, heq ▸ hinvoked⟩
  · refine ⟨hnext, ?_⟩
    intro run' hmem
    rw [heq] at hmem
    rcases List.mem_append.mp hmem with hmem | hmem
    · exact hinvoked run' hmem
    · obtain rfl : run' = (st.ops, run) := by simpa using hmem
      rw [← hbetween.call]
      exact hrun

/-- Wherever an interrupt comes between the stores of the calls, it runs the callback of the last
registration, with the context of the same registration, or nothing when there is none or it is
not enabled: each call takes effect at its store of whether the callback is ready. -/
theorem interrupts_run_registered (h : system.Reachable st) :
    apiInterruptCall st.item = (registration st.ops).runs ∧
      ∀ run ∈ st.invoked, (registration run.1).runs = some run.2 := by
  obtain ⟨hbetween, hinvoked⟩ := between_of_reachable h
  exact ⟨hbetween.call, hinvoked⟩

/-- An interrupt comes between the stores of a call that adds another callback. -/
theorem interrupts_run_registered_add : ∃ st : State ℕ ℕ, system.Reachable st ∧
    st.ops = [.add 1 2, .remove 1] ∧ apiInterruptCall st.item = none := by
  let labels : List (Label ℕ ℕ) := [.call (.add 1 2), .store, .store, .store, .leave,
    .call (.remove 1), .store, .store, .store, .leave, .call (.add 3 4), .store]
  obtain ⟨st, hexec, hops⟩ : ∃ st : State ℕ ℕ, system.exec system.init labels = some st ∧
      st.ops = [.add 1 2, .remove 1] := ⟨_, rfl, rfl⟩
  have hreach := Machine.exec_reachable .init hexec
  have hruns := (interrupts_run_registered hreach).1
  rw [hops] at hruns
  exact ⟨st, hreach, hops, hruns⟩

end FlipperZero.Firmware.InterruptManager
