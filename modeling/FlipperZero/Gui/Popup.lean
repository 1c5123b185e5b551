import FlipperZero.Input.Pin
import FlipperZero.Lib.Machine
import FlipperZero.Rtos.Timers

/-! # The popup and its callers

The callback of a popup and its context are two fields. The application writes them one after the
other when it leaves a scene and enters the next. The timer task and the GUI service test the
callback, and then read it and the context to call it.
-/

namespace FlipperZero.Gui

open Lib Input Rtos

/-- The period of the timeout is left out: the timer may expire at any time. -/
structure Popup (Callback Context : Type) where
  context : Option Context
  callback : Option Callback
  timerEnabled : Bool

/-- What the application does to the popup and to the current view. -/
inductive PopupOp (Callback Context : Type) where
  | setCallback (callback : Option Callback)
  | setContext (context : Option Context)
  | enableTimeout
  | disableTimeout
  | viewExit
  | assignView (popup : Bool)
  | viewEnter

inductive PopupScene (Callback Context : Type) where
  /-- The popup with a callback, as after a key is saved, written or deleted. -/
  | success (callback : Callback) (context : Context)
  | message
  | other
  | selectKey

variable {Callback Context : Type}

/-- `view_dispatcher_set_current_view` -/
def setCurrentView (popup : Bool) : List (PopupOp Callback Context) :=
  [.viewExit, .assignView popup, .viewEnter]

namespace PopupScene

def onEnter : PopupScene Callback Context → List (PopupOp Callback Context)
  | success callback context =>
    .setCallback (some callback) :: .setContext (some context) :: .enableTimeout ::
      setCurrentView true
  | message => setCurrentView true
  | other => setCurrentView false
  | selectKey => []

def onExit : PopupScene Callback Context → List (PopupOp Callback Context)
  | success _ _ => [.disableTimeout, .setContext none, .setCallback none]
  | message | other | selectKey => []

def registration : PopupScene Callback Context → List (Callback × Context)
  | success callback context => [(callback, context)]
  | message | other | selectKey => []

end PopupScene

/-- Where a thread is in `popup_timer_callback` or `popup_view_input_callback`. -/
inductive PopupCaller (Callback : Type) where
  | test
  | found
  | call (callback : Option Callback)

inductive PopupThread where
  | timer
  | gui
deriving DecidableEq, Repr

structure PopupSystem (Callback Context : Type) where
  popup : Popup Callback Context
  /-- The current view is that of the popup. -/
  shown : Bool
  scene : PopupScene Callback Context
  ops : List (PopupOp Callback Context)
  timers : Timers Unit (PopupCaller Callback)
  gui : Option (PopupCaller Callback)
  /-- What scenes have registered so far. -/
  registered : List (Callback × Context)
  /-- The calls so far, with what each has read. -/
  calls : List (Option Callback × Option Context)

def PopupOp.apply (popup : Popup Callback Context) : PopupOp Callback Context →
    Popup Callback Context
  | setCallback callback => { popup with callback := callback }
  | setContext context => { popup with context := context }
  | enableTimeout => { popup with timerEnabled := true }
  | disableTimeout => { popup with timerEnabled := false }
  | viewExit | assignView _ | viewEnter => popup

def PopupCaller.next (popup : Popup Callback Context) : PopupCaller Callback →
    Option (PopupCaller Callback) × Option (Option Callback × Option Context)
  | test => (if popup.callback.isSome then some found else none, none)
  | found => (some (call popup.callback), none)
  | call callback => (none, some (callback, popup.context))

namespace PopupSystem

inductive Label (Callback Context : Type) where
  | switchScene (next : PopupScene Callback Context)
  | app
  | input (type : InputType)
  | expire
  | turn
  | caller (thread : PopupThread)

variable (s : PopupSystem Callback Context)

def caller : PopupThread → Option (PopupCaller Callback)
  | .timer => s.timers.progress ()
  | .gui => s.gui

def setCaller (c : Option (PopupCaller Callback)) : PopupThread → PopupSystem Callback Context
  | .timer => { s with
      timers := s.timers.setTask (match c with | some c => .callback () c | none => .drain) }
  | .gui => { s with gui := c }

/-- `popup_start_timer` stops at its assertion when the queue of commands is full. -/
def popupStartTimer : Option (Timers Unit (PopupCaller Callback)) :=
  if s.popup.timerEnabled then s.timers.post () .changePeriod else some s.timers

/-- `osTimerStop` asks an active timer to stop, when the queue of commands has room. -/
def popupStopTimer : Timers Unit (PopupCaller Callback) :=
  if s.timers.active () then (s.timers.post () .stop).getD s.timers else s.timers

/-- What an operation of the application does besides the fields of the popup. -/
def command : PopupOp Callback Context → Option (PopupSystem Callback Context)
  | .viewExit => some (if s.shown then { s with timers := s.popupStopTimer } else s)
  | .assignView popup => some { s with shown := popup }
  | .viewEnter => if s.shown then s.popupStartTimer.map fun t => { s with timers := t } else some s
  | .setCallback _ | .setContext _ | .enableTimeout | .disableTimeout => some s

/-- The next step of a thread that is at `c`. -/
def goOn (thread : PopupThread) (c : PopupCaller Callback) : PopupSystem Callback Context :=
  { s.setCaller (c.next s.popup).1 thread with calls := s.calls ++ (c.next s.popup).2.toList }

def callerNext (thread : PopupThread) : Option (PopupSystem Callback Context) :=
  (s.caller thread).map (s.goOn thread)

def next : Label Callback Context → Option (PopupSystem Callback Context)
  | .switchScene next =>
    match s.ops with
    | [] =>
      some { s with
        scene := next
        ops := s.scene.onExit ++ next.onEnter
        registered := s.registered ++ next.registration }
    | _ :: _ => none
  | .app =>
    match s.ops with
    | [] => none
    | op :: ops => (s.command op).map fun s => { s with popup := op.apply s.popup, ops := ops }
  | .input type =>
    if s.gui.isNone ∧ s.shown then
      some (if type = .short then { s with gui := some .test } else s)
    else none
  | .expire => (s.timers.expireOnce () .test).map fun t => { s with timers := t }
  | .turn => s.timers.turn.map fun t => { s with timers := t }
  | .caller thread => s.callerNext thread

def machine : Machine (PopupSystem Callback Context) (Label Callback Context) where
  init :=
    { popup := ⟨none, none, false⟩
      shown := false
      scene := .selectKey
      ops := []
      timers := .init
      gui := none
      registered := []
      calls := [] }
  next := next

/-- Every call so far has a callback and the context that was registered with it. -/
def Paired : Prop := ∀ call ∈ s.calls, ∃ r ∈ s.registered, call = (some r.1, some r.2)

def Calling (thread : PopupThread) : Prop := ∃ c, s.caller thread = some c ∧ c ≠ .test

/-- A caller that finds a callback finds a context as well, and no thread is between its test and
its call when the application clears the context. -/
def Keeps : Label Callback Context → Prop
  | .caller thread =>
    s.caller thread = some .test → s.popup.callback.isSome → s.popup.context.isSome
  | .app => ∀ ops, s.ops = .setContext none :: ops → ∀ thread, ¬s.Calling thread
  | _ => True

/-- A callback and a context that are in place were registered together. -/
def Together (registered : List (Callback × Context)) (p : Popup Callback Context) : Prop :=
  ∀ f c, p.callback = some f → p.context = some c → (f, c) ∈ registered

def Entered (p : Popup Callback Context) : PopupScene Callback Context → Prop
  | .success f c => p.callback = some f ∧ p.context = some c
  | .message | .other | .selectKey => p.callback = none ∧ p.context = none

def Spares (p : Popup Callback Context) (op : PopupOp Callback Context) : Prop :=
  p.context.isSome → (op.apply p).callback = p.callback ∧ (op.apply p).context = p.context

/-- The operations enter the scene, and only one that clears the context touches the fields while
both are in place. -/
def Orderly (registered : List (Callback × Context)) (scene : PopupScene Callback Context) :
    Popup Callback Context → List (PopupOp Callback Context) → Prop
  | p, [] => Together registered p ∧ Entered p scene
  | p, op :: ops =>
    Together registered p ∧ (op = .setContext none ∨ Spares p op) ∧
      Orderly registered scene (op.apply p) ops

structure Sound : Prop where
  orderly : Orderly s.registered s.scene s.popup s.ops
  calling : ∀ thread c, s.caller thread = some c → c ≠ .test →
    (∃ f x, s.popup.callback = some f ∧ s.popup.context = some x) ∧
      (c = .found ∨ c = .call s.popup.callback)
  paired : s.Paired

variable {s} {s' : PopupSystem Callback Context} {l : Label Callback Context}

theorem Orderly.together {registered : List (Callback × Context)}
    {scene : PopupScene Callback Context} {p : Popup Callback Context}
    {ops : List (PopupOp Callback Context)} (h : Orderly registered scene p ops) :
    Together registered p := by
  cases ops with
  | nil => exact h.1
  | cons op ops => exact h.1

theorem orderly_switchScene {registered : List (Callback × Context)}
    {scene : PopupScene Callback Context} {p : Popup Callback Context}
    (h : Orderly registered scene p []) (next : PopupScene Callback Context) :
    Orderly (registered ++ next.registration) next p (scene.onExit ++ next.onEnter) := by
  obtain ⟨htogether, hentered⟩ := h
  have hmono : Together (registered ++ next.registration) p := fun f c hf hc =>
    List.mem_append_left _ (htogether f c hf hc)
  have hnext {p : Popup Callback Context} (hcallback : p.callback = none)
      (hcontext : p.context = none) :
      Orderly (registered ++ next.registration) next p next.onEnter := by
    cases next <;>
      simp [Orderly, Together, Spares, Entered, PopupScene.onEnter, PopupScene.registration,
        setCurrentView, PopupOp.apply, hcallback, hcontext]
  cases scene with
  | success f c =>
    obtain ⟨hf, hc⟩ := hentered
    refine ⟨hmono, .inr ?_, hmono, .inl rfl, ?_, .inr ?_, hnext rfl rfl⟩
    · exact fun _ => ⟨rfl, rfl⟩
    · exact fun _ _ _ hc => (by cases hc)
    · exact fun hc => (by cases hc)
  | message | other | selectKey => exact hnext hentered.1 hentered.2

/-- What a step of the machine does to the popup and to the threads that call. -/
inductive Next : Label Callback Context → PopupSystem Callback Context → Prop where
  | switchScene (next : PopupScene Callback Context) (hops : s.ops = []) :
    Next (.switchScene next)
      { s with
        scene := next
        ops := s.scene.onExit ++ next.onEnter
        registered := s.registered ++ next.registration }
  | app (op : PopupOp Callback Context) (ops : List (PopupOp Callback Context))
    (t : Timers Unit (PopupCaller Callback)) (shown : Bool) (hops : s.ops = op :: ops)
    (ht : t.progress () = s.timers.progress ()) :
    Next .app { s with popup := op.apply s.popup, ops := ops, timers := t, shown := shown }
  | wait (l : Label Callback Context) (t : Timers Unit (PopupCaller Callback))
    (gui : Option (PopupCaller Callback))
    (ht : ∀ c, t.progress () = some c → c ≠ .test → s.timers.progress () = some c)
    (hgui : ∀ c, gui = some c → c ≠ .test → s.gui = some c) :
    Next l { s with timers := t, gui := gui }
  | caller (thread : PopupThread) (c : PopupCaller Callback) (hc : s.caller thread = some c) :
    Next (.caller thread) (s.goOn thread c)

theorem progress_popupStopTimer : s.popupStopTimer.progress () = s.timers.progress () := by
  unfold popupStopTimer
  split
  · rcases h : s.timers.post () .stop with _ | t
    · rfl
    · exact Timers.progress_post h
  · rfl

theorem progress_popupStartTimer {t : Timers Unit (PopupCaller Callback)}
    (h : s.popupStartTimer = some t) : t.progress () = s.timers.progress () := by
  unfold popupStartTimer at h
  split at h
  · exact Timers.progress_post h
  · exact Option.some.inj h ▸ rfl

theorem command_eq_some {op : PopupOp Callback Context} (h : s.command op = some s') :
    ∃ t shown, s' = { s with timers := t, shown := shown } ∧
      t.progress () = s.timers.progress () := by
  cases op with
  | setCallback | setContext | enableTimeout | disableTimeout =>
    obtain rfl := Option.some.inj h
    exact ⟨s.timers, s.shown, rfl, rfl⟩
  | viewExit =>
    obtain rfl := Option.some.inj h
    split
    · exact ⟨s.popupStopTimer, s.shown, rfl, progress_popupStopTimer⟩
    · exact ⟨s.timers, s.shown, rfl, rfl⟩
  | assignView popup =>
    obtain rfl := Option.some.inj h
    exact ⟨s.timers, popup, rfl, rfl⟩
  | viewEnter =>
    simp only [command] at h
    split at h
    · obtain ⟨t, ht, rfl⟩ := Option.map_eq_some_iff.mp h
      exact ⟨t, s.shown, rfl, progress_popupStartTimer ht⟩
    · obtain rfl := Option.some.inj h
      exact ⟨s.timers, s.shown, rfl, rfl⟩

theorem machine_next (hs : machine.next s l = some s') : s.Next l s' := by
  simp only [machine, next] at hs
  cases l with
  | switchScene next =>
    simp only at hs
    split at hs
    · next hops => exact Option.some.inj hs ▸ .switchScene next hops
    · cases hs
  | app =>
    simp only at hs
    split at hs
    · cases hs
    · next op ops hops =>
      obtain ⟨s₁, hcommand, rfl⟩ := Option.map_eq_some_iff.mp hs
      obtain ⟨t, shown, rfl, ht⟩ := command_eq_some hcommand
      exact .app op ops t shown hops ht
  | input type =>
    simp only at hs
    split at hs
    · obtain rfl := Option.some.inj hs
      split
      · exact .wait _ s.timers (some .test) (fun _ h _ => h) fun c hc hne =>
          absurd (Option.some.inj hc).symm hne
      · exact .wait _ s.timers s.gui (fun _ h _ => h) fun _ h _ => h
    · cases hs
  | expire =>
    obtain ⟨t, ht, rfl⟩ := Option.map_eq_some_iff.mp hs
    obtain ⟨-, hprogress⟩ := Timers.progress_expireOnce ht
    refine .wait _ t s.gui (fun c hc hne => ?_) fun _ h _ => h
    exact absurd (Option.some.inj (hprogress.symm.trans hc)).symm hne
  | turn =>
    obtain ⟨t, ht, rfl⟩ := Option.map_eq_some_iff.mp hs
    obtain ⟨-, hprogress⟩ := Timers.progress_turn (k := ()) ht
    refine .wait _ t s.gui (fun c hc _ => ?_) fun _ h _ => h
    cases hprogress.symm.trans hc
  | caller thread =>
    obtain ⟨c, hc, rfl⟩ := Option.map_eq_some_iff.mp hs
    exact .caller thread c hc

theorem caller_goOn_self (thread : PopupThread) (c : PopupCaller Callback) :
    (s.goOn thread c).caller thread = (c.next s.popup).1 := by
  cases thread with
  | timer => cases h : (c.next s.popup).1 <;> simp [caller, goOn, setCaller, h]
  | gui => rfl

theorem caller_goOn_ne {thread other : PopupThread} (h : other ≠ thread)
    (c : PopupCaller Callback) : (s.goOn thread c).caller other = s.caller other := by
  cases thread <;> cases other <;> first | rfl | exact absurd rfl h

/-- A step of a thread leaves what the application writes. -/
structure Kept (s s' : PopupSystem Callback Context) : Prop where
  popup : s'.popup = s.popup
  scene : s'.scene = s.scene
  ops : s'.ops = s.ops
  registered : s'.registered = s.registered

theorem kept_goOn (thread : PopupThread) (c : PopupCaller Callback) : Kept s (s.goOn thread c) := by
  cases thread <;> exact ⟨rfl, rfl, rfl, rfl⟩

theorem Sound.next (h : s.Sound) (hkeeps : s.Keeps l) (hs : s.Next l s') : s'.Sound := by
  cases hs with
  | switchScene next hops =>
    refine ⟨orderly_switchScene (hops ▸ h.orderly) next, h.calling, fun call hcall => ?_⟩
    obtain ⟨r, hr, heq⟩ := h.paired call hcall
    exact ⟨r, List.mem_append_left _ hr, heq⟩
  | app op ops t shown hops ht =>
    have horderly := h.orderly
    rw [hops] at horderly
    obtain ⟨-, hop, hrest⟩ := horderly
    refine ⟨hrest, fun thread c hc hne => ?_, h.paired⟩
    have hc' : s.caller thread = some c := by
      cases thread with
      | timer => exact ht.symm.trans hc
      | gui => exact hc
    obtain ⟨⟨f, x, hf, hx⟩, hcase⟩ := h.calling thread c hc' hne
    rcases hop with rfl | hspares
    · exact absurd ⟨c, hc', hne⟩ (hkeeps ops hops thread)
    · obtain ⟨hcallback, hcontext⟩ := hspares (by rw [hx]; rfl)
      simp only [hcallback, hcontext]
      exact ⟨⟨f, x, hf, hx⟩, hcase⟩
  | wait l t gui ht hgui =>
    refine ⟨h.orderly, fun thread c hc hne => ?_, h.paired⟩
    cases thread with
    | timer => exact h.calling .timer c (ht c hc hne) hne
    | gui => exact h.calling .gui c (hgui c hc hne) hne
  | caller thread c hc =>
    have hkept := kept_goOn (s := s) thread c
    refine ⟨?_, fun other c' hc' hne => ?_, ?_⟩
    · rw [hkept.registered, hkept.scene, hkept.popup, hkept.ops]
      exact h.orderly
    · rw [hkept.popup]
      by_cases hother : other = thread
      · subst hother
        have hself := (caller_goOn_self other c).symm.trans hc'
        cases c with
        | test =>
          simp only [PopupCaller.next] at hself
          split at hself
          · next hsome =>
            obtain ⟨f, hf⟩ := Option.isSome_iff_exists.mp hsome
            obtain ⟨x, hx⟩ := Option.isSome_iff_exists.mp (hkeeps hc hsome)
            exact ⟨⟨f, x, hf, hx⟩, .inl (Option.some.inj hself).symm⟩
          · cases hself
        | found =>
          obtain ⟨hin, -⟩ := h.calling other .found hc (by simp)
          exact ⟨hin, .inr (Option.some.inj hself).symm⟩
        | call callback => cases hself
      · exact h.calling other c' ((caller_goOn_ne hother c).symm.trans hc') hne
    · intro call hcall
      rw [hkept.registered]
      rcases List.mem_append.mp hcall with hcall | hcall
      · exact h.paired call hcall
      · cases c with
        | test | found => cases hcall
        | call callback =>
          obtain ⟨⟨f, x, hf, hx⟩, hcase⟩ := h.calling thread _ hc (by simp)
          obtain hfound | hcallback := hcase
          · cases hfound
          · obtain rfl := PopupCaller.call.inj hcallback
            refine ⟨(f, x), h.orderly.together f x hf hx, ?_⟩
            rw [List.mem_singleton.mp hcall, hf, hx]

theorem sound_init : (machine : Machine (PopupSystem Callback Context) _).init.Sound where
  orderly := ⟨fun _ _ h => (by cases h), rfl, rfl⟩
  calling thread c hc := by cases thread <;> cases hc
  paired _ h := by cases h

theorem machine_next_caller {thread : PopupThread} {c : PopupCaller Callback}
    (hc : s.caller thread = some c) : machine.next s (.caller thread) = some (s.goOn thread c) := by
  show (s.caller thread).map (s.goOn thread) = _
  rw [hc, Option.map_some]

theorem not_paired_of_mem {callback : Option Callback} (h : (callback, none) ∈ s.calls) :
    ¬s.Paired := by
  intro hpaired
  obtain ⟨r, -, heq⟩ := hpaired _ h
  cases heq

theorem not_paired_of_call {thread : PopupThread} {callback : Option Callback}
    (hc : s.caller thread = some (.call callback)) (hcontext : s.popup.context = none) :
    ∃ s', machine.exec s [.caller thread] = some s' ∧ ¬s'.Paired := by
  refine ⟨_, Machine.exec_cons (machine_next_caller hc), ?_⟩
  apply not_paired_of_mem
  rw [← hcontext]
  exact List.mem_append_right _ (List.mem_singleton_self _)

theorem not_paired_of_calling {thread : PopupThread} (h : s.Calling thread)
    (hcontext : s.popup.context = none) :
    ∃ n s', machine.exec s (List.replicate n (.caller thread)) = some s' ∧ ¬s'.Paired := by
  obtain ⟨c, hc, hne⟩ := h
  cases c with
  | test => exact absurd rfl hne
  | found =>
    obtain ⟨s', hs', hbad⟩ := not_paired_of_call (s := s.goOn thread .found)
      (caller_goOn_self thread .found) (by rw [(kept_goOn thread .found).popup, hcontext])
    exact ⟨2, s', (Machine.exec_cons (machine_next_caller hc)).trans hs', hbad⟩
  | call callback =>
    obtain ⟨s', hs', hbad⟩ := not_paired_of_call hc hcontext
    exact ⟨1, s', hs', hbad⟩

theorem not_paired_of_not_keeps (hkeeps : ¬s.Keeps l) (hs : machine.next s l = some s') :
    ∃ thread n s'', machine.exec s' (List.replicate n (.caller thread)) = some s'' ∧
      ¬s''.Paired := by
  cases l with
  | switchScene | input | expire | turn => exact absurd trivial hkeeps
  | app =>
    simp only [Keeps] at hkeeps
    push Not at hkeeps
    obtain ⟨ops, hops, thread, c, hc, hne⟩ := hkeeps
    simp only [machine, PopupSystem.next, hops, command, Option.map_some, Option.some.injEq] at hs
    subst hs
    exact ⟨thread, not_paired_of_calling ⟨c, by cases thread <;> exact hc, hne⟩ rfl⟩
  | caller thread =>
    simp only [Keeps] at hkeeps
    push Not at hkeeps
    obtain ⟨hc, hcallback, hcontext⟩ := hkeeps
    rw [machine_next_caller hc] at hs
    obtain rfl := Option.some.inj hs
    refine ⟨thread, not_paired_of_calling ⟨.found, ?_, by simp⟩ ?_⟩
    · rw [caller_goOn_self, PopupCaller.next, if_pos hcallback]
    · rw [(kept_goOn thread .test).popup]
      exact Option.not_isSome_iff_eq_none.mp hcontext

end PopupSystem

/-- In every run in which the threads that find a callback find its context, and the context is not
cleared under them, every call has the context that was registered with its callback. After any
other step of such a run a thread can go on to a call without a context. -/
theorem popup_callback_context {s : PopupSystem Callback Context}
    (hreach : PopupSystem.machine.ReachableWith PopupSystem.Keeps s) :
    s.Paired ∧ ∀ l s', PopupSystem.machine.next s l = some s' → ¬s.Keeps l →
      ∃ thread n s'', PopupSystem.machine.exec s' (List.replicate n (.caller thread)) = some s'' ∧
        ¬s''.Paired := by
  have hsound : s.Sound := hreach.invariant (P := PopupSystem.Sound) PopupSystem.sound_init
    fun _ _ _ hsound hkeeps hs => hsound.next hkeeps (PopupSystem.machine_next hs)
  exact ⟨hsound.paired, fun _ _ hs hkeeps => PopupSystem.not_paired_of_not_keeps hkeeps hs⟩

/-- The input callback calls the callback of a scene that is entered. -/
theorem popup_callback_context_input : ∃ s : PopupSystem Bool ℕ,
    s.calls = [(some true, some 5)] ∧ s.Paired := by
  have henter : (PopupSystem.machine : Machine (PopupSystem Bool ℕ) _).ReachableWith
      PopupSystem.Keeps _ :=
    Machine.ReachableWith.init.step (l := .switchScene (.success true 5)) trivial rfl
  have hcallback := henter.step (l := .app) (by rintro ops ⟨⟩) rfl
  have hcontext := hcallback.step (l := .app) (by rintro ops ⟨⟩) rfl
  have htimeout := hcontext.step (l := .app) (by rintro ops ⟨⟩) rfl
  have hexit := htimeout.step (l := .app) (by rintro ops ⟨⟩) rfl
  have hassign := hexit.step (l := .app) (by rintro ops ⟨⟩) rfl
  have hview : (PopupSystem.machine : Machine (PopupSystem Bool ℕ) _).ReachableWith
      PopupSystem.Keeps ⟨⟨some 5, some true, true⟩, true, .success true 5, [],
        ⟨fun _ => false, [((), .changePeriod)], .wait⟩, none, [(true, 5)], []⟩ :=
    hassign.step (l := .app) (by rintro ops ⟨⟩) rfl
  have hinput := hview.step (l := .input .short) (by trivial) rfl
  have hfound := hinput.step (l := .caller .gui) (by rintro _ _; rfl) rfl
  have hread := hfound.step (l := .caller .gui) (by rintro _ _; rfl) rfl
  have hcall := hread.step (l := .caller .gui) (by rintro _ _; rfl) rfl
  exact ⟨_, rfl, (popup_callback_context hcall).1⟩

/-- The timer expires after the scene has cleared the context, before it clears the callback. -/
theorem popup_callback_context_null : ¬∀ s : PopupSystem Bool ℕ,
    PopupSystem.machine.Reachable s → s.Paired := by
  intro h
  have hrun : ∃ s : PopupSystem Bool ℕ, PopupSystem.machine.exec PopupSystem.machine.init
      [.switchScene (.success true 5), .app, .app, .app, .app, .app, .app, .turn, .turn, .turn,
        .switchScene .other, .app, .expire, .app, .caller .timer, .caller .timer, .caller .timer] =
      some s ∧ (some true, none) ∈ s.calls := ⟨_, rfl, List.mem_singleton.mpr rfl⟩
  obtain ⟨s, hs, hcall⟩ := hrun
  exact PopupSystem.not_paired_of_mem hcall (h s (Machine.exec_reachable .init hs))

end FlipperZero.Gui
