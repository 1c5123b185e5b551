import FlipperZero.Gui.ViewDispatcher

/-! # Navigation of the view dispatcher

The application thread runs a stack of frames; callbacks of a view and the application's own
code may call the dispatcher again and answer whatever they like. Any thread queues input. A
function of a view that is called without one is a fault.
-/

namespace FlipperZero.Gui

open Lib Input

inductive Frame (View : Type) where
  /-- Code of the application, a callback of a view among it. -/
  | code
  /-- The loop of `view_dispatcher_run`. -/
  | run
  /-- `view_dispatcher_handle_input`, when `view_input` returns. -/
  | viewInput (event : InputEvent)
  /-- The same, when `view_previous` or `view_next` returns. -/
  | viewId
  /-- `view_dispatcher_set_current_view`, when `view_exit` returns. -/
  | setView (view : Option View)
  | stop
  | erase (viewId : ℕ)
deriving DecidableEq, Repr

structure Dispatcher (View : Type) where
  queue : List ViewDispatcherMessage
  views : ℕ → Option View
  currentView : Option View
  frames : List (Frame View)
  freed : Bool
  fault : Bool

namespace Dispatcher

variable {View : Type} (s : Dispatcher View)

/-- A call of a function of a view, which asserts that there is one and runs its callback. -/
def viewCall (view : Option View) (frames : List (Frame View)) : Dispatcher View :=
  match view with
  | some _ => { s with frames := .code :: frames }
  | none => { s with frames := frames, fault := true }

def viewInput (view : Option View) (event : InputEvent) (frames : List (Frame View)) :
    Dispatcher View :=
  s.viewCall view (.viewInput event :: frames)

def viewPrevious (view : Option View) (frames : List (Frame View)) : Dispatcher View :=
  s.viewCall view (.viewId :: frames)

def viewNext (view : Option View) (frames : List (Frame View)) : Dispatcher View :=
  s.viewCall view (.viewId :: frames)

def viewExit (view : Option View) (frames : List (Frame View)) : Dispatcher View :=
  s.viewCall view frames

def viewEnter (view : Option View) (frames : List (Frame View)) : Dispatcher View :=
  s.viewCall view frames

/-- The second half of `view_dispatcher_set_current_view`. -/
def assignView (view : Option View) (frames : List (Frame View)) : Dispatcher View :=
  let t := { s with currentView := view }
  if t.currentView.isSome then t.viewEnter t.currentView frames
  else { t with frames := .stop :: frames }

def setCurrentView (view : Option View) (frames : List (Frame View)) : Dispatcher View :=
  if s.currentView.isSome then s.viewExit s.currentView (.setView view :: frames)
  else s.assignView view frames

def switchToView (viewId : ℕ) (frames : List (Frame View)) : Option (Dispatcher View) :=
  if viewId = viewNone then some (s.setCurrentView none frames)
  else if viewId = viewIgnore then some { s with frames := frames }
  else if viewId = viewDestroy then some { s with frames := frames, freed := true }
  else
    match s.views viewId with
    | some view => some (s.setCurrentView (some view) frames)
    | none => none

/-- `view_dispatcher_handle_input` from where it is known whether the event was consumed. -/
def navigate (isConsumed : Bool) (event : InputEvent) (frames : List (Frame View)) :
    Option (Dispatcher View) :=
  if !isConsumed && event.type = .short then
    if event.key = .back then some (s.viewPrevious s.currentView frames)
    else if event.key = .ok then some (s.viewNext s.currentView frames)
    else s.switchToView viewIgnore frames
  else some { s with frames := frames }

def handleInput (event : InputEvent) (frames : List (Frame View)) : Option (Dispatcher View) :=
  if s.currentView.isSome then some (s.viewInput s.currentView event frames)
  else s.navigate false event frames

def put (message : ViewDispatcherMessage) : Option (Dispatcher View) :=
  if s.queue.length < queueLength then some { s with queue := s.queue ++ [message] } else none

variable [DecidableEq View]

def removeView (viewId : ℕ) (frames : List (Frame View)) : Option (Dispatcher View) :=
  match s.views viewId with
  | some view =>
    if s.currentView = some view then some (s.setCurrentView none (.erase viewId :: frames))
    else some { s with frames := .erase viewId :: frames }
  | none => none

def call (c : Call View) : Option (Dispatcher View) :=
  match s.frames with
  | .code :: _ =>
    match c with
    | .run => some { s with frames := .run :: s.frames }
    | .stop => some { s with frames := .stop :: s.frames }
    | .addView viewId view =>
      if s.views viewId = none then
        some { s with views := Function.update s.views viewId (some view) }
      else none
    | .removeView viewId => s.removeView viewId s.frames
    | .switchToView viewId => s.switchToView viewId s.frames
  | _ => none

/-- Code of the application returns; the outermost does not. -/
def ret : Option (Dispatcher View) :=
  match s.frames with
  | .code :: frame :: frames => some { s with frames := frame :: frames }
  | _ => none

/-- The input callback has said whether it consumed the event. -/
def consumed (isConsumed : Bool) : Option (Dispatcher View) :=
  match s.frames with
  | .viewInput event :: frames => s.navigate isConsumed event frames
  | _ => none

/-- The callback for the previous or the next view has answered. -/
def answer (viewId : ℕ) : Option (Dispatcher View) :=
  match s.frames with
  | .viewId :: frames => s.switchToView viewId frames
  | _ => none

def advance : Option (Dispatcher View) :=
  match s.frames with
  | .run :: frames =>
    match s.queue with
    | .stop :: queue => some { s with queue := queue, frames := frames }
    | .input event :: queue => { s with queue := queue }.handleInput event (.run :: frames)
    | [] => none
  | .setView view :: frames => some (s.assignView view frames)
  | .stop :: frames => { s with frames := frames }.put .stop
  | .erase viewId :: frames =>
    some { s with views := Function.update s.views viewId none, frames := frames }
  | _ => none

inductive Label (View : Type) where
  | input (event : InputEvent)
  | call (c : Call View)
  | ret
  | consumed (isConsumed : Bool)
  | answer (viewId : ℕ)
  | advance

def step : Label View → Option (Dispatcher View)
  | .input event => s.put (.input event)
  | .call c => s.call c
  | .ret => s.ret
  | .consumed isConsumed => s.consumed isConsumed
  | .answer viewId => s.answer viewId
  | .advance => s.advance

/-- Nothing is said of a dispatcher that was freed, or that failed an assertion. -/
def next (l : Label View) : Option (Dispatcher View) :=
  if s.freed || s.fault then none else s.step l

end Dispatcher

def navigation (View : Type) [DecidableEq View] :
    Machine (Dispatcher View) (Dispatcher.Label View) where
  init :=
    { queue := [], views := fun _ => none, currentView := none, frames := [.code]
      freed := false, fault := false }
  next := fun s => s.next

/-- A short press of the keys that lead to another view. -/
def InputEvent.Leads (event : InputEvent) : Prop :=
  event.type = .short ∧ (event.key = .back ∨ event.key = .ok)

instance (event : InputEvent) : Decidable event.Leads := inferInstanceAs (Decidable (_ ∧ _))

namespace Dispatcher

variable {View : Type} {s t : Dispatcher View} {frames : List (Frame View)}

section Faults

@[simp] theorem viewCall_some {view : View} : (s.viewCall (some view) frames).fault = s.fault := rfl

@[simp] theorem viewCall_none : (s.viewCall none frames).fault = true := rfl

theorem viewCall_fault {view : Option View} :
    (s.viewCall view frames).fault = (s.fault || view.isNone) := by
  cases view <;> simp

@[simp] theorem assignView_fault {view : Option View} :
    (s.assignView view frames).fault = s.fault := by
  cases view <;> rfl

@[simp] theorem setCurrentView_fault {view : Option View} :
    (s.setCurrentView view frames).fault = s.fault := by
  unfold setCurrentView
  split
  · next hview =>
    rw [viewExit, viewCall_fault, Option.isNone_eq_false_iff.mpr hview, Bool.or_false]
  · exact assignView_fault

theorem switchToView_fault {viewId : ℕ} (ht : s.switchToView viewId frames = some t) :
    t.fault = s.fault := by
  unfold switchToView at ht
  split at ht
  · obtain rfl := Option.some.inj ht
    exact setCurrentView_fault
  · split at ht
    · obtain rfl := Option.some.inj ht
      rfl
    · split at ht
      · obtain rfl := Option.some.inj ht
        rfl
      · split at ht
        · obtain rfl := Option.some.inj ht
          exact setCurrentView_fault
        · cases ht

theorem navigate_fault {isConsumed : Bool} {event : InputEvent} (hs : s.fault = false)
    (ht : s.navigate isConsumed event frames = some t) :
    t.fault = true ↔ isConsumed = false ∧ event.Leads ∧ s.currentView = none := by
  unfold navigate at ht
  split at ht
  · next hshort =>
    obtain ⟨hconsumed, hshort⟩ : isConsumed = false ∧ event.type = .short := by
      simpa using hshort
    split at ht
    · next hback =>
      obtain rfl := Option.some.inj ht
      rw [viewPrevious, viewCall_fault, hs]
      simp [InputEvent.Leads, hconsumed, hshort, hback]
    · next hback =>
      split at ht
      · next hok =>
        obtain rfl := Option.some.inj ht
        rw [viewNext, viewCall_fault, hs]
        simp [InputEvent.Leads, hconsumed, hshort, hok]
      · next hok =>
        rw [switchToView_fault ht, hs]
        simp [InputEvent.Leads, hback, hok]
  · next hshort =>
    obtain rfl := Option.some.inj ht
    rw [hs]
    simp only [Bool.false_eq_true, false_iff, InputEvent.Leads]
    rintro ⟨rfl, ⟨htype, _⟩, _⟩
    exact hshort (by simp [htype])

theorem handleInput_fault {event : InputEvent} (hs : s.fault = false)
    (ht : s.handleInput event frames = some t) :
    t.fault = true ↔ event.Leads ∧ s.currentView = none := by
  unfold handleInput at ht
  split at ht
  · next hview =>
    obtain rfl := Option.some.inj ht
    rw [viewInput, viewCall_fault, hs, Option.isNone_eq_false_iff.mpr hview]
    simp [Option.isSome_iff_ne_none.mp hview]
  · rw [navigate_fault hs ht]
    simp

theorem put_fault {message : ViewDispatcherMessage} (ht : s.put message = some t) :
    t.fault = s.fault := by
  unfold put at ht
  split at ht
  · obtain rfl := Option.some.inj ht
    rfl
  · cases ht

end Faults

/-- The event that the step has to lead on when no view consumes it. -/
def navigates (s : Dispatcher View) : Label View → Option InputEvent
  | .advance =>
    match s.frames, s.queue with
    | .run :: _, .input event :: _ => some event
    | _, _ => none
  | .consumed false =>
    match s.frames with
    | .viewInput event :: _ => some event
    | _ => none
  | _ => none

/-- A short `back` or `ok` is taken from the queue with a current view, and the input callback
that leaves it to the dispatcher leaves a current view. -/
def Navigable (s : Dispatcher View) (l : Label View) : Prop :=
  ∀ event ∈ s.navigates l, event.Leads → s.currentView ≠ none

instance (s : Dispatcher View) (l : Label View) [DecidableEq View] : Decidable (s.Navigable l) :=
  inferInstanceAs (Decidable (∀ event ∈ s.navigates l, event.Leads → s.currentView ≠ none))

theorem ret_fault (ht : s.ret = some t) : t.fault = s.fault := by
  unfold ret at ht
  split at ht
  · obtain rfl := Option.some.inj ht
    rfl
  · cases ht

theorem answer_fault {viewId : ℕ} (ht : s.answer viewId = some t) : t.fault = s.fault := by
  unfold answer at ht
  split at ht
  · exact switchToView_fault ht
  · cases ht

theorem consumed_fault {isConsumed : Bool} (hs : s.fault = false)
    (ht : s.consumed isConsumed = some t) :
    t.fault = true ↔ ¬s.Navigable (.consumed isConsumed) := by
  unfold consumed at ht
  split at ht
  · next event frames hframes =>
    rw [navigate_fault hs ht]
    cases isConsumed <;> simp [Navigable, navigates, hframes]
  · cases ht

theorem advance_fault (hs : s.fault = false) (ht : s.advance = some t) :
    t.fault = true ↔ ¬s.Navigable .advance := by
  unfold advance at ht
  split at ht
  · next frames hframes =>
    split at ht
    · next queue hqueue =>
      obtain rfl := Option.some.inj ht
      simp [Navigable, navigates, hframes, hqueue, hs]
    · next event queue hqueue =>
      rw [handleInput_fault (s := { s with queue := queue }) hs ht]
      simp [Navigable, navigates, hframes, hqueue]
    · cases ht
  · next view frames hframes =>
    obtain rfl := Option.some.inj ht
    simp [Navigable, navigates, hframes, hs]
  · next frames hframes =>
    rw [put_fault ht]
    simp [Navigable, navigates, hframes, hs]
  · next viewId frames hframes =>
    obtain rfl := Option.some.inj ht
    simp [Navigable, navigates, hframes, hs]
  · cases ht

variable [DecidableEq View]

theorem call_fault {c : Call View} (ht : s.call c = some t) : t.fault = s.fault := by
  unfold call at ht
  split at ht
  · cases c with
    | run | stop =>
      obtain rfl := Option.some.inj ht
      rfl
    | addView viewId view =>
      dsimp only at ht
      split at ht
      · obtain rfl := Option.some.inj ht
        rfl
      · cases ht
    | removeView viewId =>
      dsimp only [removeView] at ht
      split at ht
      · split at ht
        · obtain rfl := Option.some.inj ht
          exact setCurrentView_fault
        · obtain rfl := Option.some.inj ht
          rfl
      · cases ht
    | switchToView viewId => exact switchToView_fault ht
  · cases ht

theorem next_fault {l : Label View} (ht : s.next l = some t) :
    t.fault = true ↔ ¬s.Navigable l := by
  unfold next at ht
  split at ht
  · cases ht
  · next hgone =>
    obtain ⟨_, hs⟩ : s.freed = false ∧ s.fault = false := by simpa using hgone
    cases l with
    | input event => simp [put_fault ht, hs, Navigable, navigates]
    | call c => simp [call_fault ht, hs, Navigable, navigates]
    | ret => simp [ret_fault ht, hs, Navigable, navigates]
    | answer viewId => simp [answer_fault ht, hs, Navigable, navigates]
    | consumed isConsumed => exact consumed_fault hs ht
    | advance => exact advance_fault hs ht

end Dispatcher

/-- As long as every short `back` or `ok` that is to be led on finds a current view, no function
of a view is called without one, and the first step that finds none calls one. -/
theorem navigation_safety {View : Type} [DecidableEq View] {s : Dispatcher View}
    (h : (navigation View).ReachableWith Dispatcher.Navigable s) :
    s.fault = false ∧ ∀ l t, s.next l = some t → (t.fault = true ↔ ¬s.Navigable l) := by
  refine ⟨?_, fun _ _ ht => Dispatcher.next_fault ht⟩
  refine h.invariant (P := fun s => s.fault = false) rfl ?_
  intro s l t _ hok ht
  rw [← Bool.not_eq_true, Dispatcher.next_fault ht]
  exact not_not_intro hok

section Runs

def shortBack : InputEvent := ⟨.back, .short⟩

/-- A view is entered, and a number of short presses of `back` are queued. The first leads to
`VIEW_NONE`. -/
def backRun (presses : ℕ) : List (Dispatcher.Label Unit) :=
  [Dispatcher.Label.call (.addView 0 ()), .call (.switchToView 0), .ret, .call .run] ++
    List.replicate presses (Dispatcher.Label.input shortBack) ++
    [Dispatcher.Label.advance, .ret, .consumed false, .ret, .answer viewNone, .ret, .advance,
      .advance, .advance]

theorem navigation_safety_back :
    ∃ s, (navigation Unit).execWith Dispatcher.Navigable (navigation Unit).init (backRun 1) =
        some s ∧ s.frames = [.code] ∧ s.fault = false := by
  have hrun : ∃ s, (navigation Unit).execWith Dispatcher.Navigable (navigation Unit).init
      (backRun 1) = some s ∧ s.frames = [.code] := ⟨_, rfl, rfl⟩
  obtain ⟨s, hs, hframes⟩ := hrun
  exact ⟨s, hs, hframes, (navigation_safety (Machine.execWith_reachableWith .init hs)).1⟩

/-- The second press stands in front of the stop message. -/
theorem not_navigation_safety : ¬∀ s, (navigation Unit).Reachable s → s.fault = false := by
  have hrun : ∃ s, (navigation Unit).exec (navigation Unit).init (backRun 2) = some s ∧
      s.fault = true := ⟨_, rfl, rfl⟩
  obtain ⟨s, hs, hfault⟩ := hrun
  intro h
  exact nomatch hfault.symm.trans (h s (Machine.exec_reachable .init hs))

end Runs

end FlipperZero.Gui
