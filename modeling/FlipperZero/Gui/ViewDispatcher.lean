import FlipperZero.Input.Pin
import FlipperZero.Lib.Machine
import Mathlib.Logic.Function.Basic

/-! # The view dispatcher and the GUI service

The GUI service delivers input with its lock held. The callback of a view dispatcher puts
it into a queue that only the application empties. What the application has still to do is
a stack of operations; where code of its own runs, it may call the dispatcher again.
-/

namespace FlipperZero.Gui

open Lib Input

theorem toNat_sub_one_add_one {b : UInt8} (h : 0 < b) : (b - 1).toNat + 1 = b.toNat := by
  have hone : (1 : UInt8).toNat ≤ b.toNat := UInt8.lt_iff_toNat_lt.mp h
  rw [UInt8.toNat_sub_of_le _ _ (UInt8.le_iff_toNat_le.mpr hone)]
  exact Nat.sub_add_cancel hone

inductive InputKey where
  | up
  | down
  | right
  | left
  | ok
  | back
deriving DecidableEq, Repr

structure InputEvent where
  key : InputKey
  type : InputType
deriving DecidableEq, Repr

def guiRotateButtons (event : InputEvent) : InputEvent :=
  match event.key with
  | .up => { event with key := .right }
  | .down => { event with key := .left }
  | .right => { event with key := .down }
  | .left => { event with key := .up }
  | .ok | .back => event

inductive ViewDispatcherMessage where
  | input (event : InputEvent)
  | stop
deriving DecidableEq, Repr

def queueLength : ℕ := 8

def viewNone : ℕ := 0xFFFFFFFF
def viewIgnore : ℕ := 0xFFFFFFFE
def viewDestroy : ℕ := 0xFFFFFFFA

/-- What the application thread does to what is shared. -/
inductive Op (View : Type) where
  | code
  | get
  | navigate (event : InputEvent)
  | switchToView (viewId : ℕ)
  | setCurrentView (view : Option View)
  | assignView (view : Option View)
  | enable
  | post (message : ViewDispatcherMessage)
  | guiLock
  | guiUnlock
  | setAt (viewId : ℕ) (view : View)
  | disable (viewId : ℕ)
  | erase (viewId : ℕ)
  | removeViewPort
  | freed
deriving DecidableEq, Repr

inductive Call (View : Type) where
  | run
  | stop
  | addView (viewId : ℕ) (view : View)
  | removeView (viewId : ℕ)
  | switchToView (viewId : ℕ)
deriving DecidableEq, Repr

variable {View : Type} [DecidableEq View]

def viewDispatcherRun : List (Op View) := [.get]

def viewDispatcherStop : List (Op View) := [.post .stop]

def viewDispatcherAddView (viewId : ℕ) (view : View) : List (Op View) :=
  [.guiLock, .setAt viewId view, .guiUnlock]

def viewDispatcherRemoveView (viewId : ℕ) : List (Op View) :=
  [.guiLock, .disable viewId, .erase viewId, .guiUnlock]

/-- After `VIEW_DESTROY` the dispatcher is freed, and nothing more is said of it. -/
def viewDispatcherFree : List (Op View) := [.guiLock, .removeViewPort, .guiUnlock, .freed]

def Call.ops : Call View → List (Op View)
  | .run => viewDispatcherRun
  | .stop => viewDispatcherStop
  | .addView viewId view => viewDispatcherAddView viewId view
  | .removeView viewId => viewDispatcherRemoveView viewId
  | .switchToView viewId => [.switchToView viewId]

inductive Owner where
  | gui
  | app
deriving DecidableEq, Repr

/-- Where the GUI service is, with the draw flag it has taken. -/
inductive GuiPc where
  | wait
  | events (draw : Bool)
  | inputLock (event : InputEvent) (draw : Bool)
  | inputFind (event : InputEvent) (draw : Bool)
  | put (event : InputEvent) (draw : Bool)
  | inputUnlock (draw : Bool)
  | draw
  | redrawLock
  | redrawUnlock
deriving DecidableEq, Repr

structure GuiState (View : Type) where
  inputQueue : List InputEvent
  /-- The input service has put an event and not yet set the flag. -/
  inputPosted : Bool
  flagInput : Bool
  flagDraw : Bool
  gui : GuiPc
  mutex : Option Owner
  queue : List ViewDispatcherMessage
  views : ℕ → Option View
  currentView : Option View
  attached : Bool
  isEnabled : Bool
  isVertical : Bool
  ops : List (Op View)

namespace GuiState

variable (s : GuiState View)

def guiUpdate : GuiState View := { s with flagDraw := true }

def viewPortEnabledSet (enabled : Bool) : GuiState View :=
  if s.isEnabled ≠ enabled then
    if s.attached then { s with isEnabled := enabled }.guiUpdate
    else { s with isEnabled := enabled }
  else s

def viewPortUpdate : GuiState View :=
  if s.attached && s.isEnabled then s.guiUpdate else s

/-- `gui_input_events_callback` on the thread of the input service. -/
def inputEventsCallback (event : InputEvent) : Option (GuiState View) :=
  if s.inputPosted then none
  else if s.inputQueue.length < queueLength then
    some { s with inputQueue := s.inputQueue ++ [event], inputPosted := true }
  else none

def inputFlagsSet : Option (GuiState View) :=
  if s.inputPosted then some { s with inputPosted := false, flagInput := true } else none

/-- A step of `gui_task`; the view port of the dispatcher may lie behind another. -/
def guiTask (front : Bool) : Option (GuiState View) :=
  match s.gui with
  | .wait =>
    if s.flagInput || s.flagDraw then
      some { s with
        flagInput := false, flagDraw := false
        gui := if s.flagInput then .events s.flagDraw else .draw }
    else none
  | .events draw =>
    match s.inputQueue with
    | event :: inputQueue => some { s with inputQueue := inputQueue, gui := .inputLock event draw }
    | [] => some { s with gui := if draw then .draw else .wait }
  | .inputLock event draw =>
    if s.mutex = none then some { s with mutex := some .gui, gui := .inputFind event draw } else none
  | .inputFind event draw =>
    if front && s.attached && s.isEnabled then
      some { s with gui := .put (if s.isVertical then guiRotateButtons event else event) draw }
    else some { s with gui := .inputUnlock draw }
  | .put event draw =>
    if s.queue.length < queueLength then
      some { s with queue := s.queue ++ [.input event], gui := .inputUnlock draw }
    else none
  | .inputUnlock draw => some { s with mutex := none, gui := .events draw }
  | .draw => some { s with flagDraw := false, gui := .redrawLock }
  | .redrawLock =>
    if s.mutex = none then some { s with mutex := some .gui, gui := .redrawUnlock } else none
  | .redrawUnlock => some { s with mutex := none, gui := .wait }

def call (c : Call View) : Option (GuiState View) :=
  match s.ops with
  | .code :: _ =>
    match c with
    | .addView viewId _ =>
      if s.views viewId = none then some { s with ops := c.ops ++ s.ops } else none
    | _ => some { s with ops := c.ops ++ s.ops }
  | _ => none

/-- Code of the application ends; the outermost does not. -/
def ret : Option (GuiState View) :=
  match s.ops with
  | .code :: op :: ops => some { s with ops := op :: ops }
  | _ => none

/-- The rest of `view_dispatcher_handle_input`, after the view has seen the event: `none` when it
was consumed or leads nowhere. -/
def navigate (viewId : Option ℕ) : Option (GuiState View) :=
  match s.ops with
  | .navigate event :: ops =>
    match viewId with
    | none => some { s with ops := ops }
    | some viewId =>
      if event.type = .short ∧ (event.key = .back ∨ event.key = .ok) ∧ s.currentView.isSome then
        some { s with ops := .code :: .switchToView viewId :: ops }
      else none
  | _ => none

/-- The next operation of the application; `vertical` says which views stand upright. -/
def op (vertical : View → Bool) : Option (GuiState View) :=
  match s.ops with
  | .get :: ops =>
    match s.queue with
    | .stop :: queue => some { s with queue := queue, ops := ops }
    | .input event :: queue =>
      let handle := if s.currentView.isSome then [.code, .navigate event] else [.navigate event]
      some { s with queue := queue, ops := handle ++ .get :: ops }
    | [] => none
  | .switchToView viewId :: ops =>
    if viewId = viewNone then some { s with ops := .setCurrentView none :: ops }
    else if viewId = viewIgnore then some { s with ops := ops }
    else if viewId = viewDestroy then some { s with ops := viewDispatcherFree ++ ops }
    else
      match s.views viewId with
      | some view => some { s with ops := .setCurrentView (some view) :: ops }
      | none => none
  | .setCurrentView view :: ops =>
    let leave := if s.currentView.isSome then [.code, .assignView view] else [.assignView view]
    some { s with ops := leave ++ ops }
  | .assignView (some view) :: ops =>
    some { s with
      currentView := some view, isVertical := vertical view, ops := .code :: .enable :: ops }
  | .assignView none :: ops =>
    some ({ s with currentView := none, ops := .post .stop :: ops }.viewPortEnabledSet false)
  | .enable :: ops => some (({ s with ops := ops }.viewPortEnabledSet true).viewPortUpdate)
  | .post message :: ops =>
    if s.queue.length < queueLength then
      some { s with queue := s.queue ++ [message], ops := ops }
    else none
  | .guiLock :: ops =>
    if s.mutex = none then some { s with mutex := some .app, ops := ops } else none
  | .guiUnlock :: ops => some { s with mutex := none, ops := ops }
  | .setAt viewId view :: ops =>
    some { s with views := Function.update s.views viewId (some view), ops := ops }
  | .disable viewId :: ops =>
    match s.views viewId with
    | some view =>
      if s.currentView = some view then some { s with ops := .setCurrentView none :: ops }
      else some { s with ops := ops }
    | none => none
  | .erase viewId :: ops =>
    some { s with views := Function.update s.views viewId none, ops := ops }
  | .removeViewPort :: ops => some { s with attached := false, ops := ops }
  | _ => none

end GuiState

inductive GuiLabel (View : Type) where
  | input (event : InputEvent)
  | inputFlags
  | gui (front : Bool)
  | call (c : Call View)
  | ret
  | navigate (viewId : Option ℕ)
  | op

/-- A dispatcher with a queue, attached to the GUI service. -/
def viewDispatcher (vertical : View → Bool) : Machine (GuiState View) (GuiLabel View) where
  init :=
    { inputQueue := [], inputPosted := false, flagInput := false, flagDraw := false, gui := .wait
      mutex := none, queue := [], views := fun _ => none, currentView := none, attached := true
      isEnabled := false, isVertical := false, ops := [.code] }
  next s l :=
    match l with
    | .input event => s.inputEventsCallback event
    | .inputFlags => s.inputFlagsSet
    | .gui front => s.guiTask front
    | .call c => s.call c
    | .ret => s.ret
    | .navigate viewId => s.navigate viewId
    | .op => s.op vertical

end FlipperZero.Gui
