import FlipperZero.Lib.Machine
import Mathlib.Algebra.Group.Nat.Defs
import Mathlib.Logic.Function.Basic

/-! # The application loader

Start requests come from the menu, the CLI and `app_loader_start`, each on its own thread.
They share one thread object, one argument string and the insomnia counter, and no mutex
guards these. A request is the list of its accesses to what is shared; a step is one of
them, or one step of an application thread. The counter is that of the whole firmware: started
applications, the file system and the display enter and leave insomnia as well.
-/

namespace FlipperZero.AppLoader

open Lib

structure FlipperApplication where
  /-- The callback, as the function it points to. -/
  app : ℕ
  name : String
  stackSize : ℕ
deriving DecidableEq, Repr

inductive FuriThreadState where
  | stopped
  | starting
  | running
deriving DecidableEq, Repr

structure FuriThread where
  state : FuriThreadState
  callback : Option ℕ
  /-- Whether the context points to the argument string; it is `NULL` otherwise. -/
  context : Bool
  name : Option String
  stackSize : ℕ

/-- `furi_thread_alloc` gives a zeroed object. -/
def FuriThread.alloc : FuriThread := ⟨.stopped, none, false, none, 0⟩

/-- How far an application thread is in `furi_thread_body`. -/
inductive AppPc where
  | none
  | body
  | call
  | running (callback : ℕ) (context : Bool)
  | returned
  | stateCallback
  | exited
deriving DecidableEq, Repr

structure AppThread where
  name : Option String
  pc : AppPc

/-- What a start request does to what is shared. -/
inductive Op where
  | check
  | insomniaEnter
  | setCurrentApp (app : FlipperApplication)
  | setArgs (args : String)
  | setName (name : String)
  | setStackSize (size : ℕ)
  | setContext
  | setCallback (callback : ℕ)
  | threadStart
  | threadNew
  | setStopped
  | stateCallback
deriving DecidableEq, Repr

inductive StartRequest where
  | menu (app : FlipperApplication)
  | cli (app : FlipperApplication)
  | start (name : String) (args : Option String)
deriving DecidableEq, Repr

/-- The build of the firmware: whether `furi_assert` checks, `string_strim`, and the table of the
applications. -/
structure Build where
  furiAssert : Bool
  stringStrim : String → String
  flipperApps : List FlipperApplication

variable (b : Build)

/-- The content of the argument string for a request of `app_loader_start`. -/
def Build.argString : Option String → String
  | some args => b.stringStrim args
  | none => ""

def appLoaderCallback (app : FlipperApplication) : List Op :=
  [.check, .insomniaEnter, .setCurrentApp app, .setName app.name, .setStackSize app.stackSize,
    .setCallback app.app, .threadStart, .threadNew]

def appLoaderStart (app : FlipperApplication) (args : Option String) : List Op :=
  [.check, .setCurrentApp app, .setArgs (b.argString args), .setName app.name,
    .setStackSize app.stackSize, .setContext, .setCallback app.app, .threadStart, .threadNew]

def StartRequest.ops : StartRequest → List Op
  | .menu app | .cli app => appLoaderCallback app
  | .start name args =>
    match b.flipperApps.find? fun app => app.name = name with
    | some app => appLoaderStart b app args
    | none => []

structure AppLoaderState (Thread : Type) where
  thread : FuriThread
  currentApp : Option FlipperApplication
  args : String
  insomnia : ℕ
  /-- What the request of a thread still has to do. -/
  clients : Thread → List Op
  apps : ℕ → AppThread
  created : ℕ
  requests : List StartRequest
  crashed : Bool

variable {Thread : Type} [DecidableEq Thread]

namespace AppLoaderState

def crash (s : AppLoaderState Thread) : AppLoaderState Thread := { s with crashed := true }

/-- The state after an assertion and what follows it; `none` when the assertion fails. -/
def furiAssert (p : Bool) (s' : AppLoaderState Thread) : Option (AppLoaderState Thread) :=
  if b.furiAssert && !p then none else some s'

def setThread (s : AppLoaderState Thread) (thread : FuriThread) : AppLoaderState Thread :=
  { s with thread := thread }

def isStopped (s : AppLoaderState Thread) : Bool := s.thread.state = .stopped

def insomniaEnter (s : AppLoaderState Thread) : AppLoaderState Thread :=
  { s with insomnia := (s.insomnia + 1) % 2 ^ 32 }

def insomniaExit (s : AppLoaderState Thread) : AppLoaderState Thread :=
  { s with insomnia := if s.insomnia = 0 then 2 ^ 32 - 1 else s.insomnia - 1 }

def perform (s : AppLoaderState Thread) : Op → Option (AppLoaderState Thread)
  | .check => some s
  | .insomniaEnter => some s.insomniaEnter
  | .setCurrentApp app => some { s with currentApp := some app }
  | .setArgs args => some { s with args := args }
  | .setName name => furiAssert b s.isStopped (s.setThread { s.thread with name := some name })
  | .setStackSize size => furiAssert b s.isStopped (s.setThread { s.thread with stackSize := size })
  | .setContext => furiAssert b s.isStopped (s.setThread { s.thread with context := true })
  | .setCallback callback =>
    furiAssert b s.isStopped (s.setThread { s.thread with callback := some callback })
  | .threadStart =>
    furiAssert b (s.thread.callback.isSome && s.isStopped)
      (s.setThread { s.thread with state := .starting })
  | .threadNew =>
    some { s with
      apps := Function.update s.apps s.created ⟨s.thread.name, .body⟩, created := s.created + 1 }
  | .setStopped =>
    furiAssert b (s.thread.state = .starting) (s.setThread { s.thread with state := .stopped })
  | .stateCallback => some s.insomniaExit

def setClient (s : AppLoaderState Thread) (t : Thread) (ops : List Op) : AppLoaderState Thread :=
  { s with clients := Function.update s.clients t ops }

def request (s : AppLoaderState Thread) (t : Thread) (r : StartRequest) : Option (AppLoaderState Thread) :=
  match s.clients t with
  | [] => some { s.setClient t (r.ops b) with requests := r :: s.requests }
  | _ => none

/-- The next access of a request; a request that finds the thread object in use ends there. -/
def op (s : AppLoaderState Thread) (t : Thread) : Option (AppLoaderState Thread) :=
  match s.clients t with
  | [] => none
  | .check :: ops => some (s.setClient t (if s.isStopped then ops else []))
  | o :: ops => some (((s.perform b o).map fun s => s.setClient t ops).getD s.crash)

/-- `osThreadNew` gives no thread. -/
def newFails (s : AppLoaderState Thread) (t : Thread) : Option (AppLoaderState Thread) :=
  match s.clients t with
  | .threadNew :: _ => some (s.setClient t [.setStopped, .stateCallback])
  | _ => none

def setApp (s : AppLoaderState Thread) (i : ℕ) (pc : AppPc) : AppLoaderState Thread :=
  { s with apps := Function.update s.apps i { s.apps i with pc := pc } }

/-- The steps of `furi_thread_body`. -/
def furiThreadBody (s : AppLoaderState Thread) (i : ℕ) : Option (AppLoaderState Thread) :=
  match (s.apps i).pc with
  | .body =>
    some ((furiAssert b (s.thread.state = .starting)
      ((s.setThread { s.thread with state := .running }).setApp i .call)).getD s.crash)
  | .call =>
    match s.thread.callback with
    | some callback => some (s.setApp i (.running callback s.thread.context))
    | none => some s.crash
  | .returned =>
    some ((furiAssert b (s.thread.state = .running)
      ((s.setThread { s.thread with state := .stopped }).setApp i .stateCallback)).getD s.crash)
  | .stateCallback => some (s.insomniaExit.setApp i .exited)
  | _ => none

/-- Another user of the counter enters or leaves insomnia. -/
def others (s : AppLoaderState Thread) (enter : Bool) : AppLoaderState Thread :=
  if enter then s.insomniaEnter else s.insomniaExit

def exit (s : AppLoaderState Thread) (i : ℕ) : Option (AppLoaderState Thread) :=
  match (s.apps i).pc with
  | .running _ _ => some (s.setApp i .returned)
  | _ => none

end AppLoaderState

inductive AppLoaderLabel (Thread : Type) where
  | request (t : Thread) (r : StartRequest)
  | op (t : Thread)
  | newFails (t : Thread)
  | body (i : ℕ)
  | exit (i : ℕ)
  | others (enter : Bool)

/-- The loader with the insomnia counter at a level before the first start. -/
def appLoader (Thread : Type) [DecidableEq Thread] (level : ℕ) :
    Machine (AppLoaderState Thread) (AppLoaderLabel Thread) where
  init := ⟨.alloc, none, "", level, fun _ => [], fun _ => ⟨none, .none⟩, 0, [], false⟩
  next s l :=
    if s.crashed then none else
    match l with
    | .request t r => s.request b t r
    | .op t => s.op b t
    | .newFails t => s.newFails t
    | .body i => s.furiThreadBody b i
    | .exit i => s.exit i
    | .others enter => some (s.others enter)

end FlipperZero.AppLoader
