import FlipperZero.Lib.Machine
import FlipperZero.SdFilesystem.DirRead
import Mathlib.Logic.Function.Basic
import Mathlib.Data.Option.Basic

/-! # The SD card application

One thread handles the events of a queue and shows a view in a view holder. The view holder
and its submodule are cells of a heap that are found through pointers. A handler is a list of
operations; between two of them the GUI service and the clients go on. Requests are numbered,
and a result records the one it was put for.
-/

namespace FlipperZero.SdFilesystem

open Lib

inductive SdAppState where
  | background
  | format
  | formatInProgress
  | formatCompleted
  | info
  | eject
  | ejected
  | fileSelect
  | checkError
  | showError
deriving DecidableEq, Repr

structure FileSelectData (Buffer : Type) where
  path : List Char
  extension : List Char
  result : Option Buffer
  resultSize : UInt8
  selectedFilename : Option (List Char)
  request : ℕ
deriving DecidableEq

inductive SdAppEvent (Buffer : Type) where
  | back
  | ok
  | format
  | info
  | eject
  | fileSelect (data : FileSelectData Buffer)
  | checkError
  | showError
deriving DecidableEq

structure FileSelectResultEvent (Buffer : Type) where
  result : Bool
  request : Option (FileSelectData Buffer)
deriving DecidableEq

/-- A dialog with the buttons that have a text, or a file select view. -/
inductive Submodule (Buffer : Type) where
  | dialogEx (left right : Bool)
  | fileSelect (data : FileSelectData Buffer)
deriving DecidableEq

structure ViewHolder where
  enabled : Bool
  freeContext : Option ℕ
deriving DecidableEq, Repr

inductive Cell (Buffer : Type) where
  | viewHolder (v : ViewHolder)
  | submodule (m : Submodule Buffer)

/-- A dereference of what is not there, and a free of what is not there any more. -/
inductive Fault where
  | missing
  | freed
deriving DecidableEq, Repr

inductive AppOp (Buffer : Type) where
  | openDialog (right : Bool) (state : SdAppState)
  | editDialog (left right : Bool)
  | setState (state : SdAppState)
  | openFileSelect (data : FileSelectData Buffer)
  | viewHolderStart
  | viewHolderStop
  | freeViewHolder
  | put (e : SdAppEvent Buffer)
  | putResult (r : FileSelectResultEvent Buffer)
deriving DecidableEq

/-- A call of `sd_api_file_select` that has returned. -/
structure Return (Client Buffer : Type) where
  client : Client
  data : FileSelectData Buffer
  answer : FileSelectResultEvent Buffer
  chosen : Option (List Char)
  buffer : Option (List Char)
deriving DecidableEq

inductive ClientState (Client Buffer : Type) where
  | idle
  | receiving (data : FileSelectData Buffer)
  | checking (r : Return Client Buffer)
deriving DecidableEq

structure SdApp (Client Buffer : Type) where
  sdAppState : SdAppState
  viewHolder : Option ℕ
  heap : ℕ → Option (Cell Buffer)
  fresh : ℕ
  status : SDError
  eventQueue : List (SdAppEvent Buffer)
  resultReceiver : List (FileSelectResultEvent Buffer)
  ops : List (AppOp Buffer)
  gui : Option (SdAppEvent Buffer)
  clients : Client → ClientState Client Buffer
  calls : ℕ
  chosen : ℕ → Option (List Char)
  memory : Buffer → List Char
  returns : List (Return Client Buffer)
  fault : Option Fault

def eventQueueLength : ℕ := 8
def resultReceiverLength : ℕ := 1

section Directories

/-- `strchr` from some position on, with the text in front of each place where it stops. -/
def parents : List Char → List Char → List (List Char)
  | _, [] => []
  | front, c :: cs =>
    if c = '/' then front :: parents (front ++ [c]) cs else parents (front ++ [c]) cs

def appSdMakePath (mkdir : List Char → SDError) : List Char → Bool
  | [] => true
  | c :: cs =>
    (parents [c] cs ++ [c :: cs]).all fun path => mkdir path = .ok || mkdir path = .exist

end Directories

/-- `strlcpy` into the buffer of a request; it writes nothing when the size is 0. -/
def writeBuffer {Buffer : Type} [DecidableEq Buffer] (memory : Buffer → List Char)
    (data : FileSelectData Buffer) (text : List Char) : Buffer → List Char :=
  match data.result with
  | some b =>
    if data.resultSize = 0 then memory
    else Function.update memory b (strlcpy text data.resultSize.toNat)
  | none => memory

namespace SdApp

variable {Client Buffer : Type} (s : SdApp Client Buffer)

/-- The view holder behind the pointer of the application. -/
def holder : Option (ℕ × ViewHolder) :=
  match s.viewHolder with
  | some a =>
    match s.heap a with
    | some (.viewHolder v) => some (a, v)
    | _ => none
  | none => none

def context (v : ViewHolder) : Option (ℕ × Submodule Buffer) :=
  match v.freeContext with
  | some b =>
    match s.heap b with
    | some (.submodule m) => some (b, m)
    | _ => none
  | none => none

def shownRequest : Option (FileSelectData Buffer) :=
  match s.holder with
  | some (_, v) =>
    match s.context v with
    | some (_, .fileSelect data) => some data
    | _ => none
  | none => none

/-- `view_holder_alloc` with a submodule attached. -/
def allocViewHolder (m : Submodule Buffer) (enabled : Bool) : SdApp Client Buffer :=
  { s with
    viewHolder := some s.fresh
    heap := Function.update
      (Function.update s.heap s.fresh (some (.viewHolder ⟨enabled, some (s.fresh + 1)⟩)))
      (s.fresh + 1) (some (.submodule m))
    fresh := s.fresh + 2 }

def openDialog (right : Bool) (state : SdAppState) : SdApp Client Buffer :=
  if s.viewHolder = none then
    { s.allocViewHolder (.dialogEx true right) true with sdAppState := state }
  else s

def openFileSelect [DecidableEq Buffer] (data : FileSelectData Buffer) : SdApp Client Buffer :=
  if s.viewHolder = none then
    { s.allocViewHolder (.fileSelect data) false with
      memory := writeBuffer s.memory data [] }
  else s

def editDialog (left right : Bool) : Except Fault (SdApp Client Buffer) :=
  match s.holder with
  | some (_, v) =>
    match s.context v with
    | some (b, .dialogEx _ _) =>
      .ok { s with heap := Function.update s.heap b (some (.submodule (.dialogEx left right))) }
    | _ => .error .missing
  | none => .error .missing

def viewHolderEnabledSet (enabled : Bool) : Except Fault (SdApp Client Buffer) :=
  match s.holder with
  | some (a, v) =>
    .ok { s with heap := Function.update s.heap a (some (.viewHolder { v with enabled })) }
  | none => .error .missing

/-- `view_holder_free` calls the free callback of the submodule and frees the holder. -/
def freeViewHolder : Except Fault (SdApp Client Buffer) :=
  match s.viewHolder with
  | none => .ok s
  | some _ =>
    match s.holder with
    | none => .error .freed
    | some (a, v) =>
      match v.freeContext with
      | none => .ok { s with heap := Function.update s.heap a none, viewHolder := none }
      | some b =>
        match s.context v with
        | none => .error .freed
        | some _ =>
          .ok { s with
            heap := Function.update (Function.update s.heap b none) a none
            viewHolder := none }

/-- One operation of a handler; `none` while it waits. -/
def exec [DecidableEq Buffer] : AppOp Buffer → Option (Except Fault (SdApp Client Buffer))
  | .openDialog right state => some (.ok (s.openDialog right state))
  | .editDialog left right => some (s.editDialog left right)
  | .setState state => some (.ok { s with sdAppState := state })
  | .openFileSelect data => some (.ok (s.openFileSelect data))
  | .viewHolderStart => some (s.viewHolderEnabledSet true)
  | .viewHolderStop => some (s.viewHolderEnabledSet false)
  | .freeViewHolder => if s.gui.isSome then none else some s.freeViewHolder
  | .put e =>
    if s.eventQueue.length < eventQueueLength then
      some (.ok { s with eventQueue := s.eventQueue ++ [e] })
    else none
  | .putResult r =>
    if s.resultReceiver.length < resultReceiverLength then
      some (.ok { s with resultReceiver := s.resultReceiver ++ [r] })
    else none

def appResetState : List (AppOp Buffer) :=
  [.viewHolderStop, .freeViewHolder, .setState .background]

/-- What the card answers while one event is handled. -/
structure CardAnswer where
  mkdir : List Char → SDError
  fileSelectInit : Bool
  fillStrings : Bool

def handleOk : List (AppOp Buffer) :=
  match s.sdAppState with
  | .format =>
    [.editDialog false false, .setState .formatInProgress, .editDialog true false,
      .setState .formatCompleted]
  | .eject => [.editDialog true false, .setState .ejected]
  | .fileSelect => .putResult ⟨true, s.shownRequest⟩ :: appResetState
  | _ => []

def handleBack : List (AppOp Buffer) :=
  match s.sdAppState with
  | .formatInProgress => []
  | .fileSelect => .putResult ⟨false, s.shownRequest⟩ :: appResetState
  | _ => appResetState

def handleFileSelect (card : CardAnswer) (data : FileSelectData Buffer) : List (AppOp Buffer) :=
  if !appSdMakePath card.mkdir data.path then [.putResult ⟨false, some data⟩]
  else if s.viewHolder = none then
    if !card.fileSelectInit then
      [AppOp.openFileSelect data, .put .back, .putResult ⟨false, some data⟩] ++ appResetState
    else if data.selectedFilename.isSome && !card.fillStrings then
      [.openFileSelect data, .setState .fileSelect, .put .back, .viewHolderStart]
    else [.openFileSelect data, .setState .fileSelect, .viewHolderStart]
  else [.putResult ⟨false, some data⟩]

def handle (card : CardAnswer) : SdAppEvent Buffer → List (AppOp Buffer)
  | .ok => s.handleOk
  | .back => s.handleBack
  | .format => [.openDialog true .format]
  | .info => [.openDialog false .info]
  | .eject => [.openDialog true .eject]
  | .fileSelect data => s.handleFileSelect card data
  | .checkError => if s.status ≠ .ok then [.openDialog false .checkError] else []
  | .showError => [.openDialog false .showError]

/-- The line at the position of a file select view. It is no line of a file in an empty folder, or
when there are fewer files than were counted; its text is empty or an old one then. -/
structure FileLine where
  text : List Char
  isFile : Bool
deriving DecidableEq, Repr

def FileLine.file (line : FileLine) : Option (List Char) :=
  if line.isFile then some line.text else none

/-- A short press, with what comes of it in a file select view: the line that is chosen, or a
directory that cannot be read when the lines move. -/
inductive Key where
  | back
  | left
  | right
  | ok (line : FileLine)
  | unreadable
deriving DecidableEq, Repr

/-- The input callback of the shown view, up to the event that it posts. -/
def input [DecidableEq Buffer] (key : Key) : Option (SdApp Client Buffer) :=
  match s.holder with
  | some (_, ⟨true, freeContext⟩) =>
    match s.context ⟨true, freeContext⟩, key with
    | some _, .back => some { s with gui := some .back }
    | some (_, .dialogEx true _), .left => some { s with gui := some .back }
    | some (_, .dialogEx _ true), .right => some { s with gui := some .ok }
    | some (_, .fileSelect data), .ok line =>
      some { s with
        memory := writeBuffer s.memory data line.text
        chosen := Function.update s.chosen data.request line.file
        gui := some .ok }
    | some (_, .fileSelect _), .unreadable => some { s with gui := some .back }
    | _, _ => none
  | _ => none

/-- Posted by the menu and by the other functions of the interface. -/
def posted : SdAppEvent Buffer → Bool
  | .format | .info | .eject | .checkError | .showError => true
  | _ => false

def put (e : SdAppEvent Buffer) : Option (SdApp Client Buffer) :=
  if s.eventQueue.length < eventQueueLength then
    some { s with eventQueue := s.eventQueue ++ [e] }
  else none

section Clients

variable [DecidableEq Client]

def fileSelect (c : Client) (data : FileSelectData Buffer) : Option (SdApp Client Buffer) :=
  match s.clients c with
  | .idle =>
    ({ s with
      clients := Function.update s.clients c (.receiving { data with request := s.calls })
      calls := s.calls + 1 }).put (.fileSelect { data with request := s.calls })
  | _ => none

/-- The call takes a result; only after a failure it has something left to do. -/
def receive (c : Client) : Option (SdApp Client Buffer) :=
  match s.clients c, s.resultReceiver with
  | .receiving data, answer :: results =>
    let r : Return Client Buffer :=
      ⟨c, data, answer, s.chosen data.request, data.result.map s.memory⟩
    if answer.result then
      some { s with
        resultReceiver := results
        clients := Function.update s.clients c .idle
        returns := s.returns ++ [r] }
    else
      some { s with
        resultReceiver := results
        clients := Function.update s.clients c (.checking r) }
  | _, _ => none

def checkError (c : Client) : Option (SdApp Client Buffer) :=
  match s.clients c with
  | .checking r =>
    ({ s with
      clients := Function.update s.clients c .idle
      returns := s.returns ++ [r] }).put .checkError
  | _ => none

end Clients

inductive Label (Client Buffer : Type) where
  | take (card : CardAnswer)
  | op
  | key (k : Key)
  | deliver
  | post (e : SdAppEvent Buffer)
  | fileSelect (c : Client) (data : FileSelectData Buffer)
  | receive (c : Client)
  | checkError (c : Client)
  | mount (status : SDError)

def take (card : CardAnswer) : Option (SdApp Client Buffer) :=
  match s.ops, s.eventQueue with
  | [], e :: events => some { s with eventQueue := events, ops := s.handle card e }
  | _, _ => none

def op [DecidableEq Buffer] : Option (SdApp Client Buffer) :=
  match s.ops with
  | [] => none
  | o :: ops =>
    match ({ s with ops }).exec o with
    | some (.ok t) => some t
    | some (.error f) => some { s with fault := some f }
    | none => none

/-- The GUI service puts the event of the callback into the queue. -/
def deliver : Option (SdApp Client Buffer) :=
  match s.gui with
  | some e => ({ s with gui := none }).put e
  | none => none

variable [DecidableEq Client] [DecidableEq Buffer]

def step : Label Client Buffer → Option (SdApp Client Buffer)
  | .take card => s.take card
  | .op => s.op
  | .key k => if s.gui.isSome then none else s.input k
  | .deliver => s.deliver
  | .post e => if posted e then s.put e else none
  | .fileSelect c data => s.fileSelect c data
  | .receive c => s.receive c
  | .checkError c => s.checkError c
  | .mount status => some { s with status }

def next (l : Label Client Buffer) : Option (SdApp Client Buffer) :=
  if s.fault.isSome then none else s.step l

end SdApp

section System

variable (Client Buffer : Type) [DecidableEq Client] [DecidableEq Buffer]

/-- The application in front of its loop, with the card's state and the buffers unknown. -/
def sdFilesystemApp (status : SDError) (memory : Buffer → List Char) :
    Machine (SdApp Client Buffer) (SdApp.Label Client Buffer) where
  init :=
    { sdAppState := .background
      viewHolder := none
      heap := fun _ => none
      fresh := 0
      status
      eventQueue := []
      resultReceiver := []
      ops := []
      gui := none
      clients := fun _ => .idle
      calls := 0
      chosen := fun _ => none
      memory
      returns := []
      fault := none }
  next := fun s => s.next

end System

end FlipperZero.SdFilesystem
