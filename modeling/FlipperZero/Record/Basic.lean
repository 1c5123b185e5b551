import FlipperZero.Lib.Machine
import FlipperZero.Mlib.Containers
import FlipperZero.Rtos.ThreadFlags

/-! # The record registry

Threads create, destroy, open and close named records. Each access of a thread
to the shared registry is one step, so every interleaving of the four functions
is a run of the machine below. Record pointers point into a heap, and a step
through a pointer to a freed record does not exist: the behaviour of the code is
undefined there.
-/

namespace FlipperZero.Record

open FlipperZero.Lib FlipperZero.Mlib FlipperZero.Rtos

abbrev furiRecordFlagUpdated : BitVec 32 := 0x00000001#32

/-- A record; `none` stands for the pointer `NULL`. -/
structure FuriRecord (H Thread Data : Type) where
  data : Option Data
  owner : Option Thread
  holders : H

/-- The registry, with the heap that its record pointers point into. -/
structure FuriRecordData (D H Thread Data : Type) where
  recordsMutex : Option Thread
  records : D
  heap : ℕ → Option (FuriRecord H Thread Data)
  fresh : ℕ

inductive Call (Name Data : Type) where
  | create (name : Name) (data : Option Data)
  | destroy (name : Name)
  | open (name : Name)
  | close (name : Name)
  deriving DecidableEq, Repr

/-- Where a thread is inside one of the four functions, with its local variables. -/
inductive Pc (Thread Name Data : Type) where
  | idle
  | createAcquire (name : Name) (data : Option Data)
  | createGet (name : Name) (data : Option Data)
  | createData (name : Name) (record : ℕ) (data : Option Data)
  | createOwner (name : Name) (record : ℕ)
  | createNotify (name : Name) (record : ℕ) (rest : List Thread)
  | destroyAcquire (name : Name)
  | destroyErase (name : Name)
  | destroyRelease (destroyed : Bool)
  | openAcquire (name : Name)
  | openGet (name : Name)
  | openPush (name : Name) (record : ℕ)
  | openRelease (name : Name) (record : ℕ)
  | openCheck (name : Name) (record : ℕ)
  | openWait (name : Name) (record : ℕ)
  | openReturn (name : Name) (record : ℕ)
  | closeAcquire (name : Name)
  | closeErase (name : Name)
  | closeRelease
  deriving DecidableEq, Repr

/-- What the history of a run records, the newest event first. -/
inductive Event (Thread Name Data : Type) where
  /-- `furi_record_create` stores its data pointer. -/
  | created (thread : Thread) (name : Name) (data : Option Data)
  /-- `furi_record_destroy` erases the record. -/
  | destroyed (thread : Thread) (name : Name)
  /-- `furi_record_open` returns. -/
  | opened (thread : Thread) (name : Name) (data : Option Data)
  /-- `furi_record_close` is called. -/
  | closed (thread : Thread) (name : Name)
  deriving DecidableEq, Repr

structure State (D H Thread Name Data : Type) where
  registry : FuriRecordData D H Thread Data
  flags : ThreadFlags Thread
  pc : Thread → Pc Thread Name Data
  history : List (Event Thread Name Data)

inductive Label (Thread Name Data : Type) where
  | call (thread : Thread) (c : Call Name Data)
  | step (thread : Thread)
  deriving DecidableEq, Repr

variable {D H Thread Name Data : Type} [DecidableEq Thread]
variable [DictSet H Thread] [Dict D Name ℕ]

def furiRecordInit : FuriRecordData D H Thread Data where
  recordsMutex := none
  records := Dict.init
  heap _ := none
  fresh := 0

namespace FuriRecordData

/-- `osMutexAcquire`, which blocks while the mutex is taken. -/
def acquire (d : FuriRecordData D H Thread Data) (t : Thread) :
    Option (FuriRecordData D H Thread Data) :=
  match d.recordsMutex with
  | none => some { d with recordsMutex := some t }
  | some _ => none

def release (d : FuriRecordData D H Thread Data) : FuriRecordData D H Thread Data :=
  { d with recordsMutex := none }

/-- Write the record that the pointer `r` points to. -/
def put (d : FuriRecordData D H Thread Data) (r : ℕ) (record : FuriRecord H Thread Data) :
    FuriRecordData D H Thread Data :=
  { d with heap := Function.update d.heap r (some record) }

/-- `FuriRecordDict_erase`, which frees the record. -/
def free (d : FuriRecordData D H Thread Data) (name : Name) (r : ℕ) :
    FuriRecordData D H Thread Data :=
  { d with records := Dict.erase d.records name, heap := Function.update d.heap r none }

end FuriRecordData

def furiRecordGetOrCreate (d : FuriRecordData D H Thread Data) (name : Name) :
    ℕ × FuriRecordData D H Thread Data :=
  match Dict.get d.records name with
  | some r => (r, d)
  | none =>
    (d.fresh,
      { d with
        records := Dict.setAt d.records name d.fresh
        heap := Function.update d.heap d.fresh (some ⟨none, none, DictSet.init⟩)
        fresh := d.fresh + 1 })

namespace State

def goto (s : State D H Thread Name Data) (t : Thread) (p : Pc Thread Name Data) :
    State D H Thread Name Data :=
  { s with pc := Function.update s.pc t p }

def withRegistry (s : State D H Thread Name Data) (d : FuriRecordData D H Thread Data) :
    State D H Thread Name Data :=
  { s with registry := d }

def log (s : State D H Thread Name Data) (e : Event Thread Name Data) :
    State D H Thread Name Data :=
  { s with history := e :: s.history }

end State

def Call.entry : Call Name Data → Pc Thread Name Data
  | .create name data => .createAcquire name data
  | .destroy name => .destroyAcquire name
  | .open name => .openAcquire name
  | .close name => .closeAcquire name

def call (s : State D H Thread Name Data) (t : Thread) (c : Call Name Data) :
    Option (State D H Thread Name Data) :=
  match s.pc t with
  | .idle =>
    match c with
    | .close name => some ((s.log (.closed t name)).goto t c.entry)
    | _ => some (s.goto t c.entry)
  | _ => none

/-- One step of the thread `t` inside the function that it called. -/
def step (s : State D H Thread Name Data) (t : Thread) : Option (State D H Thread Name Data) :=
  let d := s.registry
  match s.pc t with
  | .idle => none
  | .createAcquire name data =>
    (d.acquire t).map fun d => (s.withRegistry d).goto t (.createGet name data)
  | .createGet name data =>
    let (record, d) := furiRecordGetOrCreate d name
    some ((s.withRegistry d).goto t (.createData name record data))
  | .createData name record data =>
    (d.heap record).map fun r =>
      ((s.withRegistry (d.put record { r with data := data })).log (.created t name data)).goto t
        (.createOwner name record)
  | .createOwner name record =>
    (d.heap record).map fun r =>
      (s.withRegistry (d.put record { r with owner := some t })).goto t
        (.createNotify name record (DictSet.toList r.holders))
  | .createNotify name record (holder :: rest) =>
    some (({ s with flags := osThreadFlagsSet s.flags holder furiRecordFlagUpdated } :
      State D H Thread Name Data).goto t (.createNotify name record rest))
  | .createNotify _ _ [] => some ((s.withRegistry d.release).goto t .idle)
  | .destroyAcquire name =>
    (d.acquire t).map fun d => (s.withRegistry d).goto t (.destroyErase name)
  | .destroyErase name =>
    match Dict.get d.records name with
    | none => some (s.goto t (.destroyRelease false))
    | some record =>
      (d.heap record).map fun r =>
        if r.owner = some t ∧ DictSet.size r.holders = 0 then
          ((s.withRegistry (d.free name record)).log (.destroyed t name)).goto t
            (.destroyRelease true)
        else s.goto t (.destroyRelease false)
  | .destroyRelease _ => some ((s.withRegistry d.release).goto t .idle)
  | .openAcquire name =>
    (d.acquire t).map fun d => (s.withRegistry d).goto t (.openGet name)
  | .openGet name =>
    let (record, d) := furiRecordGetOrCreate d name
    some ((s.withRegistry d).goto t (.openPush name record))
  | .openPush name record =>
    (d.heap record).map fun r =>
      (s.withRegistry (d.put record { r with holders := DictSet.push r.holders t })).goto t
        (.openRelease name record)
  | .openRelease name record =>
    some ((s.withRegistry d.release).goto t (.openCheck name record))
  | .openCheck name record =>
    -- the owner is read after the mutex has been released
    (d.heap record).map fun r =>
      if r.owner.isSome then s.goto t (.openReturn name record)
      else s.goto t (.openWait name record)
  | .openWait name _ =>
    (osThreadFlagsWait s.flags t furiRecordFlagUpdated).map fun flags =>
      ({ s with flags := flags } : State D H Thread Name Data).goto t (.openAcquire name)
  | .openReturn name record =>
    (d.heap record).map fun r => (s.log (.opened t name r.data)).goto t .idle
  | .closeAcquire name =>
    (d.acquire t).map fun d => (s.withRegistry d).goto t (.closeErase name)
  | .closeErase name =>
    -- an unknown name makes `record` a null pointer
    (Dict.get d.records name).bind fun record =>
      (d.heap record).map fun r =>
        (s.withRegistry (d.put record { r with holders := DictSet.erase r.holders t })).goto t
          .closeRelease
  | .closeRelease => some ((s.withRegistry d.release).goto t .idle)

def next (s : State D H Thread Name Data) :
    Label Thread Name Data → Option (State D H Thread Name Data)
  | .call t c => call s t c
  | .step t => step s t

def init : State D H Thread Name Data where
  registry := furiRecordInit
  flags _ := 0
  pc _ := .idle
  history := []

variable (D H Thread Name Data) in
/-- The registry with any threads calling the four functions in any order. -/
def machine : Machine (State D H Thread Name Data) (Label Thread Name Data) where
  init := init
  next := next

/-- The machine with lists as sets, functions as dictionaries and numbers as threads. -/
abbrev listMachine : Machine (State (String → Option ℕ) (ListSet ℕ) ℕ String ℕ) (Label ℕ String ℕ) :=
  machine _ _ ℕ String ℕ

end FlipperZero.Record
