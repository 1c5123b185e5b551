import FlipperZero.Record.Basic
import Mathlib.Data.Int.Notation

/-! # The internal storage

Client threads enqueue a pointer to a command on their stack and wait for a
thread flag; the storage task executes the commands one after another, writes
the result into the command and flags its thread. The thread flags are those of
the record module, whose functions the same threads call.
-/

namespace FlipperZero.InternalStorage

open FlipperZero.Lib FlipperZero.Mlib FlipperZero.Rtos FlipperZero.Record

abbrev internalStorageThreadFlagCallComplete : BitVec 32 := 1#32

/-- The number of messages that the queue of `internal_storage_alloc` holds. -/
abbrev queueSize : ℕ := 8

inductive InternalStorageState where
  | initializing
  | ready
  | broken
  deriving DecidableEq, Repr

inductive LfsOpenFlag where
  | rdonly
  | wronly
  | creat
  | trunc
  deriving DecidableEq, Repr

/-- The functions of littlefs that the storage calls; the library is not in the repository. -/
structure LittleFs (Lfs File : Type) where
  format : Lfs → ℤ × Lfs
  mount : Lfs → ℤ × Lfs
  fileOpen : Lfs → String → List LfsOpenFlag → ℤ × File × Lfs
  /-- The bytes are those that the call writes into its buffer. -/
  fileRead : Lfs → File → ℕ → ℤ × List (BitVec 8) × File × Lfs
  fileWrite : Lfs → File → List (BitVec 8) → ℕ → ℤ × File × Lfs
  fileClose : Lfs → File → ℤ × Lfs

structure InternalStorageCommandKey where
  key : String
  /-- A pointer into the memory of the caller. -/
  buffer : ℕ
  size : ℕ
  ret : ℤ
  deriving DecidableEq, Repr

inductive InternalStorageCommandFunction where
  | readKey
  | writeKey
  deriving DecidableEq, Repr

/-- A message of the queue; `data` points to the command on the stack of the caller. -/
structure InternalStorageCommand (Thread : Type) where
  thread : Thread
  function : InternalStorageCommandFunction
  data : ℕ
  deriving DecidableEq, Repr

/-- Where a client is inside `internal_storage_read_key` or `internal_storage_write_key`. -/
inductive Pc (Thread : Type) where
  | idle
  | put (function : InternalStorageCommandFunction) (data : InternalStorageCommandKey)
  | wait (command : InternalStorageCommand Thread)
  | return (command : InternalStorageCommand Thread)
  deriving DecidableEq, Repr

/-- Where `internal_storage_task` is, with its local variables. -/
inductive TaskPc (Thread File : Type) where
  | boot
  | create
  | get
  | open (command : InternalStorageCommand Thread)
  | transfer (command : InternalStorageCommand Thread) (file : File)
  | close (command : InternalStorageCommand Thread) (file : File) (ret : ℤ)
  | store (command : InternalStorageCommand Thread) (ret : ℤ)
  | signal (command : InternalStorageCommand Thread)

/-- What the history of a run records, the newest event first. -/
inductive Event (Thread : Type) where
  | executed (command : InternalStorageCommand Thread) (ret : ℤ)
  | returned (command : InternalStorageCommand Thread) (ret : ℤ)
  deriving DecidableEq, Repr

structure State (D H Thread Data Lfs File : Type) where
  record : Record.State D H Thread String Data
  queue : List (InternalStorageCommand Thread)
  /-- The stacks of the callers. -/
  frames : ℕ → InternalStorageCommandKey
  fresh : ℕ
  buffers : ℕ → List (BitVec 8)
  state : InternalStorageState
  lfs : Lfs
  pc : Thread → Pc Thread
  task : TaskPc Thread File
  history : List (Event Thread)

inductive Label (Thread Data : Type) where
  | record (l : Record.Label Thread String Data)
  | call (thread : Thread) (function : InternalStorageCommandFunction) (key : String)
      (buffer size : ℕ)
  | client (thread : Thread)
  | task
  deriving DecidableEq, Repr

/-- The thread of the storage task, the pointer that it registers and its file system. -/
structure Config (Thread Data Lfs File : Type) where
  task : Thread
  storage : Data
  fs : LittleFs Lfs File
  factoryReset : Bool
  flash : Lfs

variable {D H Thread Data Lfs File : Type}

/-- Format and mount again, as after a factory reset and after a failed mount. -/
def LittleFs.formatAndMount (fs : LittleFs Lfs File) (lfs : Lfs) : InternalStorageState × Lfs :=
  let (err, lfs) := fs.format lfs
  if err = 0 then
    let (err, lfs) := fs.mount lfs
    (if err = 0 then .ready else .broken, lfs)
  else (.broken, lfs)

/-- What `internal_storage_task` does before it registers the storage. -/
def LittleFs.boot (fs : LittleFs Lfs File) (factoryReset : Bool) (lfs : Lfs) :
    InternalStorageState × Lfs :=
  if factoryReset then fs.formatAndMount lfs
  else
    let (err, lfs) := fs.mount lfs
    if err = 0 then (.ready, lfs) else fs.formatAndMount lfs

def InternalStorageCommandFunction.openFlags : InternalStorageCommandFunction → List LfsOpenFlag
  | .readKey => [.rdonly]
  | .writeKey => [.wronly, .creat, .trunc]

namespace State

def goto (s : State D H Thread Data Lfs File) [DecidableEq Thread] (t : Thread) (p : Pc Thread) :
    State D H Thread Data Lfs File :=
  { s with pc := Function.update s.pc t p }

def log (s : State D H Thread Data Lfs File) (e : Event Thread) :
    State D H Thread Data Lfs File :=
  { s with history := e :: s.history }

def fill (s : State D H Thread Data Lfs File) (buffer : ℕ) (bytes : List (BitVec 8)) :
    State D H Thread Data Lfs File :=
  { s with
    buffers := Function.update s.buffers buffer
      (bytes ++ (s.buffers buffer).drop bytes.length) }

end State

variable [DecidableEq Thread]

/-- A client enters one of the two functions; every client thread has an id. -/
def call (cfg : Config Thread Data Lfs File) (s : State D H Thread Data Lfs File) (t : Thread)
    (function : InternalStorageCommandFunction) (key : String) (buffer size : ℕ) :
    Option (State D H Thread Data Lfs File) :=
  match s.pc t, s.record.pc t with
  | .idle, .idle =>
    if t = cfg.task then none
    else some (s.goto t (.put function ⟨key, buffer, size, 0⟩))
  | _, _ => none

def clientStep (s : State D H Thread Data Lfs File) (t : Thread) :
    Option (State D H Thread Data Lfs File) :=
  match s.pc t with
  | .idle => none
  | .put function data =>
    if s.queue.length < queueSize then
      let command := ⟨t, function, s.fresh⟩
      some (({ s with
        queue := s.queue ++ [command]
        frames := Function.update s.frames s.fresh data
        fresh := s.fresh + 1 } : State D H Thread Data Lfs File).goto t (.wait command))
    else none
  | .wait command =>
    (osThreadFlagsWait s.record.flags t internalStorageThreadFlagCallComplete).map fun flags =>
      ({ s with record := { s.record with flags := flags } } :
        State D H Thread Data Lfs File).goto t (.return command)
  | .return command =>
    some ((s.log (.returned command (s.frames command.data).ret)).goto t .idle)

variable [DictSet H Thread] [Dict D String ℕ]

/-- One step of `internal_storage_task`. -/
def taskStep (cfg : Config Thread Data Lfs File) (s : State D H Thread Data Lfs File) :
    Option (State D H Thread Data Lfs File) :=
  match s.task with
  | .boot =>
    let (state, lfs) := cfg.fs.boot cfg.factoryReset s.lfs
    (Record.call s.record cfg.task (.create "internal-storage" (some cfg.storage))).map fun r =>
      { s with record := r, state := state, lfs := lfs, task := .create }
  | .create =>
    match s.record.pc cfg.task with
    | .idle => some { s with task := .get }
    | _ => none
  | .get =>
    match s.queue with
    | [] => none
    | command :: queue => some { s with queue := queue, task := .open command }
  | .open command =>
    let (ret, file, lfs) :=
      cfg.fs.fileOpen s.lfs (s.frames command.data).key command.function.openFlags
    some { s with
      lfs := lfs
      task := if ret = 0 then .transfer command file else .store command ret }
  | .transfer command file =>
    let data := s.frames command.data
    match command.function with
    | .readKey =>
      let (ret, bytes, file, lfs) := cfg.fs.fileRead s.lfs file data.size
      some { s.fill data.buffer bytes with lfs := lfs, task := .close command file ret }
    | .writeKey =>
      let (ret, file, lfs) := cfg.fs.fileWrite s.lfs file (s.buffers data.buffer) data.size
      some { s with lfs := lfs, task := .close command file ret }
  | .close command file ret =>
    some { s with lfs := (cfg.fs.fileClose s.lfs file).2, task := .store command ret }
  | .store command ret =>
    some { s.log (.executed command ret) with
      frames := Function.update s.frames command.data { s.frames command.data with ret := ret }
      task := .signal command }
  | .signal command =>
    some { s with
      record := { s.record with
        flags := osThreadFlagsSet s.record.flags command.thread
          internalStorageThreadFlagCallComplete }
      task := .get }

def next (cfg : Config Thread Data Lfs File) (s : State D H Thread Data Lfs File) :
    Label Thread Data → Option (State D H Thread Data Lfs File)
  | .record (.call t c) =>
    match s.pc t with
    | .idle =>
      if t = cfg.task then none
      else (Record.call s.record t c).map fun r => { s with record := r }
    | _ => none
  | .record (.step t) => (Record.step s.record t).map fun r => { s with record := r }
  | .call t function key buffer size => call cfg s t function key buffer size
  | .client t => clientStep s t
  | .task => taskStep cfg s

def init (cfg : Config Thread Data Lfs File) : State D H Thread Data Lfs File where
  record := Record.init
  queue := []
  frames _ := ⟨"", 0, 0, 0⟩
  fresh := 0
  buffers _ := []
  state := .initializing
  lfs := cfg.flash
  pc _ := .idle
  task := .boot
  history := []

variable (D H) in
/-- Any threads calling the storage and the record functions, and the storage task. -/
def machine (cfg : Config Thread Data Lfs File) :
    Machine (State D H Thread Data Lfs File) (Label Thread Data) where
  init := init cfg
  next := next cfg

end FlipperZero.InternalStorage
