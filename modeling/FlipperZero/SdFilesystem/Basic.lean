import FlipperZero.Lib.Machine
import FlipperZero.SdFilesystem.FatFs
import Mathlib.Data.List.FinRange
import Mathlib.Logic.Function.Basic

/-! # The open-file table of the SD card

Clients hold `File` structures with an index into a table of slots. A lock section of a
client makes no FatFs call and is one step; the calls come between the sections, and each is a test
of the object and, behind the lock of the volume, the action. The worker that mounts and unmounts
the card makes its calls with the lock held. Openings are counted: a slot and a `File` record the
last one that concerned them.
-/

namespace FlipperZero.SdFilesystem

open Lib

def sdFsMaxFiles : ℕ := 2

abbrev Slot := Fin sdFsMaxFiles

inductive FiledataFilter where
  | dir
  | file
  | any
deriving DecidableEq, Repr

def FiledataFilter.admits (isDir : Bool) : FiledataFilter → Bool
  | .dir => isDir
  | .file => !isDir
  | .any => true

inductive Value where
  | bool (b : Bool)
  | number (n : ℕ)
deriving DecidableEq, Repr

/-- The functions that find their slot through an open `File`. -/
inductive FileOp where
  | fsFileClose
  | fsFileRead
  | fsFileWrite
  | fsFileSeek
  | fsFileTell
  | fsFileTruncate
  | fsFileSync
  | fsFileSize
  | fsFileEof
  | fsDirClose
  | fsDirRead
  | fsDirRewind
deriving DecidableEq, Repr

namespace FileOp

def filter : FileOp → FiledataFilter
  | fsDirClose | fsDirRead | fsDirRewind => .dir
  | _ => .file

/-- Whether FatFs validates the object; the others read a field of it. -/
def validates : FileOp → Bool
  | fsFileTell | fsFileSize | fsFileEof => false
  | _ => true

def closes : FileOp → Bool
  | fsFileClose | fsDirClose => true
  | _ => false

/-- `f_close` begins with `f_sync`, a call of its own. -/
def syncs : FileOp → Bool
  | fsFileClose => true
  | _ => false

/-- What is returned, from the code and what FatFs put out, if it was called. -/
def result : FileOp → SDError → Option ℕ → Value
  | fsFileRead, _, v | fsFileWrite, _, v | fsFileTell, _, v | fsFileSize, _, v =>
    .number (v.getD 0)
  | fsFileEof, _, v => .bool (v.all (· ≠ 0))
  | _, e, _ => .bool (e = .ok)

end FileOp

structure FileData (Thread : Type) where
  threadId : Option Thread
  isDir : Bool
  data : Option Fid
  opening : ℕ

structure File where
  fileId : ℕ
  errorId : FSError
  internalErrorId : SDError
  opening : ℕ

variable {Thread Ptr : Type} [DecidableEq Thread] [DecidableEq Ptr]

/-- A call that returned: the objects it acted on, each with the object last opened through its
`File` if that was still open. -/
structure Outcome (Thread Ptr : Type) where
  thread : Thread
  file : Ptr
  /-- `none` for `fs_file_open` and `fs_dir_open`. -/
  op : Option FileOp
  errorId : FSError
  value : Value
  touches : List (ℕ × Option ℕ)
deriving DecidableEq, Repr

inductive ThreadPc (Ptr : Type) where
  | idle
  | opening (file : Ptr) (isDir : Bool) (slot : Slot) (opening : ℕ)
  /-- `find_volume` has found a file system object and waits for its lock. -/
  | entering (file : Ptr) (isDir : Bool) (slot : Slot) (opening : ℕ)
  /-- A FatFs call begins; what the calls before it have touched. -/
  | calling (file : Ptr) (op : FileOp) (slot : Slot) (synced : Bool)
      (touches : List (ℕ × Option ℕ))
  /-- `validate` has found the object valid and waits for the lock of its volume. -/
  | acting (file : Ptr) (op : FileOp) (slot : Slot) (synced : Bool)
      (touches : List (ℕ × Option ℕ))
  | closing (file : Ptr) (op : FileOp) (slot : Slot) (error : SDError)
      (touches : List (ℕ × Option ℕ))
deriving DecidableEq

/-- Where the worker is; it holds the lock unless it is idle. -/
inductive WorkerPc where
  | idle
  | mounting (counter : ℕ)
  | unmounting (index : ℕ)
  | formatted
  | unlocking
deriving DecidableEq

structure SdFsInfo (Thread Ptr : Type) where
  files : Slot → FileData Thread
  status : SDError
  fatFs : FatFs
  file : Ptr → File
  pc : Thread → ThreadPc Ptr
  worker : WorkerPc
  openings : ℕ
  /-- The object of the latest successful open of a `File`, until it is closed. -/
  opened : Ptr → Option Fid
  /-- Whether the last open of a `File` by a thread has not been followed by a close. -/
  owed : Thread → Ptr → Bool
  log : List (Outcome Thread Ptr)

namespace SdFsInfo

variable (s : SdFsInfo Thread Ptr)

def setFile (f : Ptr) (file : File) : SdFsInfo Thread Ptr :=
  { s with file := Function.update s.file f file }

def setFiles (i : Slot) (filedata : FileData Thread) : SdFsInfo Thread Ptr :=
  { s with files := Function.update s.files i filedata }

def setPc (t : Thread) (pc : ThreadPc Ptr) : SdFsInfo Thread Ptr :=
  { s with pc := Function.update s.pc t pc }

def setOwed (t : Thread) (f : Ptr) (b : Bool) : SdFsInfo Thread Ptr :=
  { s with owed := Function.update s.owed t (Function.update (s.owed t) f b) }

def forget (n : ℕ) : SdFsInfo Thread Ptr :=
  { s with opened := fun f => (s.opened f).filter fun o => o.opening ≠ n }

/-- The object of the latest successful open through a `File` that is still open. -/
def expected (f : Ptr) : Option ℕ := ((s.opened f).filter s.fatFs.valid).map Fid.opening

def touched (f : Ptr) (i : Slot) : List (ℕ × Option ℕ) :=
  (((s.files i).data.filter s.fatFs.valid).map fun o => (o.opening, s.expected f)).toList

/-- Behind the test a call acts on whatever object the slot holds. -/
def acted (f : Ptr) (i : Slot) : List (ℕ × Option ℕ) :=
  ((s.files i).data.map fun o => (o.opening, s.expected f)).toList

def finish (t : Thread) (f : Ptr) (op : Option FileOp) (e : SDError) (value : Value)
    (touches : List (ℕ × Option ℕ)) : SdFsInfo Thread Ptr :=
  let s := s.setFile f { s.file f with errorId := fsParseError e, internalErrorId := e }
  let s := if op.any FileOp.closes then s.setOwed t f false else s
  { s.setPc t .idle with log := ⟨t, f, op, fsParseError e, value, touches⟩ :: s.log }

def getFiledata (t : Thread) (f : Ptr) (filter : FiledataFilter) : Except SDError Slot :=
  if s.status = .ok then
    if h : (s.file f).fileId < sdFsMaxFiles then
      if (s.files ⟨(s.file f).fileId, h⟩).threadId = some t then
        if filter.admits (s.files ⟨(s.file f).fileId, h⟩).isDir then
          .ok ⟨(s.file f).fileId, h⟩
        else if filter = .file then .error .notAFile else .error .notADir
      else .error .otherApp
    else .error .invalidParameter
  else .error .noCard

def takeSlot (t : Thread) (f : Ptr) (isDir : Bool) (i : Slot) : SdFsInfo Thread Ptr :=
  { (((s.setFiles i ⟨some t, isDir, none, s.openings⟩).setFile f
      { s.file f with fileId := i, opening := s.openings }).setOwed t f true).setPc t
        (.opening f isDir i s.openings) with
    openings := s.openings + 1 }

/-- The lock section of `fs_file_open` and `fs_dir_open`. -/
def fsOpen (t : Thread) (f : Ptr) (isDir : Bool) : SdFsInfo Thread Ptr :=
  match (List.finRange sdFsMaxFiles).find? fun i => (s.files i).threadId.isNone with
  | some i => s.takeSlot t f isDir i
  | none => (s.setOwed t f true).finish t f none .tooManyOpenFiles (.bool false) []

def fsFileOpen (t : Thread) (f : Ptr) : SdFsInfo Thread Ptr := s.fsOpen t f false

def fsDirOpen (t : Thread) (f : Ptr) : SdFsInfo Thread Ptr := s.fsOpen t f true

def overwritten (i : Slot) : List (ℕ × Option ℕ) :=
  (((s.files i).data.filter s.fatFs.valid).map fun o => (o.opening, none)).toList

/-- The opened objects with one more, unless a later open of its `File` has succeeded. -/
def recordOpened (f : Ptr) (obj : Option Fid) : Ptr → Option Fid :=
  match obj with
  | some o =>
    if (s.opened f).any fun o' => o.opening < o'.opening then s.opened
    else Function.update s.opened f (some o)
  | none => s.opened

/-- The call of `f_open` or `f_opendir` looks for the file system object of the volume. -/
def findVolume (t : Thread) : Option (SdFsInfo Thread Ptr) :=
  match s.pc t with
  | .opening f isDir i n =>
    if s.fatFs.registered then some (s.setPc t (.entering f isDir i n))
    else some ((s.setFiles i { s.files i with data := none }).finish t f none .notEnabled
      (.bool false) (s.overwritten i))
  | _ => none

def fOpen (t : Thread) (v : VolumeCheck) (e : SDError) : Option (SdFsInfo Thread Ptr) :=
  match s.pc t with
  | .entering f _ i n =>
    match s.fatFs.fOpen n v e with
    | some (fatFs, obj) =>
      some ({ s.setFiles i { s.files i with data := obj } with
        fatFs := fatFs, opened := s.recordOpened f obj }.finish t f none e
          (.bool (e = SDError.ok)) (s.overwritten i))
    | none => none
  | _ => none

def start (t : Thread) (f : Ptr) (op : FileOp) : SdFsInfo Thread Ptr :=
  match s.getFiledata t f op.filter with
  | .ok i => s.setPc t (.calling f op i false [])
  | .error e => s.finish t f (some op) e (op.result e none) []

/-- The FatFs calls of a function are over: a close goes on to free its slot. -/
def leave (t : Thread) (f : Ptr) (op : FileOp) (i : Slot) (e : SDError) (v : ℕ)
    (touches : List (ℕ × Option ℕ)) : SdFsInfo Thread Ptr :=
  if op.closes then s.setPc t (.closing f op i e touches)
  else s.finish t f (some op) e (op.result e (some v)) touches

/-- The test of `validate`, before the lock of the volume is taken. -/
def test (t : Thread) : Option (SdFsInfo Thread Ptr) :=
  match s.pc t with
  | .calling f op i synced touches =>
    if op.validates then
      if s.fatFs.validate (s.files i).data then some (s.setPc t (.acting f op i synced touches))
      else some (s.leave t f op i .invalidObject 0 touches)
    else none
  | _ => none

/-- The object in a slot after a call: `f_close` and `f_closedir` invalidate it. -/
def invalidated (op : FileOp) (i : Slot) (e : SDError) : Option Fid :=
  if op.closes ∧ e = .ok then none else (s.files i).data

/-- What a FatFs call does, with the code and the number it puts out. -/
def call (t : Thread) (e : SDError) (v : ℕ) : Option (SdFsInfo Thread Ptr) :=
  match s.pc t with
  | .calling f op i _ touches =>
    if op.validates then none
    else some (s.finish t f (some op) .ok (op.result .ok (some v)) (touches ++ s.touched f i))
  | .acting f op i synced touches =>
    if op.syncs ∧ synced = false ∧ e = .ok then
      some (s.setPc t (.calling f op i true (touches ++ s.acted f i)))
    else if op.syncs ∧ synced = false then
      some (s.setPc t (.closing f op i e (touches ++ s.acted f i)))
    else
      some ((s.setFiles i { s.files i with data := s.invalidated op i e }).leave t f op i e v
        (touches ++ s.acted f i))
  | _ => none

/-- The second lock section of `fs_file_close` and `fs_dir_close`. -/
def free (t : Thread) : Option (SdFsInfo Thread Ptr) :=
  match s.pc t with
  | .closing f op i e touches =>
    some (((s.setFiles i { s.files i with threadId := none }).forget (s.files i).opening).finish
      t f (some op) e (op.result e none) (touches ++ s.touched f i))
  | _ => none

end SdFsInfo

/-- One round of the loop of `app_sd_mount_card`. -/
inductive MountTry where
  | bspError
  | mount (e : SDError) (v : VolumeCheck) (free : SDError)

inductive WorkerLabel where
  | mountCard
  | mountTry (r : MountTry)
  | mountStop
  | unmountCard
  | unmountNext (e : SDError)
  | formatCard (e : Option SDError)
  | formatMount (e : SDError)
  | unlock

namespace SdFsInfo

variable (s : SdFsInfo Thread Ptr)

def maxInitCounts : ℕ := 10

def isMounted (e : SDError) : Bool := e = .ok || e = .noFilesystem

def mountTry : MountTry → Option (FatFs × SDError)
  | .bspError => some (s.fatFs, .lowLevelErr)
  | .mount e v free =>
    if isMounted e then (s.fatFs.fMount e).fGetfree v free else some (s.fatFs.fMount e, e)

def unmountSlot (i : Slot) (e : SDError) : SdFsInfo Thread Ptr :=
  if (s.files i).threadId.isSome then
    (s.setFiles i { s.files i with
      threadId := none, data := s.fatFs.fClose (s.files i).data e }).forget (s.files i).opening
  else s

def appSd : WorkerLabel → Option (SdFsInfo Thread Ptr)
  | .mountCard => if s.worker = .idle then some { s with worker := .mounting maxInitCounts } else none
  | .mountTry r =>
    match s.worker, s.mountTry r with
    | .mounting (counter + 1), some (fs, e) =>
      some { s with
        fatFs := fs, status := e, worker := if isMounted e then .unlocking else .mounting counter }
    | _, _ => none
  | .mountStop =>
    match s.worker with
    | .mounting _ => some { s with worker := .unlocking }
    | _ => none
  | .unmountCard =>
    if s.worker = .idle then some { s with worker := .unmounting 0, status := .noCard } else none
  | .unmountNext e =>
    match s.worker with
    | .unmounting index =>
      if h : index < sdFsMaxFiles then
        some { s.unmountSlot ⟨index, h⟩ e with worker := .unmounting (index + 1) }
      else some { s with fatFs := s.fatFs.fUnmount, worker := .unlocking }
    | _ => none
  | .formatCard e =>
    if s.worker = .idle then
      match e with
      | none => some { s with status := .notEnoughCore, worker := .unlocking }
      | some e =>
        some { s with
          status := e, fatFs := s.fatFs.fMkfs, worker := if e = .ok then .formatted else .unlocking }
    else none
  | .formatMount e =>
    if s.worker = .formatted then
      some { s with status := e, fatFs := s.fatFs.fMount e, worker := .unlocking }
    else none
  | .unlock => if s.worker = .unlocking then some { s with worker := .idle } else none

end SdFsInfo

inductive SdLabel (Thread Ptr : Type) where
  | fsOpen (t : Thread) (f : Ptr) (isDir : Bool)
  | findVolume (t : Thread)
  | fOpen (t : Thread) (v : VolumeCheck) (e : SDError)
  | start (t : Thread) (f : Ptr) (op : FileOp)
  | test (t : Thread)
  | call (t : Thread) (e : SDError) (v : ℕ)
  | free (t : Thread)
  | worker (l : WorkerLabel)

/-- The file system with `File` structures of any content. -/
def sdFilesystem (Thread Ptr : Type) [DecidableEq Thread] [DecidableEq Ptr] (fileId : Ptr → ℕ) :
    Machine (SdFsInfo Thread Ptr) (SdLabel Thread Ptr) where
  init :=
    { files := fun _ => ⟨none, false, none, 0⟩, status := .noCard, fatFs := ⟨false, false, 0⟩
      file := fun f => ⟨fileId f, .ok, .ok, 0⟩, pc := fun _ => .idle, worker := .idle
      openings := 1, opened := fun _ => none, owed := fun _ _ => false, log := [] }
  next s l :=
    match l with
    | .fsOpen t f isDir =>
      if s.pc t = .idle ∧ s.worker = .idle then
        some (if isDir then s.fsDirOpen t f else s.fsFileOpen t f)
      else none
    | .findVolume t => s.findVolume t
    | .fOpen t v e => s.fOpen t v e
    | .start t f op => if s.pc t = .idle ∧ s.worker = .idle then some (s.start t f op) else none
    | .test t => s.test t
    | .call t e v => s.call t e v
    | .free t => if s.worker = .idle then s.free t else none
    | .worker l => s.appSd l

end FlipperZero.SdFilesystem
