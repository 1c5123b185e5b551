import Mathlib.Data.Nat.Notation

/-! # The FAT volume of the SD card

The volume counts its mounts. An object opened on it holds the count of its mount and is
valid as long as the volume is mounted under that count. What the disk answers is an input.
-/

namespace FlipperZero.SdFilesystem

/-- The codes of `SDError`, with `FR_NOT_READY`, which only `FRESULT` names. -/
inductive SDError where
  | ok
  | diskErr
  | intErr
  | notReady
  | noFile
  | noPath
  | invalidName
  | denied
  | exist
  | invalidObject
  | writeProtected
  | invalidDrive
  | notEnabled
  | noFilesystem
  | mkfsAborted
  | timeout
  | locked
  | notEnoughCore
  | tooManyOpenFiles
  | invalidParameter
  | noCard
  | notAFile
  | notADir
  | otherApp
  | lowLevelErr
deriving DecidableEq, Repr

inductive FSError where
  | ok
  | notReady
  | exist
  | notExist
  | invalidParameter
  | denied
  | invalidName
  | internal
  | notImplemented
deriving DecidableEq, Repr

def fsParseError : SDError → FSError
  | .ok => .ok
  | .noFile | .noPath => .notExist
  | .invalidName => .invalidName
  | .denied => .denied
  | .exist => .exist
  | .noFilesystem | .noCard => .notReady
  | .invalidParameter | .notAFile | .notADir => .invalidParameter
  | .intErr | .invalidObject | .writeProtected | .invalidDrive | .notEnabled | .mkfsAborted
  | .timeout | .locked | .notEnoughCore | .tooManyOpenFiles | .otherApp => .internal
  | .diskErr | .notReady | .lowLevelErr => .internal

theorem fsParseError_eq_ok {e : SDError} : fsParseError e = .ok ↔ e = .ok := by
  cases e <;> simp [fsParseError]

/-- An open object: the mount of its volume and the open that made it. -/
structure Fid where
  id : ℕ
  opening : ℕ
deriving DecidableEq, Repr

structure FatFs where
  /-- Whether the volume has a file system object. -/
  registered : Bool
  fsType : Bool
  id : ℕ
deriving DecidableEq, Repr

/-- What looking the volume up finds: it is mounted, is mounted now, or cannot be. -/
inductive VolumeCheck where
  | kept
  | mounted
  | lost
deriving DecidableEq, Repr

namespace FatFs

variable (fs : FatFs)

def mount : FatFs :=
  { fs with fsType := true, id := if fs.id = 65535 then 0 else fs.id + 1 }

def findVolume : VolumeCheck → Option FatFs
  | .kept => if fs.fsType then some fs else none
  | .mounted => some fs.mount
  | .lost => some { fs with fsType := false }

def fMount (e : SDError) : FatFs :=
  if e = .ok then { fs with registered := true }.mount
  else { fs with registered := true, fsType := false }

/-- `f_mount` without a file system object. -/
def fUnmount : FatFs := { fs with registered := false, fsType := false }

def fMkfs : FatFs := { fs with fsType := false }

def fGetfree (v : VolumeCheck) (e : SDError) : Option (FatFs × SDError) :=
  match fs.findVolume v with
  | some fs' => if e = .ok ∧ !fs'.fsType then none else some (fs', e)
  | none => none

def valid (o : Fid) : Bool := fs.fsType && o.id == fs.id

def validate (obj : Option Fid) : Bool := obj.any fs.valid

/-- `f_open` and `f_opendir` behind the lock: the volume and the object after. -/
def fOpen (opening : ℕ) (v : VolumeCheck) (e : SDError) : Option (FatFs × Option Fid) :=
  match fs.findVolume v with
  | none => none
  | some fs' =>
    if e = .ok then if fs'.fsType then some (fs', some ⟨fs'.id, opening⟩) else none
    else some (fs', none)

/-- The code of a function that validates its object. -/
def result (obj : Option Fid) (e : SDError) : SDError :=
  if fs.validate obj then e else .invalidObject

/-- The object after `f_close` or `f_closedir`. -/
def fClose (obj : Option Fid) (e : SDError) : Option Fid :=
  if fs.result obj e = .ok then none else obj

variable {fs}

theorem fClose_eq_some {obj : Option Fid} {e : SDError} {o : Fid}
    (h : fs.fClose obj e = some o) : obj = some o := by
  unfold fClose at h
  split at h
  · cases h
  · exact h

theorem fOpen_obj {n : ℕ} {v : VolumeCheck} {e : SDError} {fs' : FatFs} {obj : Option Fid}
    {o : Fid} (h : fs.fOpen n v e = some (fs', obj)) (ho : obj = some o) : o.opening = n := by
  unfold fOpen at h
  split at h
  · cases h
  · split at h
    · split at h
      · obtain ⟨-, rfl⟩ := Prod.mk.inj (Option.some.inj h)
        exact (Option.some.inj ho) ▸ rfl
      · cases h
    · obtain ⟨-, rfl⟩ := Prod.mk.inj (Option.some.inj h)
      cases ho

end FatFs

end FlipperZero.SdFilesystem
