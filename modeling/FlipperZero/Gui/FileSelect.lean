import FlipperZero.SdFilesystem.DirRead
import Mathlib.Data.List.Infix

/-! # The file select view

Its three functions that list a directory: one counts the files, one fills the visible lines
and one looks for the file that is to be selected.
-/

namespace FlipperZero.Gui

open SdFilesystem

def filenameCount : ℕ := 4
def fileSelectNameLength : ℕ := 100

structure FileSelectModel where
  filename : Fin filenameCount → List Char
  position : UInt8
  firstFileIndex : UInt16
  fileCount : UInt16

/-- `strstr` finds the text. -/
def contains (text part : List Char) : Bool := decide (part <:+: text)

def filterFile (extension : List Char) (fileInfo : FileInfo) (name : List Char) : Bool :=
  !fileInfo.flags.directory && (extension = ['*'] || contains name extension)

/-- `string_replace_all_str` of a text by nothing, with at most `n` places to look at. -/
def stringRemoveAll (part : List Char) : ℕ → List Char → List Char
  | 0, s => s
  | _ + 1, [] => []
  | n + 1, c :: cs =>
    if part ≠ [] ∧ part <+: c :: cs then stringRemoveAll part n ((c :: cs).drop part.length)
    else c :: stringRemoveAll part n cs

section FillCount

def fillCountStep (extension : List Char) (fileCounter : UInt16) (name : List Char)
    (fileInfo : FileInfo) : UInt16 × Bool :=
  (if filterFile extension fileInfo name then fileCounter + 1 else fileCounter, false)

def fileSelectFillCount (extension : List Char) (model : FileSelectModel) :
    ListingInput → ℕ → Option (ListingOutcome FileSelectModel) :=
  listDirectory (fillCountStep extension) fileSelectNameLength [] 0 model (some false)
    fun exit fileCounter =>
      match exit with
      | .failed => ⟨some exit, some false, model⟩
      | _ => ⟨some exit, some true, { model with fileCount := fileCounter }⟩

end FillCount

section FillStrings

/-- The model with the lines filled so far, and the two counters. -/
structure FillStrings where
  model : FileSelectModel
  stringCounter : ℕ
  fileCounter : UInt16

def displayName (extension name : List Char) : List Char :=
  if extension ≠ ['*'] then stringRemoveAll extension name.length name else name

def FillStrings.put (s : FillStrings) (name : List Char) : FillStrings :=
  { s with
    model := { s.model with
      filename := fun i => if i.val = s.stringCounter then name else s.model.filename i }
    stringCounter := s.stringCounter + 1 }

def fillStringsStep (extension : List Char) (s : FillStrings) (name : List Char)
    (fileInfo : FileInfo) : FillStrings × Bool :=
  if filterFile extension fileInfo name then
    if s.model.firstFileIndex ≤ s.fileCounter then
      let t := s.put (displayName extension name)
      if filenameCount ≤ t.stringCounter then (t, true)
      else ({ t with fileCounter := t.fileCounter + 1 }, false)
    else ({ s with fileCounter := s.fileCounter + 1 }, false)
  else (s, false)

def fileSelectFillStrings (extension : List Char) (model : FileSelectModel) :
    ListingInput → ℕ → Option (ListingOutcome FileSelectModel) :=
  listDirectory (fillStringsStep extension) fileSelectNameLength [] ⟨model, 0, 0⟩ model
    (some false) fun exit s =>
      match exit with
      | .failed => ⟨some exit, some false, s.model⟩
      | _ => ⟨some exit, some true, s.model⟩

end FillStrings

section SetSelectedFile

def setSelectedFileStep (extension filename : List Char) (filePosition : UInt16)
    (name : List Char) (fileInfo : FileInfo) : UInt16 × Bool :=
  if filterFile extension fileInfo name then
    if filename = name then (filePosition, true) else (filePosition + 1, false)
  else (filePosition, false)

def FileSelectModel.select (model : FileSelectModel) (filePosition : UInt16) : FileSelectModel :=
  let maxFirstFileIndex : UInt16 :=
    if filenameCount < model.fileCount.toNat then model.fileCount - 4 else 0
  let first := if 0 < filePosition then filePosition - 1 else filePosition
  let first := if maxFirstFileIndex ≤ first then maxFirstFileIndex else first
  { model with firstFileIndex := first, position := (filePosition - first).toUInt8 }

def fullName (extension filename : List Char) : List Char :=
  if extension ≠ ['*'] then filename ++ extension else filename

def fileSelectSetSelectedFileInternal (extension filename : List Char) (model : FileSelectModel)
    (input : ListingInput) : ℕ → Option (ListingOutcome FileSelectModel) :=
  if filename = [] then fun _ => some ⟨none, none, model⟩
  else
    listDirectory (setSelectedFileStep extension (fullName extension filename))
      fileSelectNameLength [] 0 model none
      (fun exit filePosition =>
        match exit with
        | .found => ⟨some exit, none, model.select filePosition⟩
        | _ => ⟨some exit, none, model⟩) input

end SetSelectedFile

end FlipperZero.Gui
