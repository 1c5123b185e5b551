import FlipperZero.Firmware.KeyReader
import FlipperZero.Lib.CString
import FlipperZero.SdFilesystem.DirRead

/-! # Key files of the iButton application

A key is written as the letter of its type and a group of a space and two digits for each byte,
and read back through one buffer of four bytes. Every operation of the file system may fail, and
a read or a write may stop short.
-/

namespace FlipperZero.IButton

open Lib Firmware SdFilesystem

structure NamedKey extends IButtonKey where
  name : List Char

def ibuttonKeyNameSize : ℕ := 64

def NamedKey.setName (key : NamedKey) (name : List Char) : NamedKey :=
  { key with name := strlcpy name ibuttonKeyNameSize }

def NamedKey.setType (key : NamedKey) (type : IButtonKeyType) : NamedKey := { key with type := type }

def appFolder : List Char := ['i', 'b', 'u', 't', 't', 'o', 'n']

def appExtension : List Char := ['.', 'i', 'b', 't', 'n']

def keyPath (name : List Char) : List Char := appFolder ++ '/' :: (name ++ appExtension)

/-- The messages of `show_file_error_message`. -/
inductive FileMessage where
  | cannotCreateFolder
  | cannotRemoveOldFile
  | cannotWrite
  | cannotCreateFile
  | cannotOpen
  | cannotRead
  | cannotParse
deriving DecidableEq, Repr

section Save

/-- The answer to a transfer: its error, and at most how many bytes it moves. -/
structure Transfer where
  error : FSError
  limit : ℕ
deriving DecidableEq, Repr

/-- The files of a card by their paths, each with its contents. -/
abbrev Files := List Char → Option (List Byte)

/-- What `save_key` meets: a fault of `remove` or `open` leaves the files as they are. -/
structure SaveInput where
  files : Files
  mkdirError : FSError
  removeFault : Option { e : FSError // e ≠ .ok ∧ e ≠ .notExist }
  openFault : Option { e : FSError // e ≠ .ok }
  writes : ℕ → Transfer

structure SaveOutcome where
  result : Bool
  key : NamedKey
  files : Files
  message : Option FileMessage

def typeLetter : IButtonKeyType → Byte
  | .keyCyfral => 0x43#8
  | .keyDallas => 0x44#8
  | .keyMetakom => 0x4D#8

/-- `" %02X"` of a byte. -/
def byteGroup (b : Byte) : List Byte := 0x20#8 :: hexText b

def keyChunks (key : IButtonKey) : List (List Byte) :=
  [typeLetter key.type] :: key.typeData.map byteGroup

def keyText (key : IButtonKey) : List Byte := typeLetter key.type :: key.typeData.flatMap byteGroup

/-- Write some pieces until one is not written whole: what the file holds then, and whether all
of them were written. -/
def writeChunks : List (List Byte) → (ℕ → Transfer) → List Byte × Bool
  | [], _ => ([], true)
  | chunk :: chunks, writes =>
    let written := chunk.take (writes 0).limit
    if (writes 0).error ≠ .ok ∨ written.length ≠ chunk.length then (written, false)
    else
      let r := writeChunks chunks fun n => writes (n + 1)
      (written ++ r.1, r.2)

def removeFile (input : SaveInput) (path : List Char) : FSError × Files :=
  match input.removeFault with
  | some e => (e.val, input.files)
  | none =>
    match input.files path with
    | some _ => (.ok, Function.update input.files path none)
    | none => (.notExist, input.files)

def saveKey (input : SaveInput) (keyName : List Char) (key : NamedKey) : SaveOutcome :=
  if input.mkdirError ≠ .ok ∧ input.mkdirError ≠ .exist then
    ⟨false, key, input.files, some .cannotCreateFolder⟩
  else
    let removed := removeFile input (keyPath key.name)
    if removed.1 ≠ .ok ∧ removed.1 ≠ .notExist then
      ⟨false, key, removed.2, some .cannotRemoveOldFile⟩
    else
      let key := key.setName keyName
      match input.openFault with
      | some _ => ⟨false, key, removed.2, some .cannotCreateFile⟩
      | none =>
        let written := writeChunks (keyChunks key.toIButtonKey) input.writes
        ⟨written.2, key, Function.update removed.2 (keyPath key.name) (some written.1),
          if written.2 then none else some .cannotWrite⟩

end Save

section Load

/-- An open file: what is left to read, and what the next reads answer. -/
structure OpenFile where
  rest : List Byte
  reads : ℕ → Transfer

def OpenFile.bytes (f : OpenFile) (count : ℕ) : List Byte := f.rest.take (min count (f.reads 0).limit)

def OpenFile.next (f : OpenFile) (count : ℕ) : OpenFile where
  rest := f.rest.drop (f.bytes count).length
  reads n := f.reads (n + 1)

def OpenFile.Short (f : OpenFile) (count : ℕ) : Prop :=
  (f.reads 0).error ≠ .ok ∨ (f.bytes count).length ≠ count

instance (f : OpenFile) (count : ℕ) : Decidable (f.Short count) :=
  inferInstanceAs (Decidable (_ ∨ _))

def fillBuffer (buffer bytes : List Byte) : List Byte := bytes ++ buffer.drop bytes.length

def parseType (byteText : List Byte) : Option IButtonKeyType :=
  if cString byteText = [0x43#8] then some .keyCyfral
  else if cString byteText = [0x4D#8] then some .keyMetakom
  else if cString byteText = [0x44#8] then some .keyDallas
  else none

/-- The loop over the data, with `left` bytes to come; `none` when a read fails. -/
def loadData : (left : ℕ) → (byteText : List Byte) → OpenFile → Option (List Byte)
  | 0, _, _ => some []
  | left + 1, byteText, f =>
    if f.Short 1 then none
    else
      let spaced := fillBuffer byteText (f.bytes 1)
      if (f.next 1).Short 2 then none
      else
        let byteText := fillBuffer spaced ((f.next 1).bytes 2)
        (loadData left byteText ((f.next 1).next 2)).map
          (BitVec.ofInt 8 (strtol (cString byteText)) :: ·)

/-- What `load_key` meets: the name that was selected, and the file under it. -/
structure LoadInput where
  selected : Option (List Char)
  openError : FSError
  file : OpenFile

structure LoadOutcome where
  result : Bool
  key : NamedKey
  message : Option FileMessage

def loadKey (input : LoadInput) (key : NamedKey) : LoadOutcome :=
  match input.selected with
  | none => ⟨false, key, none⟩
  | some fileName =>
    if input.openError ≠ .ok then ⟨false, key, some .cannotOpen⟩
    else if input.file.Short 1 then ⟨false, key, some .cannotRead⟩
    else
      let byteText := fillBuffer [0, 0, 0, 0] (input.file.bytes 1)
      match parseType byteText with
      | none => ⟨false, key, some .cannotParse⟩
      | some keyType =>
        let key := key.setType keyType
        match loadData keyType.dataSize byteText (input.file.next 1) with
        | none => ⟨false, key, some .cannotRead⟩
        | some data =>
          ⟨true, { (key.setName fileName).setType keyType with data := keyData data }, none⟩

end Load

end FlipperZero.IButton
