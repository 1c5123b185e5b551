import FlipperZero.Archive.Filenames
import FlipperZero.Gui.TextInput

/-! # Entering a text

The buffers that the text input is given: the text store of the iButton application, and the
dynamic string of the archive, which has room for any name because the string that the names are
read into was made that long, and a copy copies by length.
-/

namespace FlipperZero.Gui.TextInput

open Lib CBuffer Input SdFilesystem Archive

/-- A buffer with one character more than the limit, which holds a string within the limit. -/
structure Provided where
  cells : List Char
  maxTextLength : UInt8
  text : List Char
  room : maxTextLength.toNat < cells.length
  holds : Holds nul cells text
  length_le : text.length ≤ maxTextLength.toNat

/-- A use of the text input: a buffer is provided, and keys are pressed. -/
structure Session where
  provided : Provided
  callback : Bool
  events : List InputEvent

namespace TextInputModel

def enter (model : TextInputModel) (callback : Bool) (provided : Provided) : TextInputModel :=
  model.setResultCallback callback (some provided.cells) provided.maxTextLength

def session (model : TextInputModel) (s : Session) : Option TextInputModel :=
  (model.enter s.callback s.provided).inputs s.events

variable {model : TextInputModel} {cursor : Cursor}

theorem At.enter (h : model.At cursor) (callback : Bool) (provided : Provided) :
    (model.enter callback provided).Represents provided.cells ⟨provided.text, cursor⟩ :=
  ⟨⟨h.row, h.column⟩, ⟨_, rfl, provided.holds, .refl⟩, provided.length_le, provided.room⟩

theorem at_textInputAlloc : textInputAlloc.At ⟨0, 0, keyboard_length_pos 0⟩ := ⟨rfl, rfl⟩

theorem At.sessions (h : model.At cursor) (history : List Session) :
    ∃ model' cursor', history.foldlM session model = some model' ∧ model'.At cursor' := by
  induction history generalizing model cursor with
  | nil => exact ⟨model, cursor, rfl, h⟩
  | cons s history ih =>
    obtain ⟨model', hinputs, -, hrepresents⟩ :=
      (h.enter s.callback s.provided).inputs s.events
    obtain ⟨model'', cursor'', hfold, hat⟩ := ih hrepresents.selected
    refine ⟨model'', cursor'', ?_, hat⟩
    rw [List.foldlM_cons, session, hinputs]
    exact hfold

end TextInputModel

section SaveName

def textStoreSize : UInt8 := 128

/-- The text store of the application, with one character more than its size. -/
abbrev TextStore := Vector Char 129

def namePrefixes : Vector (List Char) 9 :=
  #v[['a', 'n', 'c', 'i', 'e', 'n', 't'],
    ['h', 'o', 'l', 'l', 'o', 'w'],
    ['s', 't', 'r', 'a', 'n', 'g', 'e'],
    ['d', 'i', 's', 'a', 'p', 'p', 'e', 'a', 'r', 'e', 'd'],
    ['u', 'n', 'k', 'n', 'o', 'w', 'n'],
    ['u', 'n', 't', 'h', 'i', 'n', 'k', 'a', 'b', 'l', 'e'],
    ['u', 'n', 'n', 'a', 'm', 'a', 'b', 'l', 'e'],
    ['n', 'a', 'm', 'e', 'l', 'e', 's', 's'],
    ['m', 'y']]

def nameSuffixes : Vector (List Char) 8 :=
  #v[['d', 'o', 'o', 'r'],
    ['e', 'n', 't', 'r', 'a', 'n', 'c', 'e'],
    ['d', 'o', 'o', 'r', 'w', 'a', 'y'],
    ['e', 'n', 't', 'r', 'y'],
    ['p', 'o', 'r', 't', 'a', 'l'],
    ['e', 'n', 't', 'r', 'e', 'e'],
    ['o', 'p', 'e', 'n', 'i', 'n', 'g'],
    ['c', 'r', 'a', 'c', 'k']]

/-- `vsnprintf` and `sniprintf`, which leave room for the terminator. -/
def printText (cells : List Char) (size : UInt8) (text : List Char) : List Char :=
  store nul cells (text.take (size.toNat - 1))

def generateRandomName (name : List Char) (maxNameSize : UInt8) (i : Fin 9) (j : Fin 8) :
    List Char :=
  (printText name maxNameSize (namePrefixes[i] ++ '_' :: nameSuffixes[j])).modifyHead
    charToUppercase

/-- The buffer that `iButtonSceneSaveName::on_enter` provides; `rand` chooses the words. -/
def saveNameBuffer (textStore : TextStore) (keyName : List Char) (i : Fin 9) (j : Fin 8) :
    List Char :=
  if contents nul keyName = [] then generateRandomName textStore.toList textStoreSize i j
  else printText textStore.toList textStoreSize (contents nul keyName)

theorem holds_printText {cells text : List Char} {size : UInt8} (h : nul ∉ text) :
    Holds nul (printText cells size text) (text.take (size.toNat - 1)) :=
  holds_store fun hmem => h (List.mem_of_mem_take hmem)

theorem length_printText {cells text : List Char} {size : UInt8}
    (h : size.toNat < cells.length) : (printText cells size text).length = cells.length := by
  apply length_store
  rw [List.length_take]
  omega

theorem nul_notMem_randomName (i : Fin 9) (j : Fin 8) :
    nul ∉ namePrefixes[i] ++ '_' :: nameSuffixes[j] ∧
      nul ∉ ((namePrefixes[i] ++ '_' :: nameSuffixes[j]).take (textStoreSize.toNat - 1)).modifyHead
        charToUppercase := by
  revert i j
  decide

theorem provided_saveNameBuffer (textStore : TextStore) (keyName : List Char) (i : Fin 9)
    (j : Fin 8) :
    ∃ provided : Provided, provided.cells = saveNameBuffer textStore keyName i j ∧
      provided.maxTextLength = textStoreSize := by
  have hsize : textStore.toList.length = 129 := Vector.length_toList
  have hroom : textStoreSize.toNat < textStore.toList.length := by
    rw [hsize]
    decide
  have hshort (text : List Char) : (text.take (textStoreSize.toNat - 1)).length ≤
      textStoreSize.toNat := (List.length_take_le _ _).trans (Nat.sub_le _ _)
  unfold saveNameBuffer
  split
  · obtain ⟨hnul, hupper⟩ := nul_notMem_randomName i j
    refine ⟨⟨_, textStoreSize, _, ?_, (holds_printText hnul).modifyHead (by simp [textStoreSize])
      hupper, ?_⟩, rfl, rfl⟩
    · rw [List.length_modifyHead, length_printText hroom]
      exact hroom
    · rw [List.length_modifyHead]
      exact hshort _
  · refine ⟨⟨_, textStoreSize, _, ?_, holds_printText nul_notMem_contents, hshort _⟩, rfl, rfl⟩
    rw [length_printText hroom]
    exact hroom

end SaveName

section Rename

/-- A dynamic string: its array, and its length, up to which it is copied. -/
structure DynString where
  array : List Char
  size : ℕ

/-- How the string library makes room in an array: there are at least as many cells as needed. -/
structure Growth where
  grow : List Char → ℕ → List Char
  needed_le : ∀ array needed, needed ≤ (grow array needed).length

def stringSet (growth : Growth) (v1 v2 : DynString) : DynString where
  array := v2.array.take (v2.size + 1) ++ (growth.grow v1.array (v2.size + 1)).drop (v2.size + 1)
  size := v2.size

/-- The string that `"%0*d\n"` prints; the library may give it more cells than needed. -/
def printedName (spare : List Char) : DynString :=
  ⟨initialName ++ nul :: spare, initialName.length⟩

/-- The string into whose array the name of an entry is read. -/
def readName (name : DynString) : ReadResult → DynString
  | .noDir _ _ => name
  | .readdir _ info =>
    { name with array := store nul name.array (strlcpy (contents nul info.fname) maxNameLen) }

/-- The name of a file in the list: an entry that was read, after other reads, copied to the item
and with the item to the array. -/
def listedName (growth : Growth) (item slot : DynString) (spare : List Char)
    (reads : List ReadResult) (entry : SDFileInfo) : DynString :=
  stringSet growth slot (stringSet growth item
    (readName (reads.foldl readName (printedName spare)) (.readdir .ok entry)))

/-- The string that `archive_enter_text_input` copies the selected name to, by the browser's. -/
def renameBuffer (growth : Growth) (browserName textInputBuffer name : DynString) : DynString :=
  stringSet growth textInputBuffer (stringSet growth browserName name)

/-- As long as the printed name, whatever was read into it. -/
structure Roomy (name : DynString) : Prop where
  size : name.size = 256
  array : 256 < name.array.length

structure RoomyName (name : DynString) : Prop extends Roomy name where
  holds : ∃ text, Holds nul name.array text ∧ text.length < maxNameLen

variable {growth : Growth} {name name' : DynString} {r : ReadResult} {spare : List Char}

theorem length_initialName : initialName.length = 256 := by
  rw [initialName, List.length_append, List.length_replicate]
  rfl

theorem roomy_printedName : Roomy (printedName spare) where
  size := length_initialName
  array := by
    simp only [printedName, List.length_append, List.length_cons, length_initialName]
    omega

theorem length_strlcpy (text : List Char) : (strlcpy text maxNameLen).length < maxNameLen := by
  simp only [strlcpy, maxNameLen, List.length_take]
  omega

theorem Roomy.readName (h : Roomy name) (r : ReadResult) : Roomy (readName name r) := by
  cases r with
  | noDir error hne => exact h
  | readdir error info =>
    have hlength := length_strlcpy (contents nul info.fname)
    have harray := h.array
    refine ⟨h.size, ?_⟩
    simp only [TextInput.readName]
    rw [length_store (hlength.trans (by simp only [maxNameLen]; omega))]
    exact harray

theorem Roomy.reads (h : Roomy name) (reads : List ReadResult) :
    Roomy (reads.foldl TextInput.readName name) := by
  induction reads generalizing name with
  | nil => exact h
  | cons r reads ih => exact ih (h.readName r)

theorem Roomy.entry (h : Roomy name) (entry : SDFileInfo) :
    RoomyName (TextInput.readName name (.readdir .ok entry)) :=
  ⟨h.readName _, _, holds_store fun hmem => nul_notMem_contents (List.mem_of_mem_take hmem),
    length_strlcpy _⟩

theorem RoomyName.stringSet (h : RoomyName name) :
    RoomyName (stringSet growth name' name) := by
  have hsize := h.size
  have harray := h.array
  obtain ⟨text, hholds, hlength⟩ := h.holds
  refine ⟨⟨h.size, ?_⟩, text, hholds.copy ?_, hlength⟩
  · simp only [TextInput.stringSet, List.length_append, List.length_take]
    omega
  · simp only [maxNameLen] at hlength
    omega

theorem provided_renameBuffer (growth : Growth) (item slot browserName textInputBuffer : DynString)
    (spare : List Char) (reads : List ReadResult) (entry : SDFileInfo) :
    ∃ provided : Provided, provided.cells = (renameBuffer growth browserName textInputBuffer
        (listedName growth item slot spare reads entry)).array ∧
      provided.maxTextLength.toNat = maxNameLen := by
  have hname : RoomyName (renameBuffer growth browserName textInputBuffer
      (listedName growth item slot spare reads entry)) :=
    ((roomy_printedName.reads reads).entry entry).stringSet.stringSet.stringSet.stringSet
  obtain ⟨text, hholds, hlength⟩ := hname.holds
  have hroom : (255 : UInt8).toNat < 256 := by decide
  exact ⟨⟨_, 255, text, hroom.trans hname.array, hholds, hlength.le⟩, rfl, rfl⟩

end Rename

/-- However the text input was used before, a buffer with one character more than its limit holds
after any keys the text that a bounded editor makes of its text, and is not written beyond; the
callers provide such buffers. -/
theorem text_input_edits (history : List Session) (s : Session) :
    (∃ model cursor model' cells,
      history.foldlM TextInputModel.session textInputAlloc = some model ∧ model.At cursor ∧
      model.session s = some model' ∧ model'.text = some cells ∧
      let limit := s.provided.maxTextLength.toNat
      let editor := Editor.presses limit ⟨s.provided.text, cursor⟩ s.events
      model'.At editor.cursor ∧ model'.getSelectedChar = some editor.cursor.key ∧
        Holds nul cells editor.text ∧ editor.text.length ≤ limit ∧
        AgreesFrom (limit + 1) s.provided.cells cells) ∧
    (∀ textStore keyName i j, ∃ provided : Provided,
      provided.cells = saveNameBuffer textStore keyName i j ∧
        provided.maxTextLength = textStoreSize) ∧
    ∀ growth item slot browserName textInputBuffer spare reads entry, ∃ provided : Provided,
      provided.cells = (renameBuffer growth browserName textInputBuffer
        (listedName growth item slot spare reads entry)).array ∧
      provided.maxTextLength.toNat = maxNameLen := by
  refine ⟨?_, provided_saveNameBuffer, provided_renameBuffer⟩
  obtain ⟨model, cursor, hhistory, hat⟩ := TextInputModel.at_textInputAlloc.sessions history
  obtain ⟨model', hinputs, hlimit, hrepresents⟩ :=
    (hat.enter s.callback s.provided).inputs s.events
  obtain ⟨cells, htext, hholds, hagrees⟩ := hrepresents.bounded.cells
  have hlength := hrepresents.bounded.length
  rw [hlimit] at hagrees hlength
  exact ⟨model, cursor, model', cells, hhistory, hat, hinputs, htext, hrepresents.selected,
    hrepresents.selected.getSelectedChar, hholds, hlength, hagrees⟩

end FlipperZero.Gui.TextInput
