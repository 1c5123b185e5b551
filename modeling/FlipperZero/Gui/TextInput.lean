import FlipperZero.Gui.ViewDispatcher
import FlipperZero.Lib.CBuffer
import Mathlib.Algebra.GroupWithZero.Nat
import Mathlib.Data.Fin.Basic

/-! # The text input

A view in which the string of a buffer is edited on a keyboard of three rows, the lower the
shorter. A read of a key that the keyboard does not have, of a string without an end or through
the null pointer, and a write outside the buffer, are `none`.
-/

namespace FlipperZero.Gui.TextInput

open Lib CBuffer Input

def nul : Char := Char.ofNat 0
def keyboardRowCount : ℕ := 3
def enterKey : Char := '\r'
def backspaceKey : Char := Char.ofNat 8

def keyboardKeysRow1 : List Char :=
  ['q', 'w', 'e', 'r', 't', 'y', 'u', 'i', 'o', 'p', '7', '8', '9', '_']

def keyboardKeysRow2 : List Char :=
  ['a', 's', 'd', 'f', 'g', 'h', 'j', 'k', 'l', '4', '5', '6', backspaceKey]

def keyboardKeysRow3 : List Char :=
  ['z', 'x', 'c', 'v', 'b', 'n', 'm', '0', '1', '2', '3', enterKey]

def getRowSize (rowIndex : UInt8) : UInt8 :=
  match rowIndex.toNat + 1 with
  | 1 => .ofNat keyboardKeysRow1.length
  | 2 => .ofNat keyboardKeysRow2.length
  | 3 => .ofNat keyboardKeysRow3.length
  | _ => 0

def getRow (rowIndex : UInt8) : Option (List Char) :=
  match rowIndex.toNat + 1 with
  | 1 => some keyboardKeysRow1
  | 2 => some keyboardKeysRow2
  | 3 => some keyboardKeysRow3
  | _ => none

def charIsLowercase (letter : Char) : Bool := 0x61 ≤ letter.toNat && letter.toNat ≤ 0x7A

def charToUppercase (letter : Char) : Char := Char.ofNat (letter.toNat - 0x20)

structure TextInputModel where
  /-- The buffer of the caller. -/
  text : Option (List Char)
  maxTextLength : UInt8
  /-- Whether there is a callback for the text. -/
  callback : Bool
  selectedRow : UInt8
  selectedColumn : UInt8
deriving DecidableEq, Repr

/-- The model after `text_input_alloc`. -/
def textInputAlloc : TextInputModel := ⟨none, 0, false, 0, 0⟩

namespace TextInputModel

variable (model : TextInputModel)

def setResultCallback (callback : Bool) (text : Option (List Char)) (maxTextLength : UInt8) :
    TextInputModel :=
  { model with callback, text, maxTextLength }

def getSelectedChar : Option Char :=
  (getRow model.selectedRow).bind fun row => row[model.selectedColumn.toNat]?

def handleUp : TextInputModel :=
  if 0 < model.selectedRow then { model with selectedRow := model.selectedRow - 1 } else model

def handleDown : TextInputModel :=
  if (model.selectedRow.toNat : ℤ) < keyboardRowCount - 1 then
    let selectedRow := model.selectedRow + 1
    { model with
      selectedRow
      selectedColumn :=
        if ((getRowSize selectedRow).toNat : ℤ) - 1 < model.selectedColumn.toNat then
          getRowSize selectedRow - 1
        else model.selectedColumn }
  else model

def handleLeft : TextInputModel :=
  { model with
    selectedColumn :=
      if 0 < model.selectedColumn then model.selectedColumn - 1
      else getRowSize model.selectedRow - 1 }

def handleRight : TextInputModel :=
  { model with
    selectedColumn :=
      if (model.selectedColumn.toNat : ℤ) < (getRowSize model.selectedRow).toNat - 1 then
        model.selectedColumn + 1
      else 0 }

/-- The model after OK, with the text that the callback is called with. -/
def handleOk : Option (TextInputModel × Option (List Char)) :=
  model.getSelectedChar.bind fun selected =>
    model.text.bind fun text =>
      (strlen nul text).bind fun length =>
        let textLength : UInt8 := .ofNat length
        if selected = enterKey then
          some (model, if model.callback then some (text.take length) else none)
        else if selected = backspaceKey then
          if 0 < textLength then
            (put text (textLength - 1).toNat nul).map fun text =>
              ({ model with text := some text }, none)
          else some (model, none)
        else if textLength < model.maxTextLength then
          let selected :=
            if textLength = 0 ∧ charIsLowercase selected then charToUppercase selected else selected
          ((put text textLength.toNat selected).bind fun text =>
            put text (textLength.toNat + 1) nul).map fun text =>
              ({ model with text := some text }, none)
        else some (model, none)

def inputCallback (event : InputEvent) : Option (TextInputModel × Option (List Char)) :=
  if event.type = .short ∨ event.type = .repeated then
    match event.key with
    | .up => some (model.handleUp, none)
    | .down => some (model.handleDown, none)
    | .left => some (model.handleLeft, none)
    | .right => some (model.handleRight, none)
    | .ok => model.handleOk
    | .back => some (model, none)
  else some (model, none)

def inputs (events : List InputEvent) : Option TextInputModel :=
  events.foldlM (fun model event => (model.inputCallback event).map Prod.fst) model

end TextInputModel

local instance neZero_rows : NeZero 3 := ⟨by decide⟩

def keyboard : Fin 3 → List Char
  | 0 => keyboardKeysRow1
  | 1 => keyboardKeysRow2
  | 2 => keyboardKeysRow3

structure Cursor where
  row : Fin 3
  column : Fin (keyboard row).length

theorem keyboard_length_pos (row : Fin 3) : 0 < (keyboard row).length := by
  revert row
  decide

namespace Cursor

variable (cursor : Cursor)

def key : Char := (keyboard cursor.row)[cursor.column]

def nearest (row : Fin 3) (column : ℕ) : Cursor :=
  ⟨row, min column ((keyboard row).length - 1), by have := keyboard_length_pos row; omega⟩

def up : Cursor := if cursor.row = 0 then cursor else nearest (cursor.row - 1) cursor.column

def down : Cursor := if cursor.row = 2 then cursor else nearest (cursor.row + 1) cursor.column

/-- The key so many places to the right, around the row. -/
def around (n : ℕ) : Cursor :=
  ⟨cursor.row, (cursor.column + n) % (keyboard cursor.row).length,
    Nat.mod_lt _ (keyboard_length_pos cursor.row)⟩

def right : Cursor := cursor.around 1

def left : Cursor := cursor.around ((keyboard cursor.row).length - 1)

end Cursor

def edit (limit : ℕ) (text : List Char) (key : Char) : List Char :=
  if key = enterKey then text
  else if key = backspaceKey then text.dropLast
  else if text.length < limit then text ++ [if text = [] then key.toUpper else key]
  else text

structure Editor where
  text : List Char
  cursor : Cursor

namespace Editor

variable (limit : ℕ) (editor : Editor)

def press (event : InputEvent) : Editor :=
  if event.type = .short ∨ event.type = .repeated then
    match event.key with
    | .up => { editor with cursor := editor.cursor.up }
    | .down => { editor with cursor := editor.cursor.down }
    | .left => { editor with cursor := editor.cursor.left }
    | .right => { editor with cursor := editor.cursor.right }
    | .ok => { editor with text := edit limit editor.text editor.cursor.key }
    | .back => editor
  else editor

def presses (events : List InputEvent) : Editor := events.foldl (press limit) editor

end Editor

variable {model : TextInputModel} {cursor : Cursor} {editor : Editor}
variable {buffer cells text : List Char} {row : UInt8} {r : Fin 3} {c : Char}

theorem keyboard_length_le (r : Fin 3) : (keyboard r).length ≤ 14 := by
  revert r
  decide

theorem getRow_eq (h : row.toNat = r) : getRow row = some (keyboard r) := by
  rw [getRow, h]
  clear h
  revert r
  decide

theorem toNat_getRowSize (h : row.toNat = r) :
    (getRowSize row).toNat = (keyboard r).length := by
  rw [getRowSize, h]
  clear h
  revert r
  decide

theorem keyboard_length_up (h : r ≠ 0) : (keyboard r).length ≤ (keyboard (r - 1)).length := by
  revert r
  decide

theorem val_sub_one (h : r ≠ 0) : (r - 1).val + 1 = r.val := by
  revert r
  decide

theorem val_add_one (h : r ≠ 2) : (r + 1).val = r.val + 1 := by
  revert r
  decide

namespace Cursor

theorem mem_key : cursor.key ∈ keyboard cursor.row := List.getElem_mem _

theorem key_ne_nul : cursor.key ≠ nul ∧ cursor.key.toUpper ≠ nul := by
  have hall : ∀ r, (keyboard r).all (fun c => c ≠ nul ∧ c.toUpper ≠ nul) = true := by decide
  simpa using List.all_eq_true.mp (hall _) _ mem_key

theorem toUpper_key :
    cursor.key.toUpper =
      if charIsLowercase cursor.key then charToUppercase cursor.key else cursor.key := by
  have hall : ∀ r, (keyboard r).all (fun c =>
      c.toUpper = if charIsLowercase c then charToUppercase c else c) = true := by decide
  simpa using List.all_eq_true.mp (hall _) _ mem_key

end Cursor

namespace TextInputModel

/-- The selected row and column denote the key of the cursor. -/
structure At (model : TextInputModel) (cursor : Cursor) : Prop where
  row : model.selectedRow.toNat = cursor.row
  column : model.selectedColumn.toNat = cursor.column

theorem At.getSelectedChar (h : model.At cursor) : model.getSelectedChar = some cursor.key := by
  rw [TextInputModel.getSelectedChar, getRow_eq h.row, Option.bind_some, h.column]
  exact List.getElem?_eq_getElem cursor.column.isLt

theorem At.handleUp (h : model.At cursor) : model.handleUp.At cursor.up := by
  have hcolumn := h.column
  have hlt := cursor.column.isLt
  unfold TextInputModel.handleUp Cursor.up
  by_cases hrow : cursor.row = 0
  · have hzero : model.selectedRow.toNat = 0 := by rw [h.row, hrow]; rfl
    rw [if_pos hrow, if_neg (by rw [UInt8.lt_iff_toNat_lt, hzero]; exact lt_irrefl 0)]
    exact h
  · have hpred := val_sub_one hrow
    have hpos : 0 < model.selectedRow := by
      rw [UInt8.lt_iff_toNat_lt, h.row, UInt8.toNat_zero]
      omega
    have hlength := keyboard_length_up hrow
    have hsub := toNat_sub_one_add_one hpos
    rw [if_neg hrow, if_pos hpos]
    constructor
    · have hrow := h.row
      show (model.selectedRow - 1).toNat = (cursor.row - 1).val
      omega
    · show model.selectedColumn.toNat = min cursor.column.val _
      omega

theorem At.handleDown (h : model.At cursor) : model.handleDown.At cursor.down := by
  have hcolumn := h.column
  have hlt := cursor.column.isLt
  have hrow := h.row
  unfold TextInputModel.handleDown Cursor.down
  by_cases hlast : cursor.row = 2
  · have htwo : model.selectedRow.toNat = 2 := by rw [h.row, hlast]; rfl
    rw [if_pos hlast, if_neg (by rw [htwo]; simp [keyboardRowCount])]
    exact h
  · have hnext := val_add_one hlast
    have hval := cursor.row.isLt
    have hlow : (model.selectedRow.toNat : ℤ) < keyboardRowCount - 1 := by
      simp only [keyboardRowCount]
      omega
    have hadd : (model.selectedRow + 1).toNat = (cursor.row + 1).val := by
      rw [UInt8.toNat_add, UInt8.toNat_one]
      omega
    have hsize := toNat_getRowSize hadd
    have hpos := keyboard_length_pos (cursor.row + 1)
    have hsub := toNat_sub_one_add_one (b := getRowSize (model.selectedRow + 1))
      (by rw [UInt8.lt_iff_toNat_lt, hsize]; exact hpos)
    rw [if_neg hlast, if_pos hlow]
    constructor
    · exact hadd
    · simp only [Cursor.nearest]
      split <;> omega

theorem At.handleLeft (h : model.At cursor) : model.handleLeft.At cursor.left := by
  have hcolumn := h.column
  have hlt := cursor.column.isLt
  have hsize := toNat_getRowSize h.row
  refine ⟨h.row, ?_⟩
  simp only [TextInputModel.handleLeft, Cursor.left, Cursor.around]
  split
  · next hpos =>
    have hsub := toNat_sub_one_add_one hpos
    have hadd : cursor.column.val + ((keyboard cursor.row).length - 1) =
        cursor.column.val - 1 + (keyboard cursor.row).length := by omega
    rw [hadd, Nat.add_mod_right, Nat.mod_eq_of_lt (by omega)]
    omega
  · next hzero =>
    rw [UInt8.lt_iff_toNat_lt, UInt8.toNat_zero] at hzero
    have hsub := toNat_sub_one_add_one (b := getRowSize model.selectedRow)
      (by rw [UInt8.lt_iff_toNat_lt, hsize]; exact keyboard_length_pos _)
    rw [Nat.mod_eq_of_lt (by omega)]
    omega

theorem At.handleRight (h : model.At cursor) : model.handleRight.At cursor.right := by
  have hcolumn := h.column
  have hlt := cursor.column.isLt
  have hsize := toNat_getRowSize h.row
  have hle := keyboard_length_le cursor.row
  refine ⟨h.row, ?_⟩
  simp only [TextInputModel.handleRight, Cursor.right, Cursor.around]
  split
  · next hin =>
    rw [UInt8.toNat_add, UInt8.toNat_one, Nat.mod_eq_of_lt (b := (keyboard _).length) (by omega)]
    omega
  · next hlast =>
    have hend : cursor.column.val + 1 = (keyboard cursor.row).length := by omega
    rw [hend, Nat.mod_self]
    exact UInt8.toNat_zero

/-- The buffer holds the text, and agrees beyond its limit with the one that was given. -/
structure Bounded (buffer : List Char) (model : TextInputModel) (text : List Char) : Prop where
  cells : ∃ cells, model.text = some cells ∧ Holds nul cells text ∧
    AgreesFrom (model.maxTextLength.toNat + 1) buffer cells
  length : text.length ≤ model.maxTextLength.toNat
  room : model.maxTextLength.toNat < buffer.length

structure Represents (buffer : List Char) (model : TextInputModel) (editor : Editor) : Prop where
  selected : model.At editor.cursor
  bounded : model.Bounded buffer editor.text

theorem Bounded.erase (h : model.Bounded buffer text) (hpos : 0 < text.length) :
    ∃ cells, (model.text.bind fun cells => put cells (text.length - 1) nul) = some cells ∧
      { model with text := some cells }.Bounded buffer text.dropLast := by
  obtain ⟨cells, htext, hholds, hagrees⟩ := h.cells
  have hlength := h.length
  have hroom := h.room
  have hcells := hagrees.length
  refine ⟨cells.set (text.length - 1) nul, ?_, ⟨_, rfl, hholds.dropLast, ?_⟩, ?_, hroom⟩
  · rw [htext, Option.bind_some, put_eq_some (by omega)]
  · exact hagrees.trans (agreesFrom_set (by omega))
  · simp only [List.length_dropLast]
    omega

theorem Bounded.append (h : model.Bounded buffer text) (hc : c ≠ nul)
    (hshort : text.length < model.maxTextLength.toNat) :
    ∃ cells, (model.text.bind fun cells => (put cells text.length c).bind fun cells =>
        put cells (text.length + 1) nul) = some cells ∧
      { model with text := some cells }.Bounded buffer (text ++ [c]) := by
  obtain ⟨cells, htext, hholds, hagrees⟩ := h.cells
  have hroom := h.room
  have hcells := hagrees.length
  have hset : AgreesFrom (model.maxTextLength.toNat + 1) cells (cells.set text.length c) :=
    agreesFrom_set (by omega)
  refine ⟨(cells.set text.length c).set (text.length + 1) nul, ?_,
    ⟨_, rfl, hholds.append hc (by omega), ?_⟩, ?_, hroom⟩
  · rw [htext, Option.bind_some, put_eq_some (by omega), Option.bind_some,
      put_eq_some (by rw [List.length_set]; omega)]
  · exact (hagrees.trans hset).trans (agreesFrom_set (by omega))
  · simp only [List.length_append, List.length_singleton]
    omega

theorem handleOk_eq (h : Represents buffer model editor) :
    model.handleOk =
      if editor.cursor.key = enterKey then
        some (model, if model.callback then some editor.text else none)
      else if editor.cursor.key = backspaceKey then
        if 0 < editor.text.length then
          (model.text.bind fun cells => put cells (editor.text.length - 1) nul).map fun text =>
            ({ model with text := some text }, none)
        else some (model, none)
      else if editor.text.length < model.maxTextLength.toNat then
        (model.text.bind fun cells => (put cells editor.text.length
            (if editor.text = [] then editor.cursor.key.toUpper else editor.cursor.key)).bind
          fun cells => put cells (editor.text.length + 1) nul).map fun text =>
            ({ model with text := some text }, none)
      else some (model, none) := by
  obtain ⟨cells, htext, hholds, hagrees⟩ := h.bounded.cells
  have hlength := h.bounded.length
  have hlimit := model.maxTextLength.toNat_lt
  have htextLength : (UInt8.ofNat editor.text.length).toNat = editor.text.length := by
    rw [UInt8.toNat_ofNat', Nat.mod_eq_of_lt (by omega)]
  have hpos : 0 < UInt8.ofNat editor.text.length ↔ 0 < editor.text.length := by
    rw [UInt8.lt_iff_toNat_lt, htextLength, UInt8.toNat_zero]
  have hfull : UInt8.ofNat editor.text.length < model.maxTextLength ↔
      editor.text.length < model.maxTextLength.toNat := by
    rw [UInt8.lt_iff_toNat_lt, htextLength]
  have hempty : UInt8.ofNat editor.text.length = 0 ↔ editor.text = [] := by
    rw [← UInt8.toNat_inj, htextLength, UInt8.toNat_zero, List.length_eq_zero_iff]
  have hselected : (if editor.text = [] ∧ charIsLowercase editor.cursor.key then
      charToUppercase editor.cursor.key else editor.cursor.key) =
      if editor.text = [] then editor.cursor.key.toUpper else editor.cursor.key := by
    rw [Cursor.toUpper_key, ite_and]
  unfold TextInputModel.handleOk
  simp only [h.selected.getSelectedChar, htext, hholds.strlen_eq, hholds.take_eq,
    Option.bind_some, hpos, hfull, hempty, hselected, htextLength]
  by_cases hsome : 0 < editor.text.length
  · have hpred := toNat_sub_one_add_one (hpos.mpr hsome)
    have hindex : (UInt8.ofNat editor.text.length - 1).toNat = editor.text.length - 1 := by omega
    rw [hindex]
  · simp only [if_neg hsome]

theorem Represents.handleOk (h : Represents buffer model editor) :
    ∃ result, model.handleOk = some result ∧
      result.1.maxTextLength = model.maxTextLength ∧
      result.1.Represents buffer { editor with
        text := edit model.maxTextLength.toNat editor.text editor.cursor.key } := by
  rw [handleOk_eq h]
  unfold edit
  split
  · exact ⟨_, rfl, rfl, h⟩
  split
  · split
    · next hpos =>
      obtain ⟨cells, hput, hbounded⟩ := h.bounded.erase hpos
      rw [hput]
      exact ⟨_, rfl, rfl, ⟨h.selected.row, h.selected.column⟩, hbounded⟩
    · next hnone =>
      have hnil : editor.text = [] := List.length_eq_zero_iff.mp (by omega)
      have hbounded := h.bounded
      rw [hnil] at hbounded ⊢
      exact ⟨_, rfl, rfl, h.selected, hbounded⟩
  split
  · next hshort =>
    have hne : (if editor.text = [] then editor.cursor.key.toUpper else editor.cursor.key) ≠
        nul := by
      split
      · exact Cursor.key_ne_nul.2
      · exact Cursor.key_ne_nul.1
    obtain ⟨cells, hput, hbounded⟩ := h.bounded.append hne hshort
    rw [hput]
    exact ⟨_, rfl, rfl, ⟨h.selected.row, h.selected.column⟩, hbounded⟩
  · exact ⟨_, rfl, rfl, h⟩

theorem Represents.move {handle : TextInputModel → TextInputModel} {cursor : Cursor}
    (h : Represents buffer model editor) (hat : (handle model).At cursor)
    (hrest : (handle model).text = model.text ∧
      (handle model).maxTextLength = model.maxTextLength) :
    ∃ result, some (handle model, (none : Option (List Char))) = some result ∧
      result.1.maxTextLength = model.maxTextLength ∧
      result.1.Represents buffer { editor with cursor } := by
  refine ⟨_, rfl, hrest.2, hat, ?_, ?_, ?_⟩
  · simp only [hrest]
    exact h.bounded.cells
  · simp only [hrest]
    exact h.bounded.length
  · simp only [hrest]
    exact h.bounded.room

theorem Represents.inputCallback (h : Represents buffer model editor) (event : InputEvent) :
    ∃ result, model.inputCallback event = some result ∧
      result.1.maxTextLength = model.maxTextLength ∧
      result.1.Represents buffer (editor.press model.maxTextLength.toNat event) := by
  obtain ⟨key, type⟩ := event
  unfold TextInputModel.inputCallback Editor.press
  split
  · cases key with
    | up =>
      apply h.move h.selected.handleUp
      unfold TextInputModel.handleUp
      split <;> exact ⟨rfl, rfl⟩
    | down =>
      apply h.move h.selected.handleDown
      unfold TextInputModel.handleDown
      split <;> exact ⟨rfl, rfl⟩
    | left => exact h.move h.selected.handleLeft ⟨rfl, rfl⟩
    | right => exact h.move h.selected.handleRight ⟨rfl, rfl⟩
    | ok => exact h.handleOk
    | back => exact ⟨_, rfl, rfl, h⟩
  · exact ⟨_, rfl, rfl, h⟩

theorem Represents.inputs (h : Represents buffer model editor) (events : List InputEvent) :
    ∃ model', model.inputs events = some model' ∧
      model'.maxTextLength = model.maxTextLength ∧
      model'.Represents buffer (editor.presses model.maxTextLength.toNat events) := by
  induction events generalizing model editor with
  | nil => exact ⟨model, rfl, rfl, h⟩
  | cons event events ih =>
    obtain ⟨result, hresult, hlimit, hnext⟩ := h.inputCallback event
    obtain ⟨model', hinputs, hlimit', hlast⟩ := ih hnext
    rw [hlimit] at hlimit' hlast
    refine ⟨model', ?_, hlimit', hlast⟩
    rw [TextInputModel.inputs, List.foldlM_cons, hresult]
    exact hinputs

end TextInputModel

end FlipperZero.Gui.TextInput
