import FlipperZero.Gui.ViewDispatcher
import Mathlib.Algebra.Group.Nat.Defs

/-! # The byte input

A view in which the bytes of an array are edited on a keyboard of two rows. Digits are entered
into the halves of the selected byte; a window of eight bytes follows the selection. An access
outside the array, or to a key that the keyboard does not have, is `none`.
-/

namespace FlipperZero.Gui

open Input

structure ByteInputModel where
  /-- The array of the caller. -/
  bytes : List UInt8
  bytesCount : UInt8
  selectedHighNibble : Bool
  selectedByte : UInt8
  /-- Row -1 is the input, rows 0 and 1 are the keyboard. -/
  selectedRow : Int8
  selectedColumn : UInt8
  firstVisibleByte : UInt8
deriving DecidableEq

inductive ByteInputCallback where
  | input
  | changed
deriving DecidableEq, Repr

def keyboardRowCount : ℕ := 2
def enterSymbol : Char := '\r'
def backspaceSymbol : Char := Char.ofNat 8
def maxDrawableBytes : ℕ := 8

def keyboardKeysRow1 : List Char := ['0', '1', '2', '3', '4', '5', '6', '7', backspaceSymbol]
def keyboardKeysRow2 : List Char := ['8', '9', 'A', 'B', 'C', 'D', 'E', 'F', enterSymbol]

/-- A key row; the index has been converted to a byte. -/
def byteInputGetRow (rowIndex : UInt8) : Option (List Char) :=
  match rowIndex.toNat + 1 with
  | 1 => some keyboardKeysRow1
  | 2 => some keyboardKeysRow2
  | _ => none

def byteInputGetRowSize (rowIndex : UInt8) : UInt8 :=
  match rowIndex.toNat + 1 with
  | 1 => .ofNat keyboardKeysRow1.length
  | 2 => .ofNat keyboardKeysRow2.length
  | _ => 0

/-- What `byte_input_set_nibble` makes of a character. -/
def nibbleValue (value : Char) : UInt8 :=
  if '0' ≤ value ∧ value ≤ '9' then .ofNat (value.toNat - '0'.toNat)
  else if 'A' ≤ value ∧ value ≤ 'F' then .ofNat (value.toNat - 'A'.toNat + 10)
  else 0

def replaceNibble (byte nibble : UInt8) (highNibble : Bool) : UInt8 :=
  if highNibble then byte &&& (0x0F : UInt8) ||| nibble <<< (4 : UInt8)
  else byte &&& (0xF0 : UInt8) ||| nibble

def byteInputSetNibble (data : List UInt8) (position : UInt8) (value : Char) (highNibble : Bool) :
    Option (List UInt8) :=
  data[position.toNat]?.map fun byte =>
    data.set position.toNat (replaceNibble byte (nibbleValue value) highNibble)

namespace ByteInputModel

variable (model : ByteInputModel)

def keyboardSelected : Prop := 0 ≤ model.selectedRow

instance : Decidable model.keyboardSelected := inferInstanceAs (Decidable (0 ≤ model.selectedRow))

/-- The row index as the functions for key rows take it. -/
def rowIndex : UInt8 := model.selectedRow.toUInt8

def transitionFromKeyboard : ByteInputModel :=
  { model with selectedRow := model.selectedRow + 1, selectedHighNibble := true }

def incSelectedByte : ByteInputModel :=
  if (model.selectedByte.toNat : ℤ) < model.bytesCount.toNat - 1 then
    let selectedByte := model.selectedByte + 1
    { model with
      selectedByte
      firstVisibleByte :=
        if maxDrawableBytes < model.bytesCount.toNat ∧
            (maxDrawableBytes : ℤ) - 2 < selectedByte.toNat - model.firstVisibleByte.toNat ∧
            (model.firstVisibleByte.toNat : ℤ) < model.bytesCount.toNat - maxDrawableBytes then
          model.firstVisibleByte + 1
        else model.firstVisibleByte }
  else model

def decSelectedByte : ByteInputModel :=
  if 0 < model.selectedByte then
    let selectedByte := model.selectedByte - 1
    { model with
      selectedByte
      firstVisibleByte :=
        if (selectedByte.toNat : ℤ) - model.firstVisibleByte.toNat < 1 ∧
            0 < model.firstVisibleByte then
          model.firstVisibleByte - 1
        else model.firstVisibleByte }
  else model

def handleUp : ByteInputModel :=
  if -1 < model.selectedRow then { model with selectedRow := model.selectedRow - 1 } else model

def handleDown : ByteInputModel :=
  if model.keyboardSelected then
    if model.selectedRow.toInt < keyboardRowCount - 1 then
      { model with selectedRow := model.selectedRow + 1 }
    else model
  else model.transitionFromKeyboard

def handleLeft : ByteInputModel :=
  if model.keyboardSelected then
    { model with
      selectedColumn :=
        if 0 < model.selectedColumn then model.selectedColumn - 1
        else byteInputGetRowSize model.rowIndex - 1 }
  else model.decSelectedByte

def handleRight : ByteInputModel :=
  if model.keyboardSelected then
    { model with
      selectedColumn :=
        if (model.selectedColumn.toNat : ℤ) < (byteInputGetRowSize model.rowIndex).toNat - 1 then
          model.selectedColumn + 1
        else 0 }
  else model.incSelectedByte

def selectedKey : Option Char :=
  (byteInputGetRow model.rowIndex).bind fun row => row[model.selectedColumn.toNat]?

/-- OK on a key of the keyboard, with the callback that is called where it is set. -/
def pressKey (value : Char) : Option (ByteInputModel × Option ByteInputCallback) :=
  if value = enterSymbol then some (model, some .input)
  else
    if value = backspaceSymbol then
      if model.selectedByte.toNat < model.bytes.length then
        let cleared := { model with
          bytes := model.bytes.set model.selectedByte.toNat 0
          selectedHighNibble := true }
        some (cleared.decSelectedByte, some .changed)
      else none
    else
      (byteInputSetNibble model.bytes model.selectedByte value model.selectedHighNibble).map
        fun bytes =>
          let written := { model with bytes }
          if model.selectedHighNibble then
            ({ written with selectedHighNibble := false }, some .changed)
          else ({ written.incSelectedByte with selectedHighNibble := true }, some .changed)

def handleOk : Option (ByteInputModel × Option ByteInputCallback) :=
  if model.keyboardSelected then model.selectedKey.bind model.pressKey
  else some (model.transitionFromKeyboard, none)

def inputCallback (event : InputEvent) : Option (ByteInputModel × Option ByteInputCallback) :=
  if event.type = .short ∨ event.type = .repeated then
    match event.key with
    | .left => some (model.handleLeft, none)
    | .right => some (model.handleRight, none)
    | .up => some (model.handleUp, none)
    | .down => some (model.handleDown, none)
    | .ok => model.handleOk
    | .back => some (model, none)
  else some (model, none)

def inputs (events : List InputEvent) : Option ByteInputModel :=
  events.foldlM (fun model event => (model.inputCallback event).map Prod.fst) model

/-- The model after `byte_input_set_result_callback`. -/
def setResultCallback (bytes : List UInt8) (bytesCount : UInt8) : ByteInputModel where
  bytes := bytes
  bytesCount := bytesCount
  selectedHighNibble := true
  selectedByte := 0
  selectedRow := 0
  selectedColumn := 0
  firstVisibleByte := 0

/-- The selection is in the array and in the window, the window in the array, and the cursor on
the keyboard or at the input. -/
structure Placed (n : ℕ) : Prop where
  length : model.bytes.length = n
  bytesCount : model.bytesCount.toNat = n
  selectedByte : model.selectedByte.toNat < n
  shown : model.firstVisibleByte.toNat ≤ model.selectedByte.toNat ∧
    model.selectedByte.toNat ≤ model.firstVisibleByte.toNat + 7
  firstVisibleByte : model.firstVisibleByte.toNat ≤ n - 8
  selectedRow : model.selectedRow = -1 ∨ model.selectedRow = 0 ∨ model.selectedRow = 1
  selectedColumn : model.selectedColumn.toNat < 9

variable {model} {n : ℕ} {event : InputEvent}

theorem placed_setResultCallback {bytes : List UInt8} {bytesCount : UInt8}
    (hlength : bytes.length = bytesCount.toNat) (hcount : 0 < bytesCount) :
    (setResultCallback bytes bytesCount).Placed bytesCount.toNat where
  length := hlength
  bytesCount := rfl
  selectedByte := UInt8.lt_iff_toNat_lt.mp hcount
  shown := ⟨Nat.le_refl 0, Nat.zero_le 7⟩
  firstVisibleByte := Nat.zero_le _
  selectedRow := .inr (.inl rfl)
  selectedColumn := Nat.zero_lt_succ 8

theorem Placed.incSelectedByte (h : model.Placed n) : model.incSelectedByte.Placed n := by
  have hcount := h.bytesCount
  have hshown := h.shown
  have hfirst := h.firstVisibleByte
  have hbyte := model.bytesCount.toNat_lt
  unfold ByteInputModel.incSelectedByte
  split
  · next hlast =>
    have hselected : (model.selectedByte + 1).toNat = model.selectedByte.toNat + 1 := by
      rw [UInt8.toNat_add, UInt8.toNat_one]
      omega
    simp only [maxDrawableBytes, hselected]
    split
    · next hscroll =>
      have hnext : (model.firstVisibleByte + 1).toNat = model.firstVisibleByte.toNat + 1 := by
        rw [UInt8.toNat_add, UInt8.toNat_one]
        omega
      refine { h with selectedByte := ?_, shown := ?_, firstVisibleByte := ?_ }
      · simp only [hselected]
        omega
      · simp only [hselected, hnext]
        omega
      · simp only [hnext]
        omega
    · next hscroll =>
      refine { h with selectedByte := ?_, shown := ?_ }
      · simp only [hselected]
        omega
      · simp only [hselected]
        omega
  · exact h

theorem Placed.decSelectedByte (h : model.Placed n) : model.decSelectedByte.Placed n := by
  have hselected := h.selectedByte
  have hshown := h.shown
  have hfirst := h.firstVisibleByte
  unfold ByteInputModel.decSelectedByte
  split
  · next hpos =>
    have hpred := toNat_sub_one_add_one hpos
    simp only
    split
    · next hscroll =>
      have hfirstPred := toNat_sub_one_add_one hscroll.2
      refine { h with selectedByte := ?_, shown := ?_, firstVisibleByte := ?_ }
      · simp only
        omega
      · simp only
        omega
      · simp only
        omega
    · next hscroll =>
      rw [UInt8.lt_iff_toNat_lt, UInt8.toNat_zero] at hscroll
      refine { h with selectedByte := ?_, shown := ?_ }
      · simp only
        omega
      · simp only
        omega
  · exact h

theorem Placed.keyboard (h : model.Placed n) (hselected : model.keyboardSelected) :
    model.selectedRow = 0 ∨ model.selectedRow = 1 := by
  rcases h.selectedRow with hrow | hrow
  · unfold keyboardSelected at hselected
    rw [hrow] at hselected
    exact absurd hselected (by decide)
  · exact hrow

theorem Placed.input (h : model.Placed n) (hselected : ¬model.keyboardSelected) :
    model.selectedRow = -1 := by
  rcases h.selectedRow with hrow | hrow | hrow
  · exact hrow
  · unfold keyboardSelected at hselected
    rw [hrow] at hselected
    exact absurd (by decide) hselected
  · unfold keyboardSelected at hselected
    rw [hrow] at hselected
    exact absurd (by decide) hselected

theorem Placed.getRowSize (h : model.Placed n) (hselected : model.keyboardSelected) :
    byteInputGetRowSize model.rowIndex = 9 := by
  unfold rowIndex
  rcases h.keyboard hselected with hrow | hrow
  · rw [hrow]
    rfl
  · rw [hrow]
    rfl

theorem Placed.transitionFromKeyboard (h : model.Placed n) (hselected : ¬model.keyboardSelected) :
    model.transitionFromKeyboard.Placed n := by
  refine { h with selectedRow := .inr (.inl ?_) }
  change model.selectedRow + 1 = 0
  rw [h.input hselected]
  rfl

theorem Placed.handleUp (h : model.Placed n) : model.handleUp.Placed n := by
  unfold ByteInputModel.handleUp
  split
  · next hrow =>
    refine { h with selectedRow := ?_ }
    rcases h.selectedRow with hrow' | hrow' | hrow'
    · rw [hrow'] at hrow
      exact absurd hrow (by decide)
    · simp only [hrow']
      decide
    · simp only [hrow']
      decide
  · exact h

theorem Placed.handleDown (h : model.Placed n) : model.handleDown.Placed n := by
  unfold ByteInputModel.handleDown
  split
  · next hselected =>
    split
    · next hlast =>
      refine { h with selectedRow := ?_ }
      rcases h.keyboard hselected with hrow | hrow
      · simp only [hrow]
        decide
      · rw [hrow] at hlast
        exact absurd hlast (by decide)
    · exact h
  · next hselected => exact h.transitionFromKeyboard hselected

theorem Placed.handleLeft (h : model.Placed n) : model.handleLeft.Placed n := by
  unfold ByteInputModel.handleLeft
  split
  · next hselected =>
    refine { h with selectedColumn := ?_ }
    simp only [h.getRowSize hselected]
    split
    · next hpos =>
      have hpred := toNat_sub_one_add_one hpos
      have hcolumn := h.selectedColumn
      omega
    · decide
  · exact h.decSelectedByte

theorem Placed.handleRight (h : model.Placed n) : model.handleRight.Placed n := by
  unfold ByteInputModel.handleRight
  split
  · next hselected =>
    refine { h with selectedColumn := ?_ }
    simp only [h.getRowSize hselected]
    split
    · next hlast =>
      have hnine : (9 : UInt8).toNat = 9 := rfl
      rw [UInt8.toNat_add, UInt8.toNat_one]
      omega
    · decide
  · exact h.incSelectedByte

theorem Placed.exists_key (h : model.Placed n) (hselected : model.keyboardSelected) :
    ∃ value, model.selectedKey = some value := by
  have hcolumn := h.selectedColumn
  unfold selectedKey rowIndex
  rcases h.keyboard hselected with hrow | hrow
  · rw [hrow]
    exact ⟨_, List.getElem?_eq_getElem (by exact hcolumn)⟩
  · rw [hrow]
    exact ⟨_, List.getElem?_eq_getElem (by exact hcolumn)⟩

theorem Placed.pressKey (h : model.Placed n) (value : Char) :
    ∃ result, model.pressKey value = some result ∧ result.1.Placed n := by
  have hinside : model.selectedByte.toNat < model.bytes.length := by
    rw [h.length]
    exact h.selectedByte
  unfold ByteInputModel.pressKey
  split
  · exact ⟨_, rfl, h⟩
  · split
    · refine ⟨_, rfl, Placed.decSelectedByte { h with length := ?_ }⟩
      rw [List.length_set, h.length]
    · rw [byteInputSetNibble, List.getElem?_eq_getElem hinside, Option.map_some, Option.map_some]
      refine ⟨_, rfl, ?_⟩
      have hwritten (byte : UInt8) : ByteInputModel.Placed
          { model with bytes := model.bytes.set model.selectedByte.toNat byte } n :=
        { h with length := by rw [List.length_set, h.length] }
      split
      · exact { hwritten _ with }
      · exact { (hwritten _).incSelectedByte with }

theorem Placed.inputCallback (h : model.Placed n) (event : InputEvent) :
    ∃ result, model.inputCallback event = some result ∧ result.1.Placed n := by
  unfold ByteInputModel.inputCallback
  split
  · cases event.key with
    | up => exact ⟨_, rfl, h.handleUp⟩
    | down => exact ⟨_, rfl, h.handleDown⟩
    | right => exact ⟨_, rfl, h.handleRight⟩
    | left => exact ⟨_, rfl, h.handleLeft⟩
    | back => exact ⟨_, rfl, h⟩
    | ok =>
      simp only [handleOk]
      split
      · next hselected =>
        obtain ⟨value, hvalue⟩ := h.exists_key hselected
        rw [hvalue]
        exact h.pressKey value
      · next hselected => exact ⟨_, rfl, h.transitionFromKeyboard hselected⟩
  · exact ⟨_, rfl, h⟩

theorem inputs_cons {events : List InputEvent} {result : ByteInputModel × Option ByteInputCallback}
    (h : model.inputCallback event = some result) :
    model.inputs (event :: events) = result.1.inputs events := by
  rw [inputs, List.foldlM_cons, h]
  rfl

theorem Placed.inputs (h : model.Placed n) (events : List InputEvent) :
    ∃ model', model.inputs events = some model' ∧ model'.Placed n := by
  induction events generalizing model with
  | nil => exact ⟨model, rfl, h⟩
  | cons event events ih =>
    obtain ⟨result, hresult, hplaced⟩ := h.inputCallback event
    rw [inputs_cons hresult]
    exact ih hplaced

end ByteInputModel

end FlipperZero.Gui
