import FlipperZero.Gui.FileSelect
import FlipperZero.Gui.ViewDispatcher
import FlipperZero.SdFilesystem.DirContent
import Mathlib.Algebra.Group.Nat.Defs

/-! # Moving in the list of files

The view shows a window of four lines of the matching files and a position in it. Up and Down
move the position or the window, and wrap at the ends of the list; the lines are then read from
the card again.
-/

namespace FlipperZero.Gui

open SdFilesystem Input

structure FileSelect where
  extension : List Char
  initCompleted : Bool
  /-- What the buffer for the result holds, when there is one. -/
  buffer : Option (List Char)
  bufferSize : UInt8
  model : FileSelectModel

/-- Whether the input was consumed, and the results that the callback was called with. -/
structure InputOutcome where
  consumed : Bool
  fileSelect : FileSelect
  results : List Bool

section Moves

def FileSelectModel.up (model : FileSelectModel) : FileSelectModel :=
  if model.position = 0 then
    if model.firstFileIndex = 0 then
      let maxFirstFileIndex : Int16 := .ofInt (model.fileCount.toNat - 4)
      { model with
        position := .ofInt (min 3 (model.fileCount.toNat - 1))
        firstFileIndex := if maxFirstFileIndex < 0 then 0 else maxFirstFileIndex.toUInt16 }
    else { model with firstFileIndex := model.firstFileIndex - 1 }
  else if model.position = 1 then
    if model.firstFileIndex = 0 then { model with position := model.position - 1 }
    else { model with firstFileIndex := model.firstFileIndex - 1 }
  else { model with position := model.position - 1 }

def FileSelectModel.down (model : FileSelectModel) : FileSelectModel :=
  let maxFirstFileIndex : UInt16 :=
    if filenameCount < model.fileCount.toNat then model.fileCount - 4 else 0
  if min 3 ((model.fileCount.toNat : ℤ) - 1) ≤ model.position.toNat then
    if maxFirstFileIndex ≤ model.firstFileIndex then
      { model with position := 0, firstFileIndex := 0 }
    else { model with firstFileIndex := model.firstFileIndex + 1 }
  else if 2 ≤ model.position then
    if maxFirstFileIndex ≤ model.firstFileIndex then
      { model with position := model.position + 1 }
    else { model with firstFileIndex := model.firstFileIndex + 1 }
  else { model with position := model.position + 1 }

end Moves

/-- Fill the lines of a new model, and call the callback when that fails. -/
def FileSelect.refill (fileSelect : FileSelect) (model : FileSelectModel) (input : ListingInput)
    (fuel : ℕ) : Option InputOutcome :=
  (fileSelectFillStrings fileSelect.extension model input fuel).map fun o =>
    ⟨true, { fileSelect with model := o.model }, if o.result = some false then [false] else []⟩

def fileSelectInitInner (fileSelect : FileSelect) (input : ListingInput) (fuel : ℕ) :
    Option (Bool × FileSelect) :=
  (fileSelectFillCount fileSelect.extension fileSelect.model input fuel).bind fun o =>
    if o.result = some true then
      (fileSelectFillStrings fileSelect.extension o.model input fuel).map fun o =>
        if o.result = some true then
          (true, { fileSelect with model := o.model, initCompleted := true })
        else (false, { fileSelect with model := o.model })
    else some (false, { fileSelect with model := o.model })

/-- The result buffer after `strlcpy`, which writes nothing where the buffer has no room. -/
def FileSelect.copy (fileSelect : FileSelect) (text name : List Char) : List Char :=
  if fileSelect.bufferSize = 0 then text else strlcpy name fileSelect.bufferSize.toNat

/-- The callback copies the line at the position when there is a buffer; there are four lines. -/
def FileSelect.choose (fileSelect : FileSelect) : Option InputOutcome :=
  match fileSelect.buffer with
  | none => some ⟨true, fileSelect, [true]⟩
  | some text =>
    if h : fileSelect.model.position.toNat < filenameCount then
      let name := fileSelect.model.filename ⟨fileSelect.model.position.toNat, h⟩
      some ⟨true, { fileSelect with buffer := some (fileSelect.copy text name) }, [true]⟩
    else none

def fileSelectInputCallback (event : InputEvent) (fileSelect : FileSelect) (input : ListingInput)
    (fuel : ℕ) : Option InputOutcome :=
  if event.type = .short then
    if !fileSelect.initCompleted then
      (fileSelectInitInner fileSelect input fuel).map fun r =>
        ⟨false, r.2, if r.1 then [] else [false]⟩
    else
      match event.key with
      | .up => fileSelect.refill fileSelect.model.up input fuel
      | .down => fileSelect.refill fileSelect.model.down input fuel
      | .ok => fileSelect.choose
      | _ => some ⟨false, fileSelect, []⟩
  else some ⟨false, fileSelect, []⟩

section Opening

def fileSelectAlloc (extension : List Char) (bufferSize : UInt8) : FileSelect :=
  ⟨extension, false, some [], bufferSize, ⟨fun _ => [], 0, 0, 0⟩⟩

def fileSelectSetSelectedFile (fileSelect : FileSelect) (filename : List Char)
    (input : ListingInput) (fuel : ℕ) : Option FileSelect :=
  (fileSelectSetSelectedFileInternal fileSelect.extension filename fileSelect.model input fuel).bind
    fun o => (fileSelect.refill o.model input fuel).map InputOutcome.fileSelect

/-- What the application does for a request; there is no list when its init fails. -/
def fileSelectRequest (extension : List Char) (bufferSize : UInt8) (selected : Option (List Char))
    (input : ListingInput) (fuel : ℕ) : Option FileSelect :=
  (fileSelectInitInner (fileSelectAlloc extension bufferSize) input fuel).bind fun r =>
    if r.1 then
      match selected with
      | none => some r.2
      | some filename => fileSelectSetSelectedFile r.2 filename input fuel
    else none

end Opening

section Window

def FileSelectModel.Inside (model : FileSelectModel) : Prop :=
  model.firstFileIndex.toNat ≤ model.fileCount.toNat - 4

def FileSelectModel.OnLine (model : FileSelectModel) : Prop :=
  model.fileCount.toNat ≠ 0 → model.position.toNat < min 4 model.fileCount.toNat

variable {model : FileSelectModel}

theorem toNat_ofInt_position {count : ℕ} (hcount : count ≠ 0) :
    (UInt8.ofInt (min 3 ((count : ℤ) - 1))).toNat = min 3 (count - 1) := by
  rw [UInt8.ofInt, UInt8.toNat_ofNat']
  omega

theorem toNat_wrap_le (count : ℕ) :
    (if Int16.ofInt ((count : ℤ) - 4) < 0 then (0 : UInt16)
      else (Int16.ofInt ((count : ℤ) - 4)).toUInt16).toNat ≤ count - 4 := by
  split
  · exact Nat.zero_le _
  · next h =>
    have hle : (0 : Int16) ≤ Int16.ofInt ((count : ℤ) - 4) := Int16.not_lt.mp h
    have hint := Int16.le_iff_toInt_le.mp hle
    rw [Int16.toNat_toUInt16_of_le hle, Int16.toNatClampNeg, Int16.toInt_ofInt]
    rw [Int16.toInt_ofInt] at hint
    simp only [Int16.size, Int16.toInt_zero, Int.bmod_def] at hint ⊢
    omega

theorem toNat_sub_one {index : UInt16} (h : index ≠ 0) : (index - 1).toNat + 1 = index.toNat := by
  have hne : index.toNat ≠ 0 := fun h' => h (UInt16.toNat_inj.mp h')
  have hlt := index.toNat_lt
  rw [UInt16.toNat_sub, UInt16.toNat_one]
  omega

theorem toNat_maxFirstFileIndex (count : UInt16) :
    (if filenameCount < count.toNat then count - 4 else 0 : UInt16).toNat = count.toNat - 4 := by
  have hlt := count.toNat_lt
  split
  · next h =>
    have hfour : (4 : UInt16).toNat = 4 := rfl
    rw [UInt16.toNat_sub, hfour]
    rw [filenameCount] at h
    omega
  · next h =>
    rw [filenameCount] at h
    rw [UInt16.toNat_zero]
    omega

/-- What Up does to the window and the position. -/
inductive FileSelectModel.Up (model : FileSelectModel) : FileSelectModel → Prop
  | wrap (position : UInt8) (firstFileIndex : UInt16) (hposition : model.position.toNat = 0)
      (hfirst : model.firstFileIndex.toNat = 0)
      (hlast : model.fileCount.toNat ≠ 0 → position.toNat = min 3 (model.fileCount.toNat - 1))
      (hempty : model.fileCount.toNat = 0 → position = model.position - 1)
      (hinside : firstFileIndex.toNat ≤ model.fileCount.toNat - 4) :
      Up model { model with position := position, firstFileIndex := firstFileIndex }
  | scroll (firstFileIndex : UInt16) (hposition : model.position.toNat ≤ 1)
      (hfirst : firstFileIndex.toNat + 1 = model.firstFileIndex.toNat) :
      Up model { model with firstFileIndex := firstFileIndex }
  | move (hmove : model.position.toNat = 1 → model.firstFileIndex.toNat = 0)
      (hposition : (model.position - 1).toNat + 1 = model.position.toNat) :
      Up model { model with position := model.position - 1 }

inductive FileSelectModel.Down (model : FileSelectModel) : FileSelectModel → Prop
  | wrap (hposition : model.fileCount.toNat ≤ model.position.toNat + 1 ∨ 3 ≤ model.position.toNat)
      (hfirst : model.fileCount.toNat - 4 ≤ model.firstFileIndex.toNat) :
      Down model { model with position := 0, firstFileIndex := 0 }
  | scroll (firstFileIndex : UInt16)
      (hposition : model.fileCount.toNat ≤ model.position.toNat + 1 ∨ 2 ≤ model.position.toNat)
      (hinside : model.firstFileIndex.toNat < model.fileCount.toNat - 4)
      (hfirst : firstFileIndex.toNat = model.firstFileIndex.toNat + 1) :
      Down model { model with firstFileIndex := firstFileIndex }
  | move (position : UInt8) (hlast : model.position.toNat + 1 < model.fileCount.toNat)
      (hmove : model.position.toNat < 2 ∨
        model.position.toNat = 2 ∧ model.fileCount.toNat - 4 ≤ model.firstFileIndex.toNat)
      (hposition : position.toNat = model.position.toNat + 1) :
      Down model { model with position := position }

theorem FileSelectModel.up_cases (model : FileSelectModel) : model.Up model.up := by
  unfold FileSelectModel.up
  split
  · next hposition =>
    split
    · next hfirst =>
      refine .wrap _ _ (congrArg UInt8.toNat hposition) (congrArg UInt16.toNat hfirst)
        (fun h => toNat_ofInt_position h) (fun h => ?_) (toNat_wrap_le _)
      rw [h, hposition]
      rfl
    · next hfirst => exact .scroll _ (by rw [hposition]; decide) (toNat_sub_one hfirst)
  · next hposition =>
    have hpos : 0 < model.position := UInt8.pos_iff_ne_zero.mpr hposition
    split
    · next hone =>
      split
      · next hfirst =>
        exact .move (fun _ => congrArg UInt16.toNat hfirst) (toNat_sub_one_add_one hpos)
      · next hfirst => exact .scroll _ (by rw [hone]; decide) (toNat_sub_one hfirst)
    · next hone =>
      exact .move (fun h => absurd (UInt8.toNat_inj.mp h) hone) (toNat_sub_one_add_one hpos)

theorem FileSelectModel.down_cases (model : FileSelectModel) : model.Down model.down := by
  have hlt := model.firstFileIndex.toNat_lt
  have hcount := model.fileCount.toNat_lt
  have hmax := toNat_maxFirstFileIndex model.fileCount
  have hscroll : model.firstFileIndex.toNat < model.fileCount.toNat - 4 →
      (model.firstFileIndex + 1).toNat = model.firstFileIndex.toNat + 1 := by
    intro h
    rw [UInt16.toNat_add, UInt16.toNat_one]
    omega
  have hmove : model.position.toNat ≤ 2 →
      (model.position + 1).toNat = model.position.toNat + 1 := by
    intro h
    rw [UInt8.toNat_add, UInt8.toNat_one]
    omega
  unfold FileSelectModel.down
  simp only [UInt16.le_iff_toNat_le, UInt8.le_iff_toNat_le, hmax]
  have htwo : (2 : UInt8).toNat = 2 := rfl
  split
  · next hposition =>
    split
    · next hfirst => exact .wrap (by omega) hfirst
    · next hfirst => exact .scroll _ (by omega) (by omega) (hscroll (by omega))
  · next hposition =>
    split
    · next hline =>
      rw [htwo] at hline
      split
      · next hfirst => exact .move _ (by omega) (by omega) (hmove (by omega))
      · next hfirst => exact .scroll _ (by omega) (by omega) (hscroll (by omega))
    · next hline =>
      rw [htwo] at hline
      exact .move _ (by omega) (by omega) (hmove (by omega))

namespace FileSelectModel

variable {model' : FileSelectModel}

/-- The window stays within the files and the position on the lines. -/
structure Keeps (model model' : FileSelectModel) : Prop where
  fileCount : model'.fileCount = model.fileCount
  inside : model.Inside → model'.Inside
  onLine : model.OnLine → model'.OnLine

theorem Up.keeps (h : model.Up model') : model.Keeps model' := by
  cases h with
  | wrap position firstFileIndex hposition hfirst hlast hempty hinside =>
    refine ⟨rfl, fun _ => hinside, fun _ hcount => ?_⟩
    have hline := hlast hcount
    simp only at hcount ⊢
    omega
  | scroll firstFileIndex hposition hfirst =>
    refine ⟨rfl, fun hinside => ?_, id⟩
    unfold Inside at hinside ⊢
    simp only
    omega
  | move hmove hposition =>
    refine ⟨rfl, id, fun hline hcount => ?_⟩
    have := hline hcount
    simp only
    omega

theorem Down.keeps (h : model.Down model') : model.Keeps model' := by
  cases h with
  | wrap hposition hfirst =>
    refine ⟨rfl, fun _ => Nat.zero_le _, fun _ hcount => ?_⟩
    simp only [UInt8.toNat_zero] at hcount ⊢
    omega
  | scroll firstFileIndex hposition hinside hfirst =>
    refine ⟨rfl, fun _ => ?_, id⟩
    unfold Inside
    simp only
    omega
  | move position hlast hmove hposition =>
    refine ⟨rfl, id, fun hline hcount => ?_⟩
    simp only
    omega

theorem Down.next (h : model.Down model') (hinside : model.Inside)
    (hnext : model.firstFileIndex.toNat + model.position.toNat + 1 < model.fileCount.toNat) :
    model'.firstFileIndex.toNat + model'.position.toNat =
      model.firstFileIndex.toNat + model.position.toNat + 1 := by
  unfold Inside at hinside
  cases h with
  | wrap hposition hfirst => omega
  | scroll firstFileIndex hposition hinside' hfirst =>
    simp only
    omega
  | move position hlast hmove hposition =>
    simp only
    omega

end FileSelectModel

end Window

end FlipperZero.Gui
