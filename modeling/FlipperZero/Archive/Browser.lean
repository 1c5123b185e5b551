import FlipperZero.Archive.Filenames
import FlipperZero.Gui.ViewDispatcher
import Mathlib.Algebra.GroupWithZero.Nat

/-! # The archive browser

One list of files is shown at a time, with a selected file and a window of four rows. The path of
the list grows and shrinks as directories are entered and left; a stack of fixed size keeps the
selection in each directory above.
-/

namespace FlipperZero.Archive

open Lib Gui Input

def maxDepth : ℕ := 32
def menuItems : ℕ := 4
def archiveTabTotal : ℕ := 7

/-- The files that `archive_get_filenames` leaves in its array: they fit into memory, and no name
contains a separator. -/
structure Listing where
  files : List ArchiveFile
  size_lt : files.length < 2 ^ 32
  slash_notMem : ∀ file ∈ files, '/' ∉ file.name

structure ArchiveBrowser where
  tabId : ℕ
  name : List Char
  path : List Char
  depth : ℕ
  lastIdx : ℕ → UInt16
  menu : Bool

structure ArchiveViewModel where
  menuIdx : ℕ
  idx : UInt16
  listOffset : UInt16
  files : Listing
  menu : Bool

structure ArchiveApp where
  browser : ArchiveBrowser
  model : ArchiveViewModel
  /-- The view of the text input is shown. -/
  textInput : Bool
  /-- The indices at which `last_idx` was read or written. -/
  lastIdxUses : List ℕ
  /-- The indices at which a file was accessed, each with the size of the array. -/
  gets : List (ℕ × ℕ)
  /-- The paths from which a directory was entered, the latest first. -/
  entered : List (List Char)
  /-- The paths at which the application was left. -/
  exits : List (List Char)

def tabDefaultPaths : ℕ → List Char
  | 0 => "favourites".toList
  | 1 => "ibutton".toList
  | 2 => "nfc".toList
  | 3 => "subone".toList
  | 4 => "lfrfid".toList
  | 5 => "irda".toList
  | 6 => "/".toList
  | _ => []

/-- `CLAMP(x, upper, 0)` with a signed `x` and a `size_t`. -/
def clamp (x : ℤ) (upper : ℕ) : ℕ := min upper x.toNat

/-- Subtraction of a `size_t`. -/
def sizeSub (n k : ℕ) : ℕ := (n + (2 ^ 32 - k)) % 2 ^ 32

theorem sizeSub_of_le {n k : ℕ} (h : k ≤ n) (hn : n < 2 ^ 32) : sizeSub n k = n - k := by
  unfold sizeSub
  omega

theorem sizeSub_of_lt {n k : ℕ} (h : n < k) (hk : k ≤ 2 ^ 32) : sizeSub n k = 2 ^ 32 - (k - n) := by
  unfold sizeSub
  omega

theorem toNat_ofNat_clamp {x : ℤ} {upper : ℕ} (h : x.toNat < 2 ^ 16) :
    (UInt16.ofNat (clamp x upper)).toNat = clamp x upper := by
  apply UInt16.toNat_ofNat_of_lt'
  exact Nat.lt_of_le_of_lt (Nat.min_le_right _ _) h

/-- The offset that `update_offset` leaves. -/
def nextOffset (offset idx size : ℕ) : ℕ :=
  if size < 4 then
    if offset + size < idx then offset + 1
    else if idx < offset + size then 0
    else offset
  else if offset + 2 < idx then min (size - 4) (offset + 1)
  else if idx < offset + 2 then min (size - 2) (idx - 1)
  else offset

namespace ArchiveViewModel

variable (model : ArchiveViewModel)

def size : ℕ := model.files.files.length

def updateOffset : ArchiveViewModel :=
  let bounds := if model.size > 3 then 2 else model.size
  if (model.listOffset.toNat : ℤ) < model.idx.toNat - bounds then
    { model with
      listOffset := .ofNat (clamp (model.listOffset.toNat + 1) (sizeSub model.size (bounds + 2))) }
  else if (model.listOffset.toNat : ℤ) > model.idx.toNat - bounds then
    { model with listOffset := .ofNat (clamp (model.idx.toNat - 1) (sizeSub model.size bounds)) }
  else model

theorem updateOffset_eq :
    ∃ offset, model.updateOffset = { model with listOffset := offset } ∧
      offset.toNat = nextOffset model.listOffset.toNat model.idx.toNat model.size := by
  have hsize : model.size < 2 ^ 32 := model.files.size_lt
  have hidx := model.idx.toNat_lt
  have hoffset := model.listOffset.toNat_lt
  have hup {k : ℕ} (h : (model.listOffset.toNat : ℤ) < model.idx.toNat - k) :
      (UInt16.ofNat (clamp (model.listOffset.toNat + 1) (sizeSub model.size (k + 2)))).toNat =
        min (sizeSub model.size (k + 2)) (model.listOffset.toNat + 1) := by
    rw [toNat_ofNat_clamp (by omega)]
    rfl
  have hdown {k : ℕ} : (UInt16.ofNat (clamp (model.idx.toNat - 1) (sizeSub model.size k))).toNat =
      min (sizeSub model.size k) (model.idx.toNat - 1) := by
    rw [toNat_ofNat_clamp (by omega), clamp]
    apply congrArg (min _)
    omega
  unfold updateOffset
  by_cases hlarge : model.size > 3
  · rw [if_pos hlarge]
    dsimp only
    split
    · next h =>
      refine ⟨_, rfl, ?_⟩
      rw [hup h, sizeSub_of_le (by omega) hsize, nextOffset, if_neg (by omega), if_pos (by omega)]
    · split
      · refine ⟨_, rfl, ?_⟩
        rw [hdown, sizeSub_of_le (by omega) hsize, nextOffset, if_neg (by omega),
          if_neg (by omega), if_pos (by omega)]
      · refine ⟨_, rfl, ?_⟩
        rw [nextOffset, if_neg (by omega), if_neg (by omega), if_neg (by omega)]
  · rw [if_neg hlarge]
    dsimp only
    split
    · next h =>
      refine ⟨_, rfl, ?_⟩
      rw [hup h, sizeSub_of_lt (by omega) (by omega), nextOffset, if_pos (by omega),
        if_pos (by omega)]
      omega
    · split
      · refine ⟨_, rfl, ?_⟩
        rw [hdown, sizeSub_of_le le_rfl hsize, nextOffset, if_pos (by omega), if_neg (by omega),
          if_pos (by omega)]
        omega
      · refine ⟨_, rfl, ?_⟩
        rw [nextOffset, if_pos (by omega), if_neg (by omega), if_neg (by omega)]

theorem idx_updateOffset : model.updateOffset.idx = model.idx := by
  obtain ⟨offset, heq, -⟩ := model.updateOffset_eq
  rw [heq]

theorem files_updateOffset : model.updateOffset.files = model.files := by
  obtain ⟨offset, heq, -⟩ := model.updateOffset_eq
  rw [heq]

theorem size_updateOffset : model.updateOffset.size = model.size := by
  obtain ⟨offset, heq, -⟩ := model.updateOffset_eq
  rw [heq]
  rfl

theorem listOffset_updateOffset : model.updateOffset.listOffset.toNat =
    nextOffset model.listOffset.toNat model.idx.toNat model.size := by
  obtain ⟨offset, heq, hoffset⟩ := model.updateOffset_eq
  rw [heq]
  exact hoffset

/-- The indices of the accesses to the files when the view is drawn. -/
def drawn : List ℕ :=
  if model.size > 0 then
    ((List.range (min menuItems model.size)).map fun i =>
      min (sizeSub model.size 1) (min model.size (i + model.listOffset.toNat))) ++
        if model.menu then [model.idx.toNat] else []
  else []

end ArchiveViewModel

namespace ArchiveApp

variable (app : ArchiveApp) (listing : Listing)

/-- Past its end `last_idx` is followed by the flag of the menu. -/
def updateLastIdx : ArchiveApp :=
  let idx := clamp app.model.idx.toNat (sizeSub app.model.size 1)
  { app with
    browser :=
      if app.browser.depth < maxDepth then
        { app.browser with
          lastIdx := Function.update app.browser.lastIdx app.browser.depth (.ofNat idx) }
      else { app.browser with menu := decide (idx % 2 ^ 8 ≠ 0) }
    model := { app.model with idx := 0 }
    lastIdxUses := app.lastIdxUses ++ [app.browser.depth] }

def getFilenames : ArchiveApp := { app with model := { app.model with files := listing } }

def switchDir (path : List Char) : ArchiveApp :=
  { app with browser := { app.browser with path := path } }.getFilenames listing

def switchTab : ArchiveApp :=
  let app := { app with
    browser := { app.browser with depth := 0 }
    model := { app.model with idx := 0 }
    entered := [] }
  let app := app.switchDir listing (tabDefaultPaths app.browser.tabId)
  { app with model := app.model.updateOffset }

def cutLast (path : List Char) : List Char :=
  if '/' ∈ path then ((path.reverse.dropWhile (· ≠ '/')).drop 1).reverse else path

def leaveDir : ArchiveApp :=
  let depth := clamp (app.browser.depth - 1) maxDepth
  let app := { app with
    browser := { app.browser with depth := depth }
    model := { app.model with idx := app.browser.lastIdx depth }
    lastIdxUses := app.lastIdxUses ++ [depth]
    entered := app.entered.tail }
  let app := app.switchDir listing (cutLast app.browser.path)
  { app with model := app.model.updateOffset }

def enterDir : ArchiveApp :=
  let path := app.browser.path
  let app := app.updateLastIdx
  let app := { app with
    browser := { app.browser with depth := clamp (app.browser.depth + 1) maxDepth }
    entered := path :: app.entered }
  let app := app.switchDir listing (path ++ '/' :: app.browser.name)
  { app with model := app.model.updateOffset }

def showFileMenu : ArchiveApp :=
  { app with
    browser := { app.browser with menu := true }
    model := { app.model with menu := true, menuIdx := 0 } }

def closeFileMenu : ArchiveApp :=
  { app with
    browser := { app.browser with menu := false }
    model := { app.model with menu := false, menuIdx := 0 } }

def deleteFile : ArchiveApp :=
  let app := app.getFilenames listing
  let model := app.model.updateOffset
  { app with model := { model with idx := .ofNat (clamp model.idx.toNat (sizeSub model.size 1)) } }

/-- Access a file; a failed access ends the handler. -/
def get : ArchiveApp × Option ArchiveFile :=
  ({ app with gets := app.gets ++ [(app.model.idx.toNat, app.model.size)] },
    app.model.files.files[app.model.idx.toNat]?)

def fileMenuCallback : ArchiveApp :=
  match app.get with
  | (app, none) => app
  | (app, some selected) =>
    match app.model.menuIdx with
    | 0 => app
    | 1 => { app with browser := { app.browser with name := selected.name } }.closeFileMenu
    | 2 => { app with textInput := true }
    | 3 => (app.deleteFile listing).closeFileMenu
    | _ => app.closeFileMenu

def menuInputHandler (event : InputEvent) : ArchiveApp :=
  if event.type = .short then
    match event.key with
    | .up => { app with model := { app.model with
        menuIdx := clamp (app.model.menuIdx - 1) (menuItems - 1) } }
    | .down => { app with model := { app.model with
        menuIdx := clamp (app.model.menuIdx + 1) (menuItems - 1) } }
    | .ok => app.fileMenuCallback listing
    | .back => app.closeFileMenu
    | .left | .right => app
  else app

def setIdx (x : ℤ) : ArchiveApp :=
  let model := { app.model with idx := .ofNat (clamp x (sizeSub app.model.size 1)) }
  { app with model := model.updateOffset }

def okInput (type : InputType) : ArchiveApp :=
  if app.model.size > 0 then
    match app.get with
    | (app, none) => app
    | (app, some selected) =>
      let app := { app with browser := { app.browser with name := selected.name } }
      if selected.type = .folder then
        match type with
        | .short => app.enterDir listing
        | .long => app.showFileMenu
        | .press | .release | .repeated => app
      else if type = .short then app.showFileMenu
      else app
  else app

def viewInput (event : InputEvent) : ArchiveApp :=
  if app.browser.menu then app.menuInputHandler listing event
  else
    match event.key, event.type with
    | .left, .short =>
      { app with browser := { app.browser with
          tabId := clamp (app.browser.tabId - 1) archiveTabTotal } }.switchTab listing
    | .right, .short =>
      { app with browser := { app.browser with
          tabId := clamp (app.browser.tabId + 1) (archiveTabTotal - 1) } }.switchTab listing
    | .back, .short =>
      if app.browser.depth = 0 then { app with exits := app.exits ++ [app.browser.path] }
      else app.leaveDir listing
    | .up, .short | .up, .repeated => app.setIdx (app.model.idx.toNat - 1)
    | .down, .short | .down, .repeated => app.setIdx (app.model.idx.toNat + 1)
    | .ok, type => app.okInput listing type
    | _, _ => app

/-- The callback of the text input, after the file is renamed. -/
def textInputCallback : ArchiveApp := { app with textInput := false }.getFilenames listing

inductive Label where
  | input (event : InputEvent) (listing : Listing)
  | renamed (listing : Listing)
  | previous

def alloc : ArchiveApp where
  browser :=
    { tabId := 0
      name := []
      path := []
      depth := 0
      lastIdx _ := 0
      menu := false }
  model :=
    { menuIdx := 0
      idx := 0
      listOffset := 0
      files := ⟨[], by decide, by simp⟩
      menu := false }
  textInput := false
  lastIdxUses := []
  gets := []
  entered := []
  exits := []

/-- The application from where it has shown its first tab. -/
def machine (listing : Listing) : Machine ArchiveApp Label where
  init := alloc.switchTab listing
  next app
    | .input event listing => if app.textInput then none else some (app.viewInput listing event)
    | .renamed listing => if app.textInput then some (app.textInputCallback listing) else none
    | .previous => if app.textInput then some { app with textInput := false } else none

end ArchiveApp

end FlipperZero.Archive
