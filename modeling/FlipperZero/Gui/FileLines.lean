import FlipperZero.Gui.FileList

/-! # The lines of the list of files

The functions that list the directory, on a directory that is read without an error: the count
is that of the matching files, up to the width of its type, and the lines of a window are the
matching files from its first one on.
-/

namespace FlipperZero.Gui

open SdFilesystem

/-- The files that pass the filter, in the order of the directory. -/
def matching (extension : List Char) (entries : List SDFileInfo) : List SDFileInfo :=
  entries.filter fun entry =>
    filterFile extension entry.fileInfo (strlcpy entry.fname fileSelectNameLength)

def shownName (extension : List Char) (entry : SDFileInfo) : List Char :=
  displayName extension (strlcpy entry.fname fileSelectNameLength)

variable {extension : List Char} {entries : List SDFileInfo} {model : FileSelectModel}

theorem matching_cons (entry : SDFileInfo) (entries : List SDFileInfo) :
    matching extension (entry :: entries) =
      if filterFile extension entry.fileInfo (strlcpy entry.fname fileSelectNameLength) then
        entry :: matching extension entries
      else matching extension entries := List.filter_cons

theorem listEntries_fillCount (fileCounter : UInt16) :
    listEntries (fillCountStep extension) fileSelectNameLength entries fileCounter =
      (.stopped .ok, fileCounter + .ofNat (matching extension entries).length) := by
  induction entries generalizing fileCounter with
  | nil => simp [listEntries, matching]
  | cons entry entries ih =>
    rw [listEntries, matching_cons, fillCountStep]
    simp only [Bool.false_eq_true, if_false]
    rw [ih]
    split
    · rw [List.length_cons, UInt16.ofNat_add, UInt16.add_assoc, UInt16.add_comm 1]
      rfl
    · rfl

/-- The lines of the window are those of the files from an index on. -/
def Fills (extension : List Char) (files : List SDFileInfo) (first done : ℕ)
    (filename filename' : Fin filenameCount → List Char) : Prop :=
  ∀ i : Fin filenameCount, filename' i =
    if i.val < done then filename i
    else ((files[first + (i.val - done)]?).map (shownName extension)).getD (filename i)

theorem Fills.later {entry : SDFileInfo} {files : List SDFileInfo} {first done : ℕ}
    {filename filename' : Fin filenameCount → List Char} (hfirst : first ≠ 0) (hdone : done = 0)
    (h : Fills extension files (first - 1) done filename filename') :
    Fills extension (entry :: files) first done filename filename' := by
  intro i
  rw [h i, hdone, if_neg (Nat.not_lt_zero _), if_neg (Nat.not_lt_zero _)]
  obtain ⟨k, rfl⟩ := Nat.exists_eq_add_one_of_ne_zero hfirst
  have hindex : k + 1 + (i.val - 0) = k + (i.val - 0) + 1 := Nat.add_right_comm ..
  rw [Nat.add_sub_cancel, hindex, List.getElem?_cons_succ]

theorem Fills.put {entry : SDFileInfo} {files : List SDFileInfo} {s : FillStrings}
    {filename' : Fin filenameCount → List Char}
    (h : Fills extension files 0 (s.stringCounter + 1)
      (s.put (shownName extension entry)).model.filename filename') :
    Fills extension (entry :: files) 0 s.stringCounter s.model.filename filename' := by
  intro i
  rw [h i]
  simp only [FillStrings.put]
  rcases Nat.lt_trichotomy i.val s.stringCounter with hlt | heq | hgt
  · rw [if_pos (Nat.lt_succ_of_lt hlt), if_pos hlt, if_neg (Nat.ne_of_lt hlt)]
  · rw [if_pos (by omega), if_pos heq, if_neg (by omega), heq, Nat.sub_self]
    rfl
  · have hindex : 0 + (i.val - s.stringCounter) = 0 + (i.val - (s.stringCounter + 1)) + 1 := by
      omega
    rw [if_neg (by omega), if_neg (by omega), if_neg (by omega), hindex, List.getElem?_cons_succ]

theorem listEntries_fillStrings (extension : List Char) (entries : List SDFileInfo) (s : FillStrings)
    (hroom : s.model.firstFileIndex.toNat + filenameCount ≤ 2 ^ 16)
    (hstring : s.stringCounter < filenameCount)
    (hcounter : s.stringCounter = s.fileCounter.toNat - s.model.firstFileIndex.toNat) :
    ∃ exit filename, exit ≠ .failed ∧
      (listEntries (fillStringsStep extension) fileSelectNameLength entries s).1 = exit ∧
      (listEntries (fillStringsStep extension) fileSelectNameLength entries s).2.model =
        { s.model with filename := filename } ∧
      Fills extension (matching extension entries)
        (s.model.firstFileIndex.toNat - s.fileCounter.toNat) s.stringCounter
        s.model.filename filename := by
  induction entries generalizing s with
  | nil =>
    refine ⟨_, s.model.filename, by simp [listEntries], rfl, rfl, fun i => ?_⟩
    simp [matching]
  | cons entry entries ih =>
    have hnext : s.fileCounter.toNat < s.model.firstFileIndex.toNat + filenameCount →
        s.fileCounter.toNat + 1 < 2 ^ 16 →
        (s.fileCounter + 1).toNat = s.fileCounter.toNat + 1 := by
      intro _ hlt
      rw [UInt16.toNat_add, UInt16.toNat_one]
      exact Nat.mod_eq_of_lt hlt
    simp only [listEntries, matching_cons, fillStringsStep]
    split
    · split
      · next hreached =>
        have hle := UInt16.le_iff_toNat_le.mp hreached
        have hzero : s.model.firstFileIndex.toNat - s.fileCounter.toNat = 0 :=
          Nat.sub_eq_zero_of_le hle
        rw [hzero]
        split
        · next hfull =>
          simp only [if_true]
          refine ⟨_, (s.put (shownName extension entry)).model.filename, by simp, rfl, rfl, ?_⟩
          apply Fills.put
          intro i
          have hi := i.isLt
          have hfull : filenameCount ≤ s.stringCounter + 1 := hfull
          rw [if_pos (by omega)]
        · next hfull =>
          have hfull : ¬ filenameCount ≤ s.stringCounter + 1 := hfull
          have hfc := hnext (by omega) (by omega)
          obtain ⟨exit, filename, hexit, hleft, hmodel, hfills⟩ :=
            ih { s.put (shownName extension entry) with fileCounter := s.fileCounter + 1 }
              hroom (by simp only [FillStrings.put]; omega)
              (by simp only [FillStrings.put]; omega)
          refine ⟨exit, filename, hexit, hleft, hmodel, ?_⟩
          apply Fills.put
          have hzero' : s.model.firstFileIndex.toNat - (s.fileCounter + 1).toNat = 0 := by omega
          simpa only [FillStrings.put, hzero'] using hfills
      · next hreached =>
        have hlt : s.fileCounter.toNat < s.model.firstFileIndex.toNat :=
          Nat.lt_of_not_le fun h => hreached (UInt16.le_iff_toNat_le.mpr h)
        have hfc := hnext (by omega) (by omega)
        obtain ⟨exit, filename, hexit, hleft, hmodel, hfills⟩ :=
          ih { s with fileCounter := s.fileCounter + 1 } hroom hstring (by simp only; omega)
        refine ⟨exit, filename, hexit, hleft, hmodel, ?_⟩
        apply Fills.later (by omega) (by omega)
        simp only [hfc] at hfills
        exact Nat.sub_sub .. ▸ hfills
    · exact ih s hroom hstring hcounter

/-- Where a name that is to be selected stands among the matching files. -/
def selectedIndex (extension filename : List Char) (entries : List SDFileInfo) : Option ℕ :=
  (matching extension entries).findIdx? fun entry =>
    fullName extension filename = strlcpy entry.fname fileSelectNameLength

theorem listEntries_setSelectedFile (filename : List Char) (filePosition : UInt16) :
    listEntries (setSelectedFileStep extension (fullName extension filename)) fileSelectNameLength
        entries filePosition =
      match selectedIndex extension filename entries with
      | some index => (.found, filePosition + .ofNat index)
      | none => (.stopped .ok, filePosition + .ofNat (matching extension entries).length) := by
  induction entries generalizing filePosition with
  | nil => simp [listEntries, selectedIndex, matching]
  | cons entry entries ih =>
    simp only [listEntries, selectedIndex, matching_cons, setSelectedFileStep]
    split
    · rw [List.findIdx?_cons]
      split
      · next heq => simp [heq]
      · next heq =>
        simp only [heq, decide_false, Bool.false_eq_true, if_false]
        rw [ih, selectedIndex]
        cases List.findIdx? _ (matching extension entries) with
        | none =>
          simp only [Option.map_none, List.length_cons, UInt16.ofNat_add, UInt16.add_assoc,
            UInt16.add_comm 1]
          rfl
        | some index =>
          simp only [Option.map_some, UInt16.ofNat_add, UInt16.add_assoc, UInt16.add_comm 1]
          rfl
    · simp only [Bool.false_eq_true, if_false]
      exact ih filePosition

variable {content : DirContent} {fuel : ℕ}

theorem fileSelectFillCount_content (hfuel : content.entries.length < fuel) :
    fileSelectFillCount extension model content.input fuel =
      some ⟨some (.stopped .ok), some true,
        { model with fileCount := .ofNat (matching extension content.entries).length }⟩ := by
  rw [fileSelectFillCount, listDirectory_content content (by decide) hfuel, listEntries_fillCount]
  simp

theorem FileSelectModel.Inside.room (h : model.Inside) :
    model.firstFileIndex.toNat + filenameCount ≤ 2 ^ 16 := by
  have hlt := model.fileCount.toNat_lt
  unfold FileSelectModel.Inside at h
  rw [filenameCount]
  omega

def FileSelectModel.Filled (model : FileSelectModel) (extension : List Char)
    (files : List SDFileInfo) : Prop :=
  ∀ (i : Fin filenameCount) entry, files[model.firstFileIndex.toNat + i.val]? = some entry →
    model.filename i = shownName extension entry

theorem fileSelectFillStrings_content (extension : List Char)
    (hfuel : content.entries.length < fuel) (hinside : model.Inside) : ∃ exit filename,
      fileSelectFillStrings extension model content.input fuel =
        some ⟨some exit, some true, { model with filename := filename }⟩ ∧
      ({ model with filename := filename } : FileSelectModel).Filled extension
        (matching extension content.entries) := by
  obtain ⟨exit, filename, hexit, hleft, hmodel, hfills⟩ :=
    listEntries_fillStrings extension content.entries ⟨model, 0, 0⟩
      hinside.room (Nat.zero_lt_succ 3) (Nat.zero_sub _).symm
  refine ⟨exit, filename, ?_, ?_⟩
  · rw [fileSelectFillStrings, listDirectory_content content (by decide) hfuel, hleft, hmodel]
    cases exit with
    | failed => exact absurd rfl hexit
    | _ => rfl
  · intro i entry hentry
    have hline := hfills i
    simp only [Nat.not_lt_zero, if_false, Nat.sub_zero, UInt16.toNat_zero] at hline
    simp only at hentry ⊢
    rw [hline, hentry]
    rfl

/-- The list of a directory is on the screen. -/
structure FileSelect.Lists (fileSelect : FileSelect) (extension : List Char) (bufferSize : UInt8)
    (content : DirContent) : Prop where
  extension_eq : fileSelect.extension = extension
  initCompleted : fileSelect.initCompleted = true
  buffer : ∃ text, fileSelect.buffer = some text ∧ (fileSelect.bufferSize = 0 → text = [])
  bufferSize_eq : fileSelect.bufferSize = bufferSize
  fileCount : fileSelect.model.fileCount = .ofNat (matching extension content.entries).length
  inside : fileSelect.model.Inside
  filled : fileSelect.model.Filled extension (matching extension content.entries)

variable {fileSelect : FileSelect} {bufferSize : UInt8} {model' : FileSelectModel}

theorem FileSelect.Lists.refill (h : fileSelect.Lists extension bufferSize content)
    (hcount : model'.fileCount = fileSelect.model.fileCount) (hinside : model'.Inside)
    (hfuel : content.entries.length < fuel) : ∃ fileSelect' : FileSelect,
      fileSelect.refill model' content.input fuel = some ⟨true, fileSelect', []⟩ ∧
      fileSelect'.Lists extension bufferSize content ∧
      fileSelect'.model.position = model'.position ∧
      fileSelect'.model.firstFileIndex = model'.firstFileIndex := by
  obtain ⟨exit, filename, hfill, hfilled⟩ :=
    fileSelectFillStrings_content extension hfuel hinside
  refine ⟨{ fileSelect with model := { model' with filename := filename } }, ?_,
    ⟨h.extension_eq, h.initCompleted, h.buffer, h.bufferSize_eq, ?_, hinside, hfilled⟩, rfl, rfl⟩
  · rw [FileSelect.refill, h.extension_eq, hfill]
    rfl
  · exact hcount.trans h.fileCount

theorem fileSelectInitInner_content (extension : List Char) (bufferSize : UInt8)
    (hfuel : content.entries.length < fuel) :
    ∃ fileSelect : FileSelect,
      fileSelectInitInner (fileSelectAlloc extension bufferSize) content.input fuel =
        some (true, fileSelect) ∧
      fileSelect.Lists extension bufferSize content ∧
      fileSelect.model.position = 0 ∧ fileSelect.model.firstFileIndex = 0 := by
  have hinside : FileSelectModel.Inside
      ⟨fun _ => [], 0, 0, .ofNat (matching extension content.entries).length⟩ := Nat.zero_le _
  obtain ⟨exit, filename, hfill, hfilled⟩ :=
    fileSelectFillStrings_content extension hfuel hinside
  refine ⟨⟨extension, true, some [], bufferSize, ⟨filename, 0, 0, _⟩⟩, ?_,
    ⟨rfl, rfl, ⟨[], rfl, fun _ => rfl⟩, rfl, rfl, hinside, hfilled⟩, rfl, rfl⟩
  simp only [fileSelectInitInner, fileSelectAlloc, fileSelectFillCount_content hfuel, hfill,
    Option.bind_some, Option.map_some, if_true]
  rfl

section Select

variable (model) (filePosition : UInt16)

theorem toNat_select_firstFileIndex : (model.select filePosition).firstFileIndex.toNat =
    min (filePosition.toNat - 1) (model.fileCount.toNat - 4) := by
  have hmax := toNat_maxFirstFileIndex model.fileCount
  have hfirst : (if 0 < filePosition then filePosition - 1 else filePosition : UInt16).toNat =
      filePosition.toNat - 1 := by
    split
    · next h =>
      have := toNat_sub_one (UInt16.ne_of_lt h).symm
      omega
    · next h =>
      have hle := UInt16.le_iff_toNat_le.mp (UInt16.not_lt.mp h)
      rw [UInt16.toNat_zero] at hle
      omega
  simp only [FileSelectModel.select, UInt16.le_iff_toNat_le, hmax, hfirst]
  split
  · rw [hmax]
    omega
  · rw [hfirst]
    omega

theorem fileCount_select : (model.select filePosition).fileCount = model.fileCount := rfl

theorem inside_select : (model.select filePosition).Inside := by
  unfold FileSelectModel.Inside
  rw [toNat_select_firstFileIndex]
  exact Nat.min_le_right ..

theorem toNat_select_position : (model.select filePosition).position.toNat =
    (filePosition.toNat - min (filePosition.toNat - 1) (model.fileCount.toNat - 4)) % 256 := by
  have hfirst := toNat_select_firstFileIndex model filePosition
  have hle : (model.select filePosition).firstFileIndex ≤ filePosition := by
    rw [UInt16.le_iff_toNat_le, hfirst]
    omega
  have hposition : (model.select filePosition).position =
      (filePosition - (model.select filePosition).firstFileIndex).toUInt8 := rfl
  rw [hposition, UInt16.toNat_toUInt8, UInt16.toNat_sub_of_le _ _ hle, hfirst]

end Select

/-- The index of the file that the list is opened at. -/
def openedAt (extension : List Char) (selected : Option (List Char)) (content : DirContent) :
    Option ℕ :=
  selected.bind fun filename =>
    if filename = [] then none else selectedIndex extension filename content.entries

theorem fileSelectRequest_content (extension : List Char) (bufferSize : UInt8)
    (content : DirContent) (selected : Option (List Char)) (hfuel : content.entries.length < fuel) : ∃ fileSelect : FileSelect,
      fileSelectRequest extension bufferSize selected content.input fuel = some fileSelect ∧
      fileSelect.Lists extension bufferSize content ∧
      (openedAt extension selected content = none → fileSelect.model.position = 0 ∧
        fileSelect.model.firstFileIndex = 0) ∧
      ∀ index, openedAt extension selected content = some index →
        ∃ model : FileSelectModel, model.fileCount = fileSelect.model.fileCount ∧
          fileSelect.model.position = (model.select (.ofNat index)).position ∧
          fileSelect.model.firstFileIndex = (model.select (.ofNat index)).firstFileIndex := by
  obtain ⟨fileSelect, hinit, hlists, hposition, hfirst⟩ :=
    fileSelectInitInner_content extension bufferSize hfuel
  simp only [fileSelectRequest, hinit, Option.bind_some, if_true]
  cases selected with
  | none => exact ⟨fileSelect, rfl, hlists, fun _ => ⟨hposition, hfirst⟩, by simp [openedAt]⟩
  | some filename =>
    simp only [fileSelectSetSelectedFile, fileSelectSetSelectedFileInternal, openedAt,
      Option.bind_some, hlists.extension_eq]
    split
    · obtain ⟨fileSelect', hrefill, hlists', hposition', hfirst'⟩ :=
        hlists.refill rfl hlists.inside hfuel
      refine ⟨fileSelect', by simp [hrefill], hlists', fun _ => ?_, by simp⟩
      exact ⟨hposition'.trans hposition, hfirst'.trans hfirst⟩
    · rw [listDirectory_content content (by decide) hfuel, listEntries_setSelectedFile]
      cases selectedIndex extension filename content.entries with
      | none =>
        obtain ⟨fileSelect', hrefill, hlists', hposition', hfirst'⟩ :=
          hlists.refill rfl hlists.inside hfuel
        refine ⟨fileSelect', by simp [hrefill], hlists', fun _ => ?_, by simp⟩
        exact ⟨hposition'.trans hposition, hfirst'.trans hfirst⟩
      | some index =>
        obtain ⟨fileSelect', hrefill, hlists', hposition', hfirst'⟩ :=
          hlists.refill (fileCount_select fileSelect.model (.ofNat index))
            (inside_select fileSelect.model (.ofNat index)) hfuel
        refine ⟨fileSelect', by simp [hrefill], hlists', by simp, ?_⟩
        rintro index' ⟨⟩
        refine ⟨fileSelect.model, ?_, hposition', hfirst'⟩
        rw [hlists.fileCount, hlists'.fileCount]

end FlipperZero.Gui
