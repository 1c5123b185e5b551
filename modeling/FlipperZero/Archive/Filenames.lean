import FlipperZero.Gui.FileSelect

/-! # The file names of the archive, and the end of a listing

The archive browser lists a directory in the same loop as the file select view, with a name
buffer that is not empty at first. All four functions share one flaw: a failed read neither ends
the listing nor is reported, unless it happens to leave an empty name, which looks like the end.
-/

namespace FlipperZero.Archive

open Lib SdFilesystem Gui

def maxNameLen : ℕ := 255

inductive ArchiveFileType where
  | iButton
  | nfc
  | subOne
  | lfrfid
  | irda
  | folder
  | unknown
deriving DecidableEq, Repr

structure ArchiveFile where
  name : List Char
  type : ArchiveFileType
deriving DecidableEq, Repr

def knownExt : List (ArchiveFileType × List Char) :=
  [(.iButton, ['.', 'i', 'b', 't', 'n']), (.nfc, ['.', 'n', 'f', 'c']),
    (.subOne, ['.', 's', 'u', 'b', '1']), (.lfrfid, ['.', 'r', 'f', 'i', 'd']),
    (.irda, ['.', 'i', 'r', 'd', 'a'])]

def fileType (name : List Char) (fileInfo : FileInfo) : ArchiveFileType :=
  match knownExt.find? fun e => contains name e.2 with
  | some e => e.1
  | none => if fileInfo.flags.directory then .folder else .unknown

def filterByExtension (filterExt name : List Char) : Bool :=
  filterExt = ['*'] || contains name filterExt

def getFilenamesStep (filterExt : List Char) (files : List ArchiveFile) (name : List Char)
    (fileInfo : FileInfo) : List ArchiveFile × Bool :=
  (if filterByExtension filterExt name then files ++ [⟨name, fileType name fileInfo⟩] else files,
    false)

/-- The buffer that `"%0*d\n"` prints: zeros up to the length of a name. -/
def initialName : List Char := List.replicate maxNameLen '0' ++ ['\n']

def archiveGetFilenames (filterExt : List Char) (input : ListingInput) :
    ℕ → Option (ListingOutcome (List ArchiveFile)) :=
  listDirectory (getFilenamesStep filterExt) maxNameLen initialName [] [] (some false)
    (fun exit files =>
      match exit with
      | .failed => ⟨some exit, some false, files⟩
      | _ => ⟨some exit, some true, files⟩) { input with allocated := true }

/-- A listing function returns and reports its errors iff it cannot begin, or its reads end well. -/
theorem listing_reports_iff (extension filename filterExt : List Char) (model : FileSelectModel)
    (input : ListingInput) :
    (Reports (fileSelectFillCount extension model input) ↔
      (input.allocated && input.opened) = false ∨
        EndsWell (fillCountStep extension) fileSelectNameLength input.reads (firstCursor [] 0)) ∧
    (Reports (fileSelectFillStrings extension model input) ↔
      (input.allocated && input.opened) = false ∨
        EndsWell (fillStringsStep extension) fileSelectNameLength input.reads
          (firstCursor [] ⟨model, 0, 0⟩)) ∧
    (Reports (fileSelectSetSelectedFileInternal extension filename model input) ↔
      filename = [] ∨ (input.allocated && input.opened) = false ∨
        EndsWell (setSelectedFileStep extension (fullName extension filename))
          fileSelectNameLength input.reads (firstCursor [] 0)) ∧
    (Reports (archiveGetFilenames filterExt input) ↔
      input.opened = false ∨
        EndsWell (getFilenamesStep filterExt) maxNameLen input.reads
          (firstCursor initialName [])) := by
  refine ⟨?_, ?_, ?_, ?_⟩
  · apply listDirectory_reports_iff
    · rintro (e | _ | _) s <;> rfl
    · rintro e s ⟨⟩
  · apply listDirectory_reports_iff
    · rintro (e | _ | _) s <;> rfl
    · rintro e s ⟨⟩
  · by_cases hname : filename = []
    · simp only [hname, true_or, iff_true]
      exact ⟨0, _, rfl, fun e he => by cases he⟩
    · rw [fileSelectSetSelectedFileInternal, if_neg hname, or_iff_right hname]
      apply listDirectory_reports_iff
      · rintro (e | _ | _) s <;> rfl
      · rintro e s ⟨⟩
  · apply listDirectory_reports_iff
    · rintro (e | _ | _) s <;> rfl
    · rintro e s ⟨⟩

section Runs

def entry (fname : List Char) : ReadResult :=
  .readdir .ok ⟨fname, ⟨false, false, false, false, false⟩, 0, 0, 0⟩

def removed (i : ℕ) : ReadResult :=
  if i = 0 then entry ['a'] else .noDir .noCard (by simp)

def absent (_ : ℕ) : ReadResult := .noDir .noCard (by simp)

theorem loop_removed (n : ℕ) :
    loop (listingBody (fillCountStep ['*']) fileSelectNameLength removed) n (firstCursor [] 0) =
      none := by
  apply loop_eq_none (P := fun c => c.next = 0 ∨ c.next ≠ 0 ∧ c.dir.name = ['a'])
  · rintro ⟨next, dir, counter⟩ (rfl | ⟨hnext, hname⟩)
    · exact ⟨_, rfl, .inr ⟨by simp, rfl⟩⟩
    · have hread : removed next = .noDir .noCard (by simp) := if_neg hnext
      have hdir : fsDirRead fileSelectNameLength dir (removed next) =
          (false, { dir with errorId := .notReady }) := by
        rw [hread]
        rfl
      refine ⟨⟨next + 1, { dir with errorId := .notReady }, counter⟩, ?_, .inr ⟨by simp, hname⟩⟩
      simp only at hname
      simp [listingBody, hdir, hname]
  · exact .inl rfl

/-- With the card removed after an entry, counting never ends; with the card removed before the
first read, it ends on the error and reports success. -/
theorem not_listing_reports :
    (∀ model n, fileSelectFillCount ['*'] model ⟨true, true, removed⟩ n = none) ∧
      ∀ model, ∃ out, fileSelectFillCount ['*'] model ⟨true, true, absent⟩ 1 = some out ∧
        out.exit = some (.stopped .notReady) ∧ out.result = some true := by
  constructor
  · intro model n
    have hloop := loop_removed n
    simp [fileSelectFillCount, listDirectory, hloop]
  · exact fun model => ⟨_, rfl, rfl, rfl⟩

end Runs

end FlipperZero.Archive
