import FlipperZero.Gui.FileNames
import FlipperZero.IButton.KeySave

/-! # The file of a loaded key

The name of the chosen file is cut to 99 characters when the directory is read, loses the
extension for its line, is copied into the result of the selection and into the name of the
key, which holds 63, and is completed to a path again by whoever removes the file.
-/

namespace FlipperZero.IButton

open Lib SdFilesystem Gui

def fileNameSize : UInt8 := 100

def filePath (fname : List Char) : List Char := appFolder ++ '/' :: fname

/-- Whether the file was removed, and the files after that. -/
def deleteKey (input : SaveInput) (key : NamedKey) : Bool × Files :=
  let removed := removeFile input (keyPath key.name)
  (removed.1 = .ok, removed.2)

/-- The files when `save_key` comes to open the new one. -/
def filesAtOpen (input : SaveInput) (key : NamedKey) : Option Files :=
  if input.mkdirError ≠ .ok ∧ input.mkdirError ≠ .exist then none
  else
    let removed := removeFile input (keyPath key.name)
    if removed.1 ≠ .ok ∧ removed.1 ≠ .notExist then none else some removed.2

/-- The line of the file was chosen, and this name is what was handed over. -/
structure Chosen (entry : SDFileInfo) (name : List Char) : Prop where
  listed : filterFile appExtension entry.fileInfo (strlcpy entry.fname fileSelectNameLength) = true
  handed : name = strlcpy (shownName appExtension entry) fileNameSize.toNat

/-- What removes the file of the key removes this one and no other. -/
structure KeepsIdentity (files : Files) (fname : List Char) (key : NamedKey) : Prop where
  deletes : ∀ input : SaveInput, input.files = files → deleteKey input key =
    if input.removeFault = none then (true, Function.update files (filePath fname) none)
    else (false, files)
  saves : ∀ input : SaveInput, input.files = files → ∀ before, filesAtOpen input key = some before →
    before = Function.update files (filePath fname) none

/-- A stem without the extension in it that fits into the name of a key. -/
def ShortStem (fname : List Char) : Prop :=
  ∃ stem, fname = stem ++ appExtension ∧ ¬appExtension <:+: stem ∧ stem.length < ibuttonKeyNameSize

variable {files : Files} {fname name : List Char} {key : NamedKey} {entry : SDFileInfo}
  {input : SaveInput} {content : List Byte}

theorem removeFile_of_fault (h : input.removeFault ≠ none) (path : List Char) :
    (removeFile input path).1 ≠ .ok ∧ (removeFile input path).1 ≠ .notExist ∧
      (removeFile input path).2 = input.files := by
  obtain ⟨e, he⟩ := Option.ne_none_iff_exists'.mp h
  have hremove : removeFile input path = (e.val, input.files) := by simp only [removeFile, he]
  rw [hremove]
  exact ⟨e.property.1, e.property.2, rfl⟩

theorem removeFile_of_some {path : List Char} (h : input.removeFault = none)
    (hfile : input.files path = some content) :
    removeFile input path = (.ok, Function.update input.files path none) := by
  simp only [removeFile, h, hfile]

theorem keyPath_eq_filePath : keyPath name = filePath fname ↔ name ++ appExtension = fname := by
  simp [keyPath, filePath]

theorem removeFile_other {path path' : List Char} (hne : path' ≠ path)
    (hfile : input.files path' = some content) : (removeFile input path).2 path' = some content := by
  unfold removeFile
  split
  · exact hfile
  · split
    · exact (Function.update_of_ne hne _ _).trans hfile
    · exact hfile

theorem keepsIdentity_iff (hfile : files (filePath fname) = some content) :
    KeepsIdentity files fname key ↔ key.name ++ appExtension = fname := by
  rw [← keyPath_eq_filePath]
  constructor
  · intro h
    by_contra hne
    have hdelete := h.deletes ⟨files, .ok, none, none, fun _ => ⟨.ok, 0⟩⟩ rfl
    have hkept := @removeFile_other ⟨files, .ok, none, none, fun _ => ⟨.ok, 0⟩⟩ content
      (keyPath key.name) (filePath fname) (Ne.symm hne) hfile
    have hfiles := congrArg (fun removed => removed.2 (filePath fname)) hdelete
    simp only [deleteKey, hkept, if_true, Function.update_self] at hfiles
    cases hfiles
  · intro hpath
    constructor
    · rintro input rfl
      unfold deleteKey
      split
      · next hfault =>
        rw [hpath, removeFile_of_some hfault hfile]
        rfl
      · next hfault =>
        obtain ⟨hok, -, hfiles⟩ := removeFile_of_fault hfault (keyPath key.name)
        simp [hok, hfiles]
    · rintro input rfl before hbefore
      unfold filesAtOpen at hbefore
      split at hbefore
      · cases hbefore
      · simp only [Option.ite_none_left_eq_some, Option.some.injEq] at hbefore
        obtain ⟨hremoved, rfl⟩ := hbefore
        cases hfault : input.removeFault with
        | none => rw [hpath, removeFile_of_some hfault hfile]
        | some e =>
          have hne : input.removeFault ≠ none := hfault ▸ Option.some_ne_none e
          obtain ⟨hok, hexist, -⟩ := removeFile_of_fault hne (keyPath key.name)
          exact absurd ⟨hok, hexist⟩ hremoved

section Stems

variable {before after : List Char}

theorem prefix_append (h : appExtension <+: before ++ appExtension) :
    before = [] ∨ appExtension <+: before := by
  have hall : ∀ n < appExtension.length, 0 < n →
      appExtension.drop n ≠ appExtension.take (appExtension.length - n) := by decide
  rcases Nat.lt_or_ge before.length appExtension.length with hlt | hge
  · left
    by_contra hne
    have hpos := List.length_pos_of_ne_nil hne
    obtain ⟨rest, hrest⟩ := h
    have hdrop := congrArg (List.drop before.length) hrest
    rw [List.drop_left, List.drop_append_of_le_length hlt.le] at hdrop
    have htake := congrArg (List.take (appExtension.length - before.length)) hdrop
    rw [List.take_left' (by simp)] at htake
    exact hall before.length hlt hpos htake
  · right
    exact List.prefix_of_prefix_length_le h (List.prefix_append _ _) hge

theorem firstAfter_iff (hname : fname = before ++ appExtension) :
    FirstAfter appExtension before fname ↔ ¬appExtension <:+: before := by
  subst hname
  constructor
  · rintro h ⟨front, rest, rfl⟩
    apply h front.length
    · simp [appExtension]
    · rw [List.append_assoc, List.append_assoc, List.drop_left]
      exact List.prefix_append _ _
  · intro h k hk hprefix
    rw [List.drop_append_of_le_length hk.le] at hprefix
    rcases prefix_append hprefix with hnil | hinside
    · have := List.drop_eq_nil_iff.mp hnil
      omega
    · exact h (hinside.isInfix.trans (List.drop_suffix k before).isInfix)

theorem after_eq_nil (hafter : ¬appExtension <:+: after)
    (hcomm : after ++ appExtension = appExtension ++ after) : after = [] := by
  have hprefix : appExtension <+: after ++ appExtension := by
    rw [hcomm]
    exact List.prefix_append _ _
  rcases prefix_append hprefix with hnil | hprefix
  · exact hnil
  · exact absurd hprefix.isInfix hafter

theorem keepsName_iff : KeepsName appExtension 64 fname ↔ ShortStem fname := by
  have hplain : ¬(appExtension = ['*'] ∨ appExtension = []) := by decide
  rw [KeepsName, if_neg hplain]
  constructor
  · rintro ⟨-, before, after, hname, hfirst, hafter, hcomm, hlength⟩
    obtain rfl := after_eq_nil hafter hcomm
    rw [List.append_nil] at hname
    refine ⟨before, hname, (firstAfter_iff hname).mp hfirst, ?_⟩
    exact Nat.lt_of_le_of_lt hlength (by decide)
  · rintro ⟨stem, hname, hstem, hlength⟩
    have hlength : stem.length ≤ 63 := Nat.le_of_lt_succ hlength
    refine ⟨?_, stem, [], by rw [hname, List.append_nil], (firstAfter_iff hname).mpr hstem, ?_,
      rfl, hlength⟩
    · rw [hname, List.length_append, fileSelectNameLength]
      exact Nat.lt_of_le_of_lt (Nat.add_le_add_right hlength _) (by decide)
    · decide

end Stems

theorem Chosen.fullName_iff (h : Chosen entry name) :
    strlcpy name ibuttonKeyNameSize ++ appExtension = entry.fname ↔ ShortStem entry.fname := by
  have hsize : strlcpy name ibuttonKeyNameSize =
      strlcpy (shownName appExtension entry) (64 : UInt8).toNat := by
    rw [h.handed, strlcpy, strlcpy, strlcpy, List.take_take]
    rfl
  rw [← keepsName_iff, ← fullName_shownName_iff h.listed, hsize]
  rfl

theorem loadKey_name {loading : LoadInput} (hselected : loading.selected = some name)
    (hresult : (loadKey loading key).result = true) :
    (loadKey loading key).key.name = strlcpy name ibuttonKeyNameSize := by
  have hloaded := @loaded_loadKey loading key
  generalize loadKey loading key = outcome at hloaded hresult ⊢
  cases hloaded with
  | kept message hnames => cases hresult
  | retyped type hnames hreads => cases hresult
  | loaded name' type data hname hnames hreads hdata =>
    obtain rfl := Option.some.inj (hselected.symm.trans hname)
    rfl

/-- The application's request for a file, the inputs to its list, and OK on the line of a file. -/
structure ChosenByOk (content : DirContent) (entry : SDFileInfo) (name : List Char) : Prop where
  run : ∃ selected events fileSelect outcome,
    listAfter appExtension fileNameSize content selected events = some fileSelect ∧
    (matching appExtension content.entries)[fileSelect.model.firstFileIndex.toNat +
      fileSelect.model.position.toNat]? = some entry ∧
    fileSelectInputCallback ⟨.ok, .short⟩ fileSelect content.input
      (content.entries.length + 1) = some outcome ∧
    outcome.fileSelect.buffer = some name

theorem ChosenByOk.chosen {content : DirContent} (h : ChosenByOk content entry name) :
    Chosen entry name := by
  obtain ⟨selected, events, fileSelect, outcome, hafter, hentry, houtcome, hname⟩ := h.run
  have hlists := lists_after hafter
  obtain ⟨-, -, -, hbuffer⟩ := hlists.of_choose houtcome
  constructor
  · exact mem_matching (List.mem_of_getElem? hentry)
  · rw [hbuffer entry hentry, hlists.bufferSize_eq] at hname
    exact (Option.some.inj hname).symm

/-- A Cyfral key, as a file that is read without errors. -/
def cyfralFile : List Byte := [0x43, 0x20, 0x30, 0x31, 0x20, 0x30, 0x31]

def onlyFile (fname : List Char) : Files :=
  fun path => if path = filePath fname then some cyfralFile else none

theorem onlyFile_self (fname : List Char) : onlyFile fname (filePath fname) = some cyfralFile :=
  if_pos rfl

theorem loadKey_cyfralFile (name : List Char) (key : NamedKey) :
    (loadKey ⟨some name, .ok, cyfralFile, fun _ => ⟨.ok, 0xFFFF⟩⟩ key).result = true := rfl

theorem exists_chosenByOk (hne : entry.fname ≠ []) (hfile : entry.fattrib.directory = false)
    (hsuffix : appExtension <:+ entry.fname) (hlength : entry.fname.length < 100) :
    ∃ name, ChosenByOk ⟨[entry], by simpa using hne⟩ entry name := by
  have hshort : strlcpy entry.fname fileSelectNameLength = entry.fname :=
    List.take_of_length_le (Nat.le_of_lt_succ hlength)
  have hmatching : matching appExtension [entry] = [entry] := by
    simp [matching, filterFile, SDFileInfo.fileInfo, hfile, hshort, contains, hsuffix.isInfix]
  have hentry : (matching appExtension [entry])[0]? = some entry := by
    rw [hmatching]
    rfl
  have hindex : 0 < choosable (matching appExtension [entry]).length := by
    rw [hmatching]
    exact Nat.one_pos
  obtain ⟨selected, events, fileSelect, -, hafter, hline, hposition⟩ :=
    (@exists_listAfter_iff appExtension ⟨[entry], by simpa using hne⟩ fileNameSize 0 entry
      hentry).mpr hindex
  have houtcome := @FileSelect.Lists.choose_eq _ _ _ 2 _ (lists_after hafter)
  rw [dif_pos hline] at houtcome
  exact ⟨_, ⟨_, _, _, _, hafter, by rw [hposition]; exact hentry, houtcome, rfl⟩⟩

/-- A key that was loaded keeps the identity of the chosen file exactly if the name of that is a
short stem with the extension. -/
theorem loaded_key_identity {directory : DirContent} {loading : LoadInput}
    (hchosen : ChosenByOk directory entry name)
    (hfile : files (filePath entry.fname) = some content)
    (hselected : loading.selected = some name) (hresult : (loadKey loading key).result = true) :
    KeepsIdentity files entry.fname (loadKey loading key).key ↔ ShortStem entry.fname := by
  rw [keepsIdentity_iff hfile, loadKey_name hselected hresult]
  exact hchosen.chosen.fullName_iff

/-- The file `a.ibtn`. -/
def shortEntry : SDFileInfo :=
  ⟨['a', '.', 'i', 'b', 't', 'n'], ⟨false, false, false, false, true⟩, 7, 0, 0⟩

theorem loaded_key_identity_short : ∃ name key,
    KeepsIdentity (onlyFile shortEntry.fname) shortEntry.fname
      (loadKey ⟨some name, .ok, cyfralFile, fun _ => ⟨.ok, 0xFFFF⟩⟩ key).key := by
  obtain ⟨name, hchosen⟩ := @exists_chosenByOk shortEntry (by decide) rfl ⟨['a'], rfl⟩ (by decide)
  have hkeeps := loaded_key_identity hchosen (onlyFile_self _) rfl
    (loadKey_cyfralFile name ⟨⟨.keyDallas, .replicate 8 0⟩, []⟩)
  exact ⟨name, _, hkeeps.mpr ⟨['a'], rfl, by decide, by decide⟩⟩

/-- A file with a stem of 64 letters; the name of the key has room for 63. -/
def longEntry : SDFileInfo :=
  ⟨List.replicate 64 'a' ++ appExtension, ⟨false, false, false, false, true⟩, 7, 0, 0⟩

theorem loaded_key_identity_long : ¬∀ directory entry name files content loading key,
    ChosenByOk directory entry name → files (filePath entry.fname) = some content →
    loading.selected = some name → (loadKey loading key).result = true →
    KeepsIdentity files entry.fname (loadKey loading key).key := by
  intro h
  obtain ⟨name, hchosen⟩ := @exists_chosenByOk longEntry (by simp [longEntry]) rfl
    (List.suffix_append _ _) (by simp [longEntry, appExtension])
  have hfile := onlyFile_self longEntry.fname
  have hresult := loadKey_cyfralFile name ⟨⟨.keyDallas, .replicate 8 0⟩, []⟩
  have hkeeps := (keepsIdentity_iff hfile).mp (h _ _ _ _ _ _ _ hchosen hfile rfl hresult)
  rw [loadKey_name rfl hresult] at hkeeps
  obtain ⟨stem, hname, -, hlength⟩ := hchosen.chosen.fullName_iff.mp hkeeps
  have hstem : List.replicate 64 'a' = stem := List.append_cancel_right hname
  rw [← hstem] at hlength
  exact absurd hlength (by decide)

end FlipperZero.IButton
