import FlipperZero.Gui.FileChoice
import Mathlib.Data.List.Induction

/-! # The names that are chosen from the list

A name is offered when it contains the extension, and all occurrences of the extension are taken
out of it. The caller appends the extension again, so it gets to the file when one occurrence was
taken out and the text after it can be moved before it.
-/

namespace FlipperZero.Gui

open SdFilesystem Input

section RemoveAll

variable {part s before after : List Char} {n : ℕ}

theorem stringRemoveAll_nil (n : ℕ) (s : List Char) : stringRemoveAll [] n s = s := by
  induction n generalizing s with
  | zero => rfl
  | succ n ih =>
    cases s with
    | nil => rfl
    | cons c s => simp [stringRemoveAll, ih]

theorem stringRemoveAll_of_not_infix (h : ¬ part <:+: s) : stringRemoveAll part n s = s := by
  induction n generalizing s with
  | zero => rfl
  | succ n ih =>
    cases s with
    | nil => rfl
    | cons c s =>
      rw [stringRemoveAll, if_neg fun hpart => h hpart.2.isInfix, ih fun hs => h (hs.trans ?_)]
      exact (List.suffix_cons c s).isInfix

def FirstAfter (part before s : List Char) : Prop :=
  ∀ k < before.length, ¬ part <+: s.drop k

theorem stringRemoveAll_first (hpart : part ≠ []) (hfirst : FirstAfter part before s)
    (hs : s = before ++ part ++ after) (hn : s.length ≤ n) :
    ∃ m, after.length ≤ m ∧ stringRemoveAll part n s = before ++ stringRemoveAll part m after := by
  induction before generalizing s n with
  | nil =>
    subst hs
    obtain ⟨c, cs, rfl⟩ := List.exists_cons_of_ne_nil hpart
    simp only [List.nil_append, List.length_append, List.length_cons] at hn
    obtain ⟨n, rfl⟩ : ∃ n', n = n' + 1 := ⟨n - 1, by omega⟩
    refine ⟨n, by omega, ?_⟩
    have hprefix : c :: cs <+: c :: (cs ++ after) := List.prefix_append (c :: cs) after
    simp only [List.nil_append, List.cons_append]
    rw [stringRemoveAll, if_pos ⟨hpart, hprefix⟩]
    simp
  | cons b before ih =>
    subst hs
    have hnot : ¬ part <+: b :: (before ++ part ++ after) := hfirst 0 (Nat.zero_lt_succ _)
    simp only [List.cons_append, List.length_cons] at hn
    obtain ⟨n, rfl⟩ : ∃ n', n = n' + 1 := ⟨n - 1, by omega⟩
    obtain ⟨m, hm, htail⟩ := ih (s := before ++ part ++ after) (n := n)
      (fun k hk => hfirst (k + 1) (Nat.succ_lt_succ hk)) rfl (by omega)
    refine ⟨m, hm, ?_⟩
    simp only [List.cons_append]
    rw [stringRemoveAll, if_neg fun h => hnot h.2, htail]

theorem exists_first (h : part <:+: s) :
    ∃ before after, s = before ++ part ++ after ∧ FirstAfter part before s := by
  induction s with
  | nil =>
    obtain rfl := List.infix_nil.mp h
    exact ⟨[], [], rfl, fun k hk => absurd hk (Nat.not_lt_zero k)⟩
  | cons c s ih =>
    by_cases hprefix : part <+: c :: s
    · obtain ⟨after, hafter⟩ := hprefix
      exact ⟨[], after, hafter.symm, fun k hk => absurd hk (Nat.not_lt_zero k)⟩
    · obtain ⟨before, after, hs, hfirst⟩ :=
        ih ((List.infix_cons_iff.mp h).resolve_left hprefix)
      refine ⟨c :: before, after, by rw [hs]; rfl, fun k hk => ?_⟩
      cases k with
      | zero => exact hprefix
      | succ k => exact hfirst k (Nat.lt_of_succ_lt_succ hk)

theorem length_stringRemoveAll (hpart : part ≠ []) (hn : s.length ≤ n) :
    (stringRemoveAll part n s).length + (if part <:+: s then part.length else 0) ≤ s.length := by
  induction hlength : s.length using Nat.strongRecOn generalizing s n with
  | ind length ih =>
    by_cases h : part <:+: s
    · obtain ⟨before, after, hs, hfirst⟩ := exists_first h
      obtain ⟨m, hm, hremove⟩ := stringRemoveAll_first hpart hfirst hs hn
      have hpos := List.length_pos_of_ne_nil hpart
      have hafter := ih after.length (by rw [← hlength, hs]; simp; omega) hm rfl
      rw [if_pos h, hremove, ← hlength, hs]
      simp only [List.length_append]
      omega
    · rw [if_neg h, stringRemoveAll_of_not_infix h, hlength]
      exact Nat.le_refl _

/-- The text is got back by appending what was taken out, when that was one occurrence and the
text after it can as well stand before it. -/
theorem stringRemoveAll_append_iff (hpart : part ≠ []) (hn : s.length ≤ n) :
    stringRemoveAll part n s ++ part = s ↔
      ∃ before after, s = before ++ part ++ after ∧ FirstAfter part before s ∧
        ¬ part <:+: after ∧ after ++ part = part ++ after := by
  constructor
  · intro h
    have hinfix : part <:+: s := h ▸ (List.suffix_append _ part).isInfix
    obtain ⟨before, after, hs, hfirst⟩ := exists_first hinfix
    obtain ⟨m, hm, hremove⟩ := stringRemoveAll_first hpart hfirst hs hn
    have hlength := congrArg List.length h
    rw [hremove, hs] at hlength
    simp only [List.length_append] at hlength
    have hle := length_stringRemoveAll hpart hm
    have hafter : ¬ part <:+: after := by
      intro hafter
      have hpos := List.length_pos_of_ne_nil hpart
      rw [if_pos hafter] at hle
      omega
    refine ⟨before, after, hs, hfirst, hafter, ?_⟩
    rw [hremove, stringRemoveAll_of_not_infix hafter] at h
    have heq := h.trans hs
    simpa using heq
  · rintro ⟨before, after, hs, hfirst, hafter, hcomm⟩
    obtain ⟨m, -, hremove⟩ := stringRemoveAll_first hpart hfirst hs hn
    rw [hremove, stringRemoveAll_of_not_infix hafter, List.append_assoc, hcomm, hs,
      List.append_assoc]

end RemoveAll

section Names

/-- The name is given back by `file_select` and by the extension: it is short enough for both
buffers, and for a filter that is an extension what follows the first occurrence of that has no
other one and can as well stand before it. -/
def KeepsName (extension : List Char) (bufferSize : UInt8) (name : List Char) : Prop :=
  name.length < fileSelectNameLength ∧
    if extension = ['*'] ∨ extension = [] then name.length ≤ bufferSize.toNat - 1
    else ∃ before after, name = before ++ extension ++ after ∧
      FirstAfter extension before name ∧ ¬ extension <:+: after ∧
      after ++ extension = extension ++ after ∧
      before.length + after.length ≤ bufferSize.toNat - 1

variable {extension : List Char} {bufferSize : UInt8} {entry : SDFileInfo} {name : List Char}

theorem take_eq_of_append {name' : List Char} {n : ℕ} (hle : name'.length + extension.length ≤ name.length)
    (h : name'.take n ++ extension = name) : name'.length ≤ n ∧ name'.take n = name' := by
  have hlength := congrArg List.length h
  rw [List.length_append, List.length_take] at hlength
  have hn : name'.length ≤ n := by omega
  exact ⟨hn, List.take_of_length_le hn⟩

theorem fullName_shownName_iff (hfilter : filterFile extension entry.fileInfo
      (strlcpy entry.fname fileSelectNameLength) = true) :
    fullName extension (strlcpy (shownName extension entry) bufferSize.toNat) = entry.fname ↔
      KeepsName extension bufferSize entry.fname := by
  simp only [filterFile, Bool.and_eq_true, Bool.or_eq_true, decide_eq_true_eq, contains] at hfilter
  have hcut : (strlcpy entry.fname fileSelectNameLength).length ≤ 99 := List.length_take_le ..
  have hshort : entry.fname.length < fileSelectNameLength →
      strlcpy entry.fname fileSelectNameLength = entry.fname :=
    fun h => List.take_of_length_le (Nat.le_pred_of_lt h)
  unfold KeepsName
  by_cases hplain : extension = ['*'] ∨ extension = []
  · have hshown : shownName extension entry = strlcpy entry.fname fileSelectNameLength := by
      rcases hplain with rfl | rfl <;> simp [shownName, displayName, stringRemoveAll_nil]
    have hfull : ∀ name, fullName extension name = name := by
      intro name
      rcases hplain with rfl | rfl <;> simp [fullName]
    rw [if_pos hplain, hfull, hshown]
    constructor
    · intro h
      have hlength := congrArg List.length h
      simp only [strlcpy, List.length_take] at hlength
      rw [fileSelectNameLength] at hlength ⊢
      omega
    · rintro ⟨hname, hbuffer⟩
      rw [hshort hname]
      exact List.take_of_length_le hbuffer
  · obtain ⟨hstar, hne⟩ := not_or.mp hplain
    have hinfix : extension <:+: strlcpy entry.fname fileSelectNameLength :=
      hfilter.2.resolve_left hstar
    have hshown : shownName extension entry = stringRemoveAll extension
        (strlcpy entry.fname fileSelectNameLength).length
        (strlcpy entry.fname fileSelectNameLength) := if_pos hstar
    have hlength := length_stringRemoveAll hne
      (Nat.le_refl (strlcpy entry.fname fileSelectNameLength).length)
    rw [if_pos hinfix, ← hshown] at hlength
    have hfull : ∀ name, fullName extension name = name ++ extension := fun _ => if_pos hstar
    rw [if_neg hplain, hfull, strlcpy]
    have hle : (strlcpy entry.fname fileSelectNameLength).length ≤ entry.fname.length :=
      List.length_take_le' ..
    constructor
    · intro h
      obtain ⟨hbuffer, htake⟩ := take_eq_of_append (Nat.le_trans hlength hle) h
      rw [htake] at h
      have hname : entry.fname.length < fileSelectNameLength := by
        rw [← h, List.length_append, fileSelectNameLength]
        omega
      have hsame := hshort hname
      rw [hsame] at hshown
      rw [hshown] at h hbuffer
      obtain ⟨before, after, hs, hfirst, hafter, hcomm⟩ :=
        (stringRemoveAll_append_iff hne (Nat.le_refl _)).mp h
      refine ⟨hname, before, after, hs, hfirst, hafter, hcomm, ?_⟩
      have hsum := congrArg List.length h
      have hparts := congrArg List.length hs
      simp only [List.length_append] at hsum hparts
      omega
    · rintro ⟨hname, before, after, hs, hfirst, hafter, hcomm, hbuffer⟩
      have happend := (stringRemoveAll_append_iff hne (Nat.le_refl _)).mpr
        ⟨before, after, hs, hfirst, hafter, hcomm⟩
      rw [hshort hname] at hshown
      rw [← hshown] at happend
      have hsum := congrArg List.length happend
      have hparts := congrArg List.length hs
      simp only [List.length_append] at hsum hparts
      rw [List.take_of_length_le (by omega)]
      exact happend

end Names

section Reach

variable (extension : List Char) (bufferSize : UInt8) (content : DirContent)

def listAfter (selected : Option (List Char)) (events : List InputEvent) : Option FileSelect :=
  (fileSelectRequest extension bufferSize selected content.input
    (content.entries.length + 1)).bind fun fileSelect =>
      events.foldlM (fun fileSelect event =>
        (fileSelectInputCallback event fileSelect content.input
          (content.entries.length + 1)).map InputOutcome.fileSelect) fileSelect

/-- The file that is selected is among the files counted. -/
def SelectsCounted (selected : Option (List Char)) : Prop :=
  ∀ index, openedAt extension selected content = some index →
    index % 2 ^ 16 < (matching extension content.entries).length % 2 ^ 16

/-- What OK returns in any list, with the extension, is the name of the file it is pressed on, and
each regular file with the extension is drawn in some list. -/
structure NamesFiles : Prop where
  names : ∀ selected events fileSelect outcome entry, SelectsCounted extension content selected →
    listAfter extension bufferSize content selected events = some fileSelect →
    fileSelectInputCallback ⟨.ok, .short⟩ fileSelect content.input
      (content.entries.length + 1) = some outcome →
    (matching extension content.entries)[fileSelect.model.firstFileIndex.toNat +
      fileSelect.model.position.toNat]? = some entry →
    ∃ name, outcome.fileSelect.buffer = some name ∧ fullName extension name = entry.fname
  offers : ∀ entry ∈ content.entries, entry.fattrib.directory = false →
    (∃ stem, entry.fname = fullName extension stem) →
    ∃ events fileSelect line, listAfter extension bufferSize content none events = some fileSelect ∧
      line < min 4 fileSelect.model.fileCount.toNat ∧
      (matching extension content.entries)[fileSelect.model.firstFileIndex.toNat + line]? =
        some entry

/-- How many of the matching files OK can be pressed on. -/
def choosable (count : ℕ) : ℕ := if count % 2 ^ 16 = 0 then min 4 count else count % 2 ^ 16

variable {extension bufferSize content} {selected : Option (List Char)} {events : List InputEvent}
  {fileSelect : FileSelect} {k : ℕ}

theorem listAfter_concat (events : List InputEvent) (event : InputEvent) :
    listAfter extension bufferSize content selected (events ++ [event]) =
      (listAfter extension bufferSize content selected events).bind fun fileSelect =>
        (fileSelectInputCallback event fileSelect content.input
          (content.entries.length + 1)).map InputOutcome.fileSelect := by
  unfold listAfter
  cases fileSelectRequest extension bufferSize selected content.input
      (content.entries.length + 1) with
  | none => rfl
  | some fileSelect => simp [List.foldlM_append]

theorem lists_after (h : listAfter extension bufferSize content selected events = some fileSelect) :
    fileSelect.Lists extension bufferSize content := by
  induction events using List.reverseRecOn generalizing fileSelect with
  | nil =>
    obtain ⟨fileSelect', hrequest, hlists, -⟩ :=
      fileSelectRequest_content extension bufferSize content selected (Nat.lt_succ_self _)
    have hlist : listAfter extension bufferSize content selected [] = some fileSelect' := by
      simp [listAfter, hrequest]
    obtain rfl := Option.some.inj (hlist.symm.trans h)
    exact hlists
  | append_singleton events event ih =>
    rw [listAfter_concat] at h
    obtain ⟨fileSelect', hbefore, h⟩ := Option.bind_eq_some_iff.mp h
    obtain ⟨outcome, houtcome, rfl⟩ := Option.map_eq_some_iff.mp h
    by_cases hok : event = ⟨.ok, .short⟩
    · subst hok
      exact ((ih hbefore).of_choose houtcome).1
    · obtain ⟨outcome', houtcome', hlists', -⟩ := (ih hbefore).move (Nat.lt_succ_self _) event hok
      obtain rfl := Option.some.inj (houtcome'.symm.trans houtcome)
      exact hlists'

/-- Any list has its window on counted files, and its position too when there are such. -/
theorem lists_of_listAfter (hselected : SelectsCounted extension content selected)
    (h : listAfter extension bufferSize content selected events = some fileSelect) :
    fileSelect.Lists extension bufferSize content ∧ fileSelect.model.OnLine := by
  refine ⟨lists_after h, ?_⟩
  induction events using List.reverseRecOn generalizing fileSelect with
  | nil =>
    obtain ⟨fileSelect', hrequest, hlists, hstart, hselect⟩ :=
      fileSelectRequest_content extension bufferSize content selected (Nat.lt_succ_self _)
    have hlist : listAfter extension bufferSize content selected [] = some fileSelect' := by
      simp [listAfter, hrequest]
    obtain rfl := Option.some.inj (hlist.symm.trans h)
    intro hcount
    cases hopened : openedAt extension selected content with
    | none =>
      rw [(hstart hopened).1, UInt8.toNat_zero]
      omega
    | some index =>
      obtain ⟨model, hmodel, hposition, -⟩ := hselect index hopened
      have hlt := hselected index hopened
      have hcount' := hlists.toNat_fileCount
      rw [hposition, toNat_select_position, hmodel, UInt16.toNat_ofNat']
      omega
  | append_singleton events event ih =>
    rw [listAfter_concat] at h
    obtain ⟨fileSelect', hbefore, h⟩ := Option.bind_eq_some_iff.mp h
    obtain ⟨outcome, houtcome, rfl⟩ := Option.map_eq_some_iff.mp h
    have hlists := lists_after hbefore
    by_cases hok : event = ⟨.ok, .short⟩
    · subst hok
      obtain ⟨-, hmodel, -⟩ := hlists.of_choose houtcome
      exact hmodel ▸ ih hbefore
    · obtain ⟨outcome', houtcome', -, honLine, -⟩ :=
        hlists.move (Nat.lt_succ_self _) event hok
      obtain rfl := Option.some.inj (houtcome'.symm.trans houtcome)
      exact honLine (ih hbefore)

theorem selectsCounted_none : SelectsCounted extension content none := by
  intro index h
  cases h

theorem listAfter_downs (bufferSize : UInt8)
    (hk : k < (matching extension content.entries).length % 2 ^ 16) : ∃ fileSelect,
      listAfter extension bufferSize content none (List.replicate k ⟨.down, .short⟩) =
        some fileSelect ∧
      fileSelect.model.firstFileIndex.toNat + fileSelect.model.position.toNat = k := by
  induction k with
  | zero =>
    obtain ⟨fileSelect, hrequest, -, hstart, -⟩ :=
      fileSelectRequest_content extension bufferSize content none (Nat.lt_succ_self _)
    obtain ⟨hposition, hfirst⟩ := hstart rfl
    exact ⟨fileSelect, by simp [listAfter, hrequest], by rw [hposition, hfirst]; rfl⟩
  | succ k ih =>
    obtain ⟨fileSelect, hafter, hindex⟩ := ih (Nat.lt_of_succ_lt hk)
    obtain ⟨hlists, -⟩ := lists_of_listAfter selectsCounted_none hafter
    obtain ⟨outcome, houtcome, -, -, model, hposition, hfirst, -, hdown, -⟩ :=
      hlists.move (Nat.lt_succ_self _) ⟨.down, .short⟩ (by decide)
    have hcount := hlists.toNat_fileCount
    have hnext := (hdown rfl).next hlists.inside (by omega)
    refine ⟨outcome.fileSelect, ?_, by rw [hposition, hfirst, hnext, hindex]⟩
    rw [List.replicate_succ', listAfter_concat, hafter, Option.bind_some, houtcome]
    rfl

theorem listAfter_ups (bufferSize : UInt8)
    (hcount : (matching extension content.entries).length % 2 ^ 16 = 0) (k : ℕ) :
    ∃ fileSelect,
      listAfter extension bufferSize content none (List.replicate k ⟨.up, .short⟩) =
        some fileSelect ∧
      fileSelect.model.firstFileIndex.toNat = 0 ∧
      fileSelect.model.position = 0 - UInt8.ofNat k := by
  induction k with
  | zero =>
    obtain ⟨fileSelect, hrequest, -, hstart, -⟩ :=
      fileSelectRequest_content extension bufferSize content none (Nat.lt_succ_self _)
    obtain ⟨hposition, hfirst⟩ := hstart rfl
    exact ⟨fileSelect, by simp [listAfter, hrequest], by rw [hfirst]; rfl, by rw [hposition]; rfl⟩
  | succ k ih =>
    obtain ⟨fileSelect, hafter, hzero, hpos⟩ := ih
    obtain ⟨hlists, -⟩ := lists_of_listAfter selectsCounted_none hafter
    obtain ⟨outcome, houtcome, hlists', -, model, hposition, hfirst, hup, -, -⟩ :=
      hlists.move (Nat.lt_succ_self _) ⟨.up, .short⟩ (by decide)
    have hcount' := hlists.toNat_fileCount
    have hinside := hlists'.inside
    have hcount'' := hlists'.toNat_fileCount
    unfold FileSelectModel.Inside at hinside
    have hmove : model.position = fileSelect.model.position - 1 := by
      cases hup rfl with
      | wrap position firstFileIndex hposition' hfirst' hlast hbelow hinside' =>
        exact hbelow (by omega)
      | scroll firstFileIndex hposition' hfirst' => omega
      | move hmove hposition' => rfl
    refine ⟨outcome.fileSelect, ?_, by omega, ?_⟩
    · rw [List.replicate_succ', listAfter_concat, hafter, Option.bind_some, houtcome]
      rfl
    · have hstep : ∀ position : UInt8, 0 - position - 1 = 0 - (position + 1) := by grind
      rw [hposition, hmove, hpos, hstep, UInt8.ofNat_add]
      rfl

theorem exists_listAfter_iff (bufferSize : UInt8) {index : ℕ} {entry : SDFileInfo}
    (hentry : (matching extension content.entries)[index]? = some entry) :
    (∃ selected events fileSelect, SelectsCounted extension content selected ∧
      listAfter extension bufferSize content selected events = some fileSelect ∧
      fileSelect.model.position.toNat < filenameCount ∧
      fileSelect.model.firstFileIndex.toNat + fileSelect.model.position.toNat = index) ↔
      index < choosable (matching extension content.entries).length := by
  have hindex := (List.getElem?_eq_some_iff.mp hentry).1
  unfold choosable
  constructor
  · rintro ⟨selected, events, fileSelect, hselected, hafter, hline, rfl⟩
    obtain ⟨hlists, honLine⟩ := lists_of_listAfter hselected hafter
    have hcount := hlists.toNat_fileCount
    have hinside := hlists.inside
    unfold FileSelectModel.Inside at hinside
    rw [filenameCount] at hline
    split
    · omega
    · next hne =>
      have := honLine (by omega)
      omega
  · intro hlt
    split at hlt
    · next hzero =>
      obtain ⟨fileSelect, hafter, hfirst, hposition⟩ :=
        listAfter_ups bufferSize hzero (256 - index)
      have hpos : fileSelect.model.position.toNat = index := by
        rw [hposition, UInt8.toNat_sub, UInt8.toNat_ofNat', UInt8.toNat_zero]
        omega
      refine ⟨none, _, fileSelect, selectsCounted_none, hafter, ?_, by omega⟩
      rw [filenameCount]
      omega
    · next hne =>
      obtain ⟨fileSelect, hafter, hsum⟩ := listAfter_downs bufferSize hlt
      obtain ⟨hlists, honLine⟩ := lists_of_listAfter selectsCounted_none hafter
      have hcount := hlists.toNat_fileCount
      have := honLine (by omega)
      refine ⟨none, _, fileSelect, selectsCounted_none, hafter, ?_, hsum⟩
      rw [filenameCount]
      omega

theorem mem_matching {entry : SDFileInfo} (h : entry ∈ matching extension content.entries) :
    filterFile extension entry.fileInfo (strlcpy entry.fname fileSelectNameLength) = true :=
  (List.mem_filter.mp h).2

theorem NamesFiles.keepsName {index : ℕ} {entry : SDFileInfo}
    (h : NamesFiles extension bufferSize content)
    (hentry : (matching extension content.entries)[index]? = some entry)
    (hindex : index < choosable (matching extension content.entries).length) :
    KeepsName extension bufferSize entry.fname := by
  obtain ⟨selected, events, fileSelect, hselected, hafter, hline, rfl⟩ :=
    (exists_listAfter_iff bufferSize hentry).mpr hindex
  obtain ⟨hlists, -⟩ := lists_of_listAfter hselected hafter
  have hcall : (fileSelectInputCallback ⟨.ok, .short⟩ fileSelect content.input
      (content.entries.length + 1)).isSome := by
    rw [hlists.choose_eq, dif_pos hline]
    rfl
  obtain ⟨outcome, houtcome⟩ := Option.isSome_iff_exists.mp hcall
  obtain ⟨-, -, -, hbuffer⟩ := hlists.of_choose houtcome
  obtain ⟨name, hname, hfull⟩ :=
    h.names selected events fileSelect outcome entry hselected hafter houtcome hentry
  rw [hbuffer entry hentry, hlists.bufferSize_eq] at hname
  rw [← Option.some.inj hname] at hfull
  exact (fullName_shownName_iff (mem_matching (List.mem_of_getElem? hentry))).mp hfull

theorem file_names_denote (extension : List Char) (bufferSize : UInt8) (content : DirContent) :
    NamesFiles extension bufferSize content ↔
      (∀ (index : ℕ) entry, (matching extension content.entries)[index]? = some entry →
        index < choosable (matching extension content.entries).length →
        KeepsName extension bufferSize entry.fname) ∧
      ∀ entry ∈ content.entries, entry.fattrib.directory = false →
        (∃ stem, entry.fname = fullName extension stem) →
        ∃ index < (matching extension content.entries).length % 2 ^ 16,
          (matching extension content.entries)[index]? = some entry := by
  constructor
  · intro h
    constructor
    · intro index entry hentry hindex
      exact h.keepsName hentry hindex
    · intro entry hmem hfile hstem
      obtain ⟨events, fileSelect, line, hafter, hline, hentry⟩ := h.offers entry hmem hfile hstem
      obtain ⟨hlists, -⟩ := lists_of_listAfter selectsCounted_none hafter
      have hcount := hlists.toNat_fileCount
      have hinside := hlists.inside
      unfold FileSelectModel.Inside at hinside
      exact ⟨_, by omega, hentry⟩
  · rintro ⟨hkeeps, hoffered⟩
    constructor
    · intro selected events fileSelect outcome entry hselected hafter houtcome hentry
      obtain ⟨hlists, -⟩ := lists_of_listAfter hselected hafter
      obtain ⟨-, -, -, hbuffer⟩ := hlists.of_choose houtcome
      have hline : fileSelect.model.position.toNat < filenameCount := by
        by_contra hline
        rw [hlists.choose_eq, dif_neg hline] at houtcome
        cases houtcome
      have hindex := (exists_listAfter_iff bufferSize hentry).mp
        ⟨selected, events, fileSelect, hselected, hafter, hline, rfl⟩
      refine ⟨_, hbuffer entry hentry, ?_⟩
      rw [hlists.bufferSize_eq]
      exact (fullName_shownName_iff (mem_matching (List.mem_of_getElem? hentry))).mpr
        (hkeeps _ entry hentry hindex)
    · intro entry hmem hfile hstem
      obtain ⟨index, hindex, hentry⟩ := hoffered entry hmem hfile hstem
      obtain ⟨fileSelect, hafter, rfl⟩ := listAfter_downs bufferSize hindex
      obtain ⟨hlists, honLine⟩ := lists_of_listAfter selectsCounted_none hafter
      have hcount := hlists.toNat_fileCount
      exact ⟨_, fileSelect, _, hafter, honLine (by omega), hentry⟩

/-- The file `a.ibtn.bak` is offered as `a.bak`. -/
theorem file_names_elsewhere : ¬ ∀ extension bufferSize content,
    NamesFiles extension bufferSize content := by
  intro h
  obtain ⟨entry, hfname, hmatching⟩ : ∃ entry : SDFileInfo,
      entry.fname = ['a', '.', 'i', 'b', 't', 'n', '.', 'b', 'a', 'k'] ∧
      matching ['.', 'i', 'b', 't', 'n'] [entry] = [entry] :=
    ⟨⟨_, ⟨false, false, false, false, true⟩, 0, 0, 0⟩, rfl, rfl⟩
  have hnames := h ['.', 'i', 'b', 't', 'n'] 23 ⟨[entry], by simp [hfname]⟩
  obtain ⟨-, before, after, hname, -, -, hcomm, -⟩ :=
    hnames.keepsName (congrArg (·[0]?) hmatching) (by rw [hmatching]; exact Nat.one_pos)
  have hsuffix : ['.', 'i', 'b', 't', 'n'] <:+ entry.fname := by
    refine ⟨before ++ after, ?_⟩
    rw [hname, List.append_assoc, hcomm, List.append_assoc]
  rw [hfname] at hsuffix
  exact absurd hsuffix (by decide)

end Reach

end FlipperZero.Gui
