import FlipperZero.Gui.FileLines

/-! # Choosing a file

A list with at least one matching file keeps its window and its position on files, and OK gives
the file at the position. Without a file, Up moves the position below zero and OK gives a line
that no file was read into. The count of the files is kept modulo the width of its type, so of a
directory with more files than that only the first ones are listed.
-/

namespace FlipperZero.Gui

open SdFilesystem Input

section Properties

variable (extension : List Char) (content : DirContent)

def FileSelectModel.drawn (model : FileSelectModel) : List (List Char) :=
  ((List.finRange filenameCount).take model.fileCount.toNat).map model.filename

/-- The position and the window are on matching files, which are the ones drawn. -/
structure FileSelectModel.Shows (model : FileSelectModel) : Prop where
  position_lt : matching extension content.entries ≠ [] →
    model.position.toNat < min 4 (matching extension content.entries).length
  position_zero : matching extension content.entries = [] → model.position.toNat = 0
  index_lt : matching extension content.entries ≠ [] →
    model.firstFileIndex.toNat + model.position.toNat <
      (matching extension content.entries).length
  drawn_eq : model.drawn = (((matching extension content.entries).drop
    model.firstFileIndex.toNat).take 4).map (shownName extension)

/-- The result is the matching file at the position. -/
def Hands (fileSelect : FileSelect) (outcome : InputOutcome) : Prop :=
  ∃ entry, (matching extension content.entries)[
      fileSelect.model.firstFileIndex.toNat + fileSelect.model.position.toNat]? = some entry ∧
    outcome.results = [true] ∧ outcome.fileSelect.buffer =
      some (strlcpy (shownName extension entry) fileSelect.bufferSize.toNat)

/-- The list shows files before and after each input, and OK hands over the one at the position;
each listing of the directory takes a round for each of its entries and one for its end. -/
def KeepsShowing : List InputEvent → FileSelect → Prop
  | [], fileSelect => fileSelect.model.Shows extension content
  | event :: events, fileSelect =>
    fileSelect.model.Shows extension content ∧
      ∃ outcome, fileSelectInputCallback event fileSelect content.input
          (content.entries.length + 1) = some outcome ∧
        (event = ⟨.ok, .short⟩ → Hands extension content fileSelect outcome) ∧
        KeepsShowing events outcome.fileSelect

/-- The list of a request shows its files through all inputs. -/
def ListsFiles (bufferSize : UInt8) (selected : Option (List Char)) (events : List InputEvent) :
    Prop :=
  ∃ fileSelect, fileSelectRequest extension bufferSize selected content.input
      (content.entries.length + 1) = some fileSelect ∧
    KeepsShowing extension content events fileSelect

/-- As many files are counted as fill the lines, and the file that is selected is among those
counted or by chance gets a position on the lines. -/
def CountFits (selected : Option (List Char)) (count : ℕ) : Prop :=
  min 4 (count % 2 ^ 16) = min 4 count ∧
    ∀ index, openedAt extension selected content = some index →
      index % 2 ^ 16 < count % 2 ^ 16 ∨
        (index % 2 ^ 16 - (count % 2 ^ 16 - 4)) % 2 ^ 8 < 4

def OnlyDown (events : List InputEvent) : Prop :=
  ∀ event ∈ events, event ≠ ⟨.up, .short⟩ ∧ event ≠ ⟨.ok, .short⟩

end Properties

variable {extension : List Char} {content : DirContent} {bufferSize : UInt8} {fuel : ℕ}
  {fileSelect : FileSelect} {model : FileSelectModel} {events : List InputEvent}
  {selected : Option (List Char)}

theorem length_drawn (model : FileSelectModel) :
    model.drawn.length = min 4 model.fileCount.toNat := by
  rw [FileSelectModel.drawn, List.length_map, List.length_take, List.length_finRange, filenameCount,
    Nat.min_comm]

theorem drawn_getElem? {i : ℕ} (hi : i < 4) (hcount : i < model.fileCount.toNat) :
    model.drawn[i]? = some (model.filename ⟨i, hi⟩) := by
  have hrange : (List.finRange filenameCount)[i]? = some ⟨i, hi⟩ := by
    rw [List.getElem?_eq_getElem (by rwa [List.length_finRange]), List.getElem_finRange]
    rfl
  rw [FileSelectModel.drawn, List.getElem?_map, List.getElem?_take_of_lt hcount, hrange]
  rfl

theorem drawn_eq (hfilled : model.Filled extension (matching extension content.entries))
    (hlength : min 4 model.fileCount.toNat =
      min 4 ((matching extension content.entries).length - model.firstFileIndex.toNat)) :
    model.drawn = (((matching extension content.entries).drop
      model.firstFileIndex.toNat).take 4).map (shownName extension) := by
  apply List.ext_getElem?
  intro i
  by_cases hi : i < min 4 model.fileCount.toNat
  · have hfour : i < 4 := by omega
    have hfile : model.firstFileIndex.toNat + i <
        (matching extension content.entries).length := by omega
    have hentry := List.getElem?_eq_getElem hfile
    rw [drawn_getElem? hfour (by omega), hfilled ⟨i, hfour⟩ _ hentry, List.getElem?_map,
      List.getElem?_take_of_lt hfour, List.getElem?_drop, hentry]
    rfl
  · rw [List.getElem?_eq_none, List.getElem?_eq_none]
    · rw [List.length_map, List.length_take, List.length_drop]
      omega
    · rw [length_drawn]
      omega

theorem openedAt_lt {index : ℕ} (h : openedAt extension selected content = some index) :
    index < (matching extension content.entries).length := by
  obtain ⟨filename, -, h⟩ := Option.bind_eq_some_iff.mp h
  split at h
  · cases h
  · exact (List.findIdx?_eq_some_iff_getElem.mp h).1

theorem FileSelect.Lists.toNat_fileCount (h : fileSelect.Lists extension bufferSize content) :
    fileSelect.model.fileCount.toNat =
      (matching extension content.entries).length % 2 ^ 16 := by
  rw [h.fileCount, UInt16.toNat_ofNat']

/-- The position is on a line with a file, or on the first one when there is no file. -/
def FileSelect.OnFile (fileSelect : FileSelect) (count : ℕ) : Prop :=
  fileSelect.model.position.toNat < min 4 count ∨
    count = 0 ∧ fileSelect.model.position.toNat = 0

theorem shows_iff (h : fileSelect.Lists extension bufferSize content) :
    fileSelect.model.Shows extension content ↔
      min 4 ((matching extension content.entries).length % 2 ^ 16) =
          min 4 (matching extension content.entries).length ∧
        fileSelect.OnFile (matching extension content.entries).length := by
  have hcount := h.toNat_fileCount
  have hinside : fileSelect.model.firstFileIndex.toNat ≤ fileSelect.model.fileCount.toNat - 4 :=
    h.inside
  have hle := Nat.mod_le (matching extension content.entries).length (2 ^ 16)
  constructor
  · intro hshows
    have hlength := congrArg List.length hshows.drawn_eq
    rw [length_drawn, List.length_map, List.length_take, List.length_drop] at hlength
    refine ⟨by omega, ?_⟩
    by_cases hempty : matching extension content.entries = []
    · exact .inr ⟨by rw [hempty]; rfl, hshows.position_zero hempty⟩
    · exact .inl (hshows.position_lt hempty)
  · rintro ⟨hfit, hfile⟩
    have hdrawn := drawn_eq h.filled (by omega)
    by_cases hempty : matching extension content.entries = []
    · have hzero : (matching extension content.entries).length = 0 := by rw [hempty]; rfl
      exact ⟨fun hne => absurd hempty hne, fun _ => (by unfold FileSelect.OnFile at hfile; omega),
        fun hne => absurd hempty hne, hdrawn⟩
    · have hpos := List.length_pos_of_ne_nil hempty
      have hline : fileSelect.model.position.toNat <
          min 4 (matching extension content.entries).length := by
        unfold FileSelect.OnFile at hfile
        omega
      exact ⟨fun _ => hline, fun heq => absurd heq hempty, fun _ => (by omega), hdrawn⟩

theorem FileSelect.Lists.move (h : fileSelect.Lists extension bufferSize content)
    (hfuel : content.entries.length < fuel) (event : InputEvent) (hok : event ≠ ⟨.ok, .short⟩) :
    ∃ outcome, fileSelectInputCallback event fileSelect content.input fuel = some outcome ∧
      outcome.fileSelect.Lists extension bufferSize content ∧
      (fileSelect.model.OnLine → outcome.fileSelect.model.OnLine) ∧
      ∃ model : FileSelectModel, outcome.fileSelect.model.position = model.position ∧
        outcome.fileSelect.model.firstFileIndex = model.firstFileIndex ∧
        (event = ⟨.up, .short⟩ → fileSelect.model.Up model) ∧
        (event = ⟨.down, .short⟩ → fileSelect.model.Down model) ∧
        (event ≠ ⟨.up, .short⟩ → event ≠ ⟨.down, .short⟩ → model = fileSelect.model) := by
  obtain ⟨key, type⟩ := event
  have honLine : ∀ {fileSelect' : FileSelect} {model : FileSelectModel},
      fileSelect'.Lists extension bufferSize content →
      fileSelect'.model.position = model.position → fileSelect.model.Keeps model →
      fileSelect.model.OnLine → fileSelect'.model.OnLine := by
    intro fileSelect' model hlists hposition hkeeps hline
    have hline' := hkeeps.onLine hline
    unfold FileSelectModel.OnLine at hline' ⊢
    rwa [hposition, hlists.fileCount, ← h.fileCount, ← hkeeps.fileCount]
  by_cases hshort : type = .short
  · subst hshort
    unfold fileSelectInputCallback
    simp only [if_true, h.initCompleted, Bool.not_true, Bool.false_eq_true, if_false]
    cases key with
    | up =>
      have hup := fileSelect.model.up_cases
      obtain ⟨fileSelect', hrefill, hlists, hposition, hfirst⟩ :=
        h.refill hup.keeps.fileCount (hup.keeps.inside h.inside) hfuel
      exact ⟨_, hrefill, hlists, honLine hlists hposition hup.keeps, _, hposition, hfirst,
        fun _ => hup, by simp, by simp⟩
    | down =>
      have hdown := fileSelect.model.down_cases
      obtain ⟨fileSelect', hrefill, hlists, hposition, hfirst⟩ :=
        h.refill hdown.keeps.fileCount (hdown.keeps.inside h.inside) hfuel
      exact ⟨_, hrefill, hlists, honLine hlists hposition hdown.keeps, _, hposition, hfirst,
        by simp, fun _ => hdown, by simp⟩
    | ok => exact absurd rfl hok
    | right | left | back => exact ⟨_, rfl, h, id, _, rfl, rfl, by simp, by simp, by simp⟩
  · rw [fileSelectInputCallback, if_neg hshort]
    exact ⟨_, rfl, h, id, _, rfl, rfl, by simp [hshort], by simp [hshort], fun _ _ => rfl⟩

theorem FileSelect.copy_eq {text name : List Char}
    (hempty : fileSelect.bufferSize = 0 → text = []) :
    fileSelect.copy text name = strlcpy name fileSelect.bufferSize.toNat := by
  unfold FileSelect.copy
  split
  · next hsize =>
    rw [hempty hsize, hsize]
    rfl
  · rfl

theorem FileSelect.Lists.choose_eq (h : fileSelect.Lists extension bufferSize content) :
    fileSelectInputCallback ⟨.ok, .short⟩ fileSelect content.input fuel =
      if hline : fileSelect.model.position.toNat < filenameCount then
        some ⟨true, { fileSelect with buffer := some (strlcpy
          (fileSelect.model.filename ⟨fileSelect.model.position.toNat, hline⟩)
          fileSelect.bufferSize.toNat) }, [true]⟩
      else none := by
  obtain ⟨text, hbuffer, hempty⟩ := h.buffer
  simp only [fileSelectInputCallback, if_true, h.initCompleted, Bool.not_true, Bool.false_eq_true,
    if_false, FileSelect.choose, hbuffer, FileSelect.copy_eq hempty]

theorem FileSelect.Lists.of_choose {outcome : InputOutcome}
    (h : fileSelect.Lists extension bufferSize content)
    (houtcome : fileSelectInputCallback ⟨.ok, .short⟩ fileSelect content.input fuel =
      some outcome) :
    outcome.fileSelect.Lists extension bufferSize content ∧
      outcome.fileSelect.model = fileSelect.model ∧ outcome.results = [true] ∧
      ∀ entry, (matching extension content.entries)[fileSelect.model.firstFileIndex.toNat +
          fileSelect.model.position.toNat]? = some entry →
        outcome.fileSelect.buffer =
          some (strlcpy (shownName extension entry) fileSelect.bufferSize.toNat) := by
  rw [h.choose_eq] at houtcome
  split at houtcome
  · next hline =>
    obtain rfl := Option.some.inj houtcome
    have hempty (name : List Char) (hsize : fileSelect.bufferSize = 0) :
        strlcpy name fileSelect.bufferSize.toNat = [] := by
      rw [hsize]
      rfl
    refine ⟨⟨h.extension_eq, h.initCompleted, ⟨_, rfl, hempty _⟩, h.bufferSize_eq, h.fileCount,
      h.inside, h.filled⟩, rfl, rfl, fun entry hentry => ?_⟩
    simp only [h.filled ⟨fileSelect.model.position.toNat, hline⟩ entry hentry]
  · cases houtcome

theorem FileSelect.Lists.input (h : fileSelect.Lists extension bufferSize content)
    (hfit : min 4 ((matching extension content.entries).length % 2 ^ 16) =
      min 4 (matching extension content.entries).length)
    (hfile : fileSelect.OnFile (matching extension content.entries).length)
    (hfuel : content.entries.length < fuel) (event : InputEvent)
    (hevent : matching extension content.entries ≠ [] ∨
      event ≠ ⟨.up, .short⟩ ∧ event ≠ ⟨.ok, .short⟩) :
    ∃ outcome, fileSelectInputCallback event fileSelect content.input fuel = some outcome ∧
      outcome.fileSelect.Lists extension bufferSize content ∧
      outcome.fileSelect.OnFile (matching extension content.entries).length ∧
      (event = ⟨.ok, .short⟩ → Hands extension content fileSelect outcome) := by
  have hshows := (shows_iff h).mpr ⟨hfit, hfile⟩
  have hcount := h.toNat_fileCount
  by_cases hok : event = ⟨.ok, .short⟩
  · subst hok
    have hfiles : matching extension content.entries ≠ [] :=
      hevent.resolve_right fun hne => hne.2 rfl
    have hline := hshows.position_lt hfiles
    have hcall : (fileSelectInputCallback ⟨.ok, .short⟩ fileSelect content.input fuel).isSome := by
      rw [h.choose_eq, dif_pos (by rw [filenameCount]; omega)]
      rfl
    obtain ⟨outcome, houtcome⟩ := Option.isSome_iff_exists.mp hcall
    obtain ⟨hlists, hmodel, hresults, hbuffer⟩ := h.of_choose houtcome
    refine ⟨outcome, houtcome, hlists, ?_, fun _ => ?_⟩
    · unfold FileSelect.OnFile
      rw [hmodel]
      exact .inl hline
    · have hentry := List.getElem?_eq_getElem (hshows.index_lt hfiles)
      exact ⟨_, hentry, hresults, hbuffer _ hentry⟩
  · obtain ⟨outcome, houtcome, hlists, honLine, model, hposition, -, hup, hdown, helse⟩ :=
      h.move hfuel event hok
    refine ⟨outcome, houtcome, hlists, ?_, fun heq => absurd heq hok⟩
    have hcount' := hlists.toNat_fileCount
    have hline : fileSelect.model.OnLine := by
      intro hne
      unfold FileSelect.OnFile at hfile
      omega
    by_cases hempty : matching extension content.entries = []
    · rw [hempty, List.length_nil] at hcount
      refine .inr ⟨by rw [hempty]; rfl, ?_⟩
      have hup' := (hevent.resolve_left (not_not_intro hempty)).1
      rw [hposition]
      by_cases hdown' : event = ⟨.down, .short⟩
      · cases hdown hdown' with
        | wrap => rfl
        | scroll firstFileIndex hposition hinside => omega
        | move position hlast => omega
      · rw [helse hup' hdown']
        exact hshows.position_zero hempty
    · have hpos := List.length_pos_of_ne_nil hempty
      have hline' := honLine hline (by omega)
      exact .inl (by omega)

theorem keepsShowing_of_onFile (h : fileSelect.Lists extension bufferSize content)
    (hfit : min 4 ((matching extension content.entries).length % 2 ^ 16) =
      min 4 (matching extension content.entries).length)
    (hfile : fileSelect.OnFile (matching extension content.entries).length)
    (hevents : matching extension content.entries ≠ [] ∨ OnlyDown events) :
    KeepsShowing extension content events fileSelect := by
  induction events generalizing fileSelect with
  | nil => exact (shows_iff h).mpr ⟨hfit, hfile⟩
  | cons event events ih =>
    obtain ⟨outcome, houtcome, hlists, hfile', hhands⟩ :=
      h.input hfit hfile (Nat.lt_succ_self _) event
        (hevents.imp_right fun hdown => hdown event List.mem_cons_self)
    refine ⟨(shows_iff h).mpr ⟨hfit, hfile⟩, outcome, houtcome, hhands, ih hlists hfile' ?_⟩
    exact hevents.imp_right fun hdown event' hevent' =>
      hdown event' (List.mem_cons_of_mem _ hevent')

theorem KeepsShowing.shows (h : KeepsShowing extension content events fileSelect) :
    fileSelect.model.Shows extension content := by
  cases events with
  | nil => exact h
  | cons event events => exact h.1

theorem onlyDown_of_keepsShowing (hempty : matching extension content.entries = [])
    (h : fileSelect.Lists extension bufferSize content)
    (hkeeps : KeepsShowing extension content events fileSelect) : OnlyDown events := by
  induction events generalizing fileSelect with
  | nil => simp [OnlyDown]
  | cons event events ih =>
    obtain ⟨hshows, outcome, houtcome, hhands, htail⟩ := hkeeps
    have hok : event ≠ ⟨.ok, .short⟩ := by
      intro heq
      obtain ⟨entry, hentry, -⟩ := hhands heq
      rw [hempty] at hentry
      cases hentry
    obtain ⟨outcome', houtcome', hlists, -, model, hposition, -, hup, -, -⟩ :=
      h.move (Nat.lt_succ_self _) event hok
    obtain rfl := Option.some.inj (houtcome'.symm.trans houtcome)
    have hup' : event ≠ ⟨.up, .short⟩ := by
      intro heq
      have hzero := hshows.position_zero hempty
      have hzero' := htail.shows.position_zero hempty
      have hcount := h.toNat_fileCount
      have hfirst : fileSelect.model.firstFileIndex.toNat ≤ fileSelect.model.fileCount.toNat - 4 :=
        h.inside
      rw [hempty, List.length_nil] at hcount
      rw [hposition] at hzero'
      cases hup heq with
      | wrap position firstFileIndex hposition' hfirst' hlast hbelow hinside =>
        have hmodel : fileSelect.model.position = 0 := UInt8.toNat_inj.mp hzero
        rw [hbelow hcount, hmodel] at hzero'
        have hne : (0 - 1 : UInt8).toNat ≠ 0 := by decide
        exact absurd hzero' hne
      | scroll firstFileIndex hposition' hfirst' => omega
      | move hmove hposition' => omega
    intro event' hevent'
    rcases List.mem_cons.mp hevent' with rfl | hmem
    · exact ⟨hup', hok⟩
    · exact ih hlists htail event' hmem

theorem file_list_shows (extension : List Char) (content : DirContent) (bufferSize : UInt8)
    (selected : Option (List Char)) (events : List InputEvent) :
    ListsFiles extension content bufferSize selected events ↔
      CountFits extension content selected (matching extension content.entries).length ∧
        (matching extension content.entries ≠ [] ∨ OnlyDown events) := by
  obtain ⟨fileSelect, hrequest, hlists, hstart, hselect⟩ :=
    fileSelectRequest_content extension bufferSize content selected (Nat.lt_succ_self _)
  have hcount := hlists.toNat_fileCount
  have hposition : ∀ index, openedAt extension selected content = some index →
      fileSelect.model.position.toNat = (index % 2 ^ 16 - min (index % 2 ^ 16 - 1)
        ((matching extension content.entries).length % 2 ^ 16 - 4)) % 256 := by
    intro index hindex
    obtain ⟨model, hmodel, hposition, -⟩ := hselect index hindex
    rw [hposition, toNat_select_position, hmodel, hcount, UInt16.toNat_ofNat']
  constructor
  · rintro ⟨fileSelect', hrequest', hkeeps⟩
    obtain rfl := Option.some.inj (hrequest.symm.trans hrequest')
    obtain ⟨hfit, hfile⟩ := (shows_iff hlists).mp hkeeps.shows
    refine ⟨⟨hfit, fun index hindex => ?_⟩, or_iff_not_imp_left.mpr fun hempty => ?_⟩
    · have hlt := openedAt_lt hindex
      have hposition := hposition index hindex
      unfold FileSelect.OnFile at hfile
      omega
    · exact onlyDown_of_keepsShowing (not_not.mp hempty) hlists hkeeps
  · rintro ⟨⟨hfit, hselected⟩, hevents⟩
    refine ⟨fileSelect, hrequest, keepsShowing_of_onFile hlists hfit ?_ hevents⟩
    unfold FileSelect.OnFile
    cases hopened : openedAt extension selected content with
    | none =>
      rw [(hstart hopened).1, UInt8.toNat_zero]
      omega
    | some index =>
      have hlt := openedAt_lt hopened
      have hposition := hposition index hopened
      have hselected := hselected index hopened
      left
      omega

/-- Up in the list of an empty directory. -/
theorem file_list_leaves : ¬ ∀ extension content bufferSize selected events,
    ListsFiles extension content bufferSize selected events := by
  intro h
  obtain ⟨fileSelect, hrequest, hkeeps⟩ := h ['*'] ⟨[], by simp⟩ 23 none [⟨.up, .short⟩]
  obtain ⟨fileSelect', hrequest', hlists, -⟩ :=
    fileSelectRequest_content ['*'] 23 ⟨[], by simp⟩ none (Nat.lt_succ_self _)
  obtain rfl := Option.some.inj (hrequest'.symm.trans hrequest)
  exact (onlyDown_of_keepsShowing rfl hlists hkeeps _ List.mem_cons_self).1 rfl

end FlipperZero.Gui
