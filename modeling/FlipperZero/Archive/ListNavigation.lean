import FlipperZero.Archive.Browser

/-! # The selected file and its window

An event keeps the selected file inside the list and inside its four rows, except where the files
have changed under it or the window is asked to jump: the window moves by one row in one call.
-/

namespace FlipperZero.Archive

open Lib Gui Input ArchiveViewModel

/-- The selected file exists, and the window of four rows lies in the list and shows it. -/
structure ArchiveViewModel.Shows (model : ArchiveViewModel) : Prop where
  idx_lt : model.size ≠ 0 → model.idx.toNat < model.size
  idx_eq : model.size = 0 → model.idx.toNat = 0
  offset_le : model.listOffset.toNat ≤ model.size - 4
  le_idx : model.listOffset.toNat ≤ model.idx.toNat
  lt_offset : model.idx.toNat < model.listOffset.toNat + 4

def InList (idx size : ℕ) : Prop := idx < size ∨ size = 0 ∧ idx = 0

/-- One call of `update_offset` brings the window to the index, or to the last file when the index
is beyond it. -/
def Reaches (offset idx size : ℕ) : Prop :=
  (size < 4 ∧ (idx < offset + size ∨ offset = 0 ∧ idx = size)) ∨
    4 ≤ size ∧
      (offset + 2 < idx ∧ (idx ≤ offset + 4 ∨ size ≤ offset + 5) ∨
        idx = offset + 2 ∧ idx + 2 ≤ size ∨
        idx < offset + 2 ∧ (idx + 3 ≤ size ∨ idx = 0))

variable {model : ArchiveViewModel}

theorem shows_iff : model.Shows ↔ InList model.idx.toNat model.size ∧
    model.listOffset.toNat ≤ model.size - 4 ∧ model.listOffset.toNat ≤ model.idx.toNat ∧
      model.idx.toNat < model.listOffset.toNat + 4 := by
  unfold InList
  constructor
  · rintro ⟨hlt, heq, hoffset, hle, hwindow⟩
    exact ⟨by omega, hoffset, hle, hwindow⟩
  · rintro ⟨hin, hoffset, hle, hwindow⟩
    exact ⟨by omega, by omega, hoffset, hle, hwindow⟩

theorem shows_congr {model' : ArchiveViewModel} (hidx : model'.idx = model.idx)
    (hoffset : model'.listOffset = model.listOffset) (hfiles : model'.files = model.files) :
    model'.Shows ↔ model.Shows := by
  have hsize : model'.size = model.size := congrArg (fun l => l.files.length) hfiles
  rw [shows_iff, shows_iff, hidx, hoffset, hsize]

theorem shows_updateOffset_iff : model.updateOffset.Shows ↔
    InList model.idx.toNat model.size ∧
      Reaches model.listOffset.toNat model.idx.toNat model.size := by
  rw [shows_iff, idx_updateOffset, size_updateOffset, listOffset_updateOffset]
  unfold InList Reaches nextOffset
  split_ifs <;> omega

theorem shows_withIdx_iff {idx : UInt16} : ArchiveViewModel.Shows { model with idx := idx } ↔
    InList idx.toNat model.size ∧ model.listOffset.toNat ≤ model.size - 4 ∧
      model.listOffset.toNat ≤ idx.toNat ∧ idx.toNat < model.listOffset.toNat + 4 :=
  shows_iff

theorem shows_updateOffset_withIdx_iff {idx : UInt16} :
    (ArchiveViewModel.updateOffset { model with idx := idx }).Shows ↔
      InList idx.toNat model.size ∧ Reaches model.listOffset.toNat idx.toNat model.size :=
  shows_updateOffset_iff

theorem shows_deleted_iff : ArchiveViewModel.Shows { model.updateOffset with
      idx := .ofNat (clamp model.updateOffset.idx.toNat (sizeSub model.updateOffset.size 1)) } ↔
    (model.size = 0 → model.idx.toNat = 0) ∧
      Reaches model.listOffset.toNat model.idx.toNat model.size := by
  have hsize : model.size < 2 ^ 32 := model.files.size_lt
  have hidx := model.idx.toNat_lt
  have hclamp : (UInt16.ofNat (clamp model.idx.toNat (sizeSub model.size 1))).toNat =
      min (sizeSub model.size 1) model.idx.toNat := by
    rw [toNat_ofNat_clamp (by omega)]
    rfl
  rw [shows_withIdx_iff, idx_updateOffset, size_updateOffset, listOffset_updateOffset, hclamp]
  unfold InList Reaches
  by_cases hsmall : model.size < 4
  · rw [nextOffset, if_pos hsmall]
    rcases Nat.eq_zero_or_pos model.size with hzero | hpos
    · rw [hzero, sizeSub_of_lt Nat.one_pos (by decide)]
      split_ifs <;> omega
    · rw [sizeSub_of_le hpos hsize]
      split_ifs <;> omega
  · rw [nextOffset, if_neg hsmall, sizeSub_of_le (by omega) hsize]
    split_ifs <;> omega

theorem reaches_zero (offset size : ℕ) : InList 0 size ∧ Reaches offset 0 size := by
  unfold InList Reaches
  omega

theorem ArchiveViewModel.Shows.drawn (h : model.Shows) : ∀ i ∈ model.drawn, i < model.size := by
  have hsize : model.size < 2 ^ 32 := model.files.size_lt
  intro i hi
  unfold ArchiveViewModel.drawn at hi
  split at hi
  · next hpos =>
    rcases List.mem_append.mp hi with hi | hi
    · obtain ⟨row, -, rfl⟩ := List.mem_map.mp hi
      unfold sizeSub
      omega
    · split at hi
      · rw [List.mem_singleton.mp hi]
        exact h.idx_lt (Nat.ne_of_gt hpos)
      · cases hi
  · cases hi

namespace ArchiveApp

/-- The window shows the selected file, and every access to a file was inside of the array. -/
structure Browsing (app : ArchiveApp) : Prop where
  shows : app.model.Shows
  gets : ∀ get ∈ app.gets, get.1 < get.2

/-- What may have changed when a directory is left, a file is deleted or renamed, or a key is
pressed in an empty list or in the menu. -/
def Keeps (app : ArchiveApp) : Label → Prop
  | .input event listing =>
    if app.browser.menu then
      event.key = .ok → event.type = .short → app.model.size ≠ 0 ∧
        (app.model.menuIdx = 3 →
          (listing.files.length = 0 → app.model.idx.toNat = 0) ∧
            Reaches app.model.listOffset.toNat app.model.idx.toNat listing.files.length)
    else
      (event.key = .back → event.type = .short → app.browser.depth ≠ 0 →
        let idx := (app.browser.lastIdx (clamp (app.browser.depth - 1) maxDepth)).toNat
        InList idx listing.files.length ∧
          Reaches app.model.listOffset.toNat idx listing.files.length) ∧
      (event.key = .down → event.type = .short ∨ event.type = .repeated → app.model.size ≠ 0)
  | .renamed listing => InList app.model.idx.toNat listing.files.length ∧
      app.model.listOffset.toNat ≤ listing.files.length - 4
  | .previous => True

variable {app app' : ArchiveApp} {listing : Listing} {l : Label}

theorem Browsing.iff_shows (h : app.Browsing) (app' : ArchiveApp) (hgets : app'.gets = app.gets) :
    app'.Browsing ↔ app'.model.Shows :=
  ⟨Browsing.shows, fun hshows => ⟨hshows, hgets ▸ h.gets⟩⟩

theorem browsing_of_first (h : app.Browsing) (hgets : app'.gets = app.gets)
    (hmodel : app'.model = { app.model with idx := 0, files := listing }.updateOffset) :
    app'.Browsing := by
  rw [h.iff_shows app' hgets, hmodel, shows_updateOffset_iff]
  exact reaches_zero _ _

theorem Browsing.switchTab (h : app.Browsing) : (app.switchTab listing).Browsing :=
  browsing_of_first h rfl rfl

theorem size_switchTab : (app.switchTab listing).model.size = listing.files.length :=
  size_updateOffset _

theorem Browsing.enterDir (h : app.Browsing) : (app.enterDir listing).Browsing :=
  browsing_of_first h rfl rfl

theorem browsing_leaveDir_iff (h : app.Browsing) : (app.leaveDir listing).Browsing ↔
    InList (app.browser.lastIdx (clamp (app.browser.depth - 1) maxDepth)).toNat
        listing.files.length ∧
      Reaches app.model.listOffset.toNat
        (app.browser.lastIdx (clamp (app.browser.depth - 1) maxDepth)).toNat
        listing.files.length :=
  (h.iff_shows (app.leaveDir listing) rfl).trans shows_updateOffset_iff

theorem browsing_deleteFile_iff (h : app.Browsing) : (app.deleteFile listing).Browsing ↔
    (listing.files.length = 0 → app.model.idx.toNat = 0) ∧
      Reaches app.model.listOffset.toNat app.model.idx.toNat listing.files.length :=
  (h.iff_shows (app.deleteFile listing) rfl).trans shows_deleted_iff

theorem browsing_textInputCallback_iff (h : app.Browsing) :
    (app.textInputCallback listing).Browsing ↔ InList app.model.idx.toNat listing.files.length ∧
      app.model.listOffset.toNat ≤ listing.files.length - 4 := by
  have hshows := (shows_iff.mp h.shows).2.2
  rw [h.iff_shows (app.textInputCallback listing) rfl, shows_iff]
  exact ⟨fun hin => ⟨hin.1, hin.2.1⟩, fun hin => ⟨hin.1, hin.2, hshows⟩⟩

theorem shows_setIdx_iff {x : ℤ} {idx : ℕ}
    (hidx : (UInt16.ofNat (clamp x (sizeSub app.model.size 1))).toNat = idx) :
    (app.setIdx x).model.Shows ↔
      InList idx app.model.size ∧ Reaches app.model.listOffset.toNat idx app.model.size := by
  have hmodel : (app.setIdx x).model = ArchiveViewModel.updateOffset
      { app.model with idx := .ofNat (clamp x (sizeSub app.model.size 1)) } := rfl
  rw [hmodel, shows_updateOffset_withIdx_iff, hidx]

theorem Browsing.up (h : app.Browsing) : (app.setIdx (app.model.idx.toNat - 1)).Browsing := by
  have hsize : app.model.size < 2 ^ 32 := app.model.files.size_lt
  have hidx := app.model.idx.toNat_lt
  have hclamp : (UInt16.ofNat (clamp (app.model.idx.toNat - 1) (sizeSub app.model.size 1))).toNat =
      min ((app.model.size + (2 ^ 32 - 1)) % 2 ^ 32) (app.model.idx.toNat - 1) := by
    rw [toNat_ofNat_clamp (by omega), clamp, sizeSub]
    congr 1
    omega
  obtain ⟨hin, hoffset, hle, hwindow⟩ := shows_iff.mp h.shows
  rw [h.iff_shows (app.setIdx (app.model.idx.toNat - 1)) rfl]
  apply (shows_setIdx_iff hclamp).mpr
  unfold InList Reaches at *
  omega

theorem browsing_down_iff (h : app.Browsing) :
    (app.setIdx (app.model.idx.toNat + 1)).Browsing ↔ app.model.size ≠ 0 := by
  have hsize : app.model.size < 2 ^ 32 := app.model.files.size_lt
  have hidx := app.model.idx.toNat_lt
  have hclamp : (UInt16.ofNat (clamp (app.model.idx.toNat + 1) (sizeSub app.model.size 1))).toNat =
      min ((app.model.size + (2 ^ 32 - 1)) % 2 ^ 32) (app.model.idx.toNat + 1) % 2 ^ 16 :=
    UInt16.toNat_ofNat'
  obtain ⟨hin, hoffset, hle, hwindow⟩ := shows_iff.mp h.shows
  rw [h.iff_shows (app.setIdx (app.model.idx.toNat + 1)) rfl]
  apply (shows_setIdx_iff hclamp).trans
  unfold InList Reaches at *
  omega

theorem Browsing.of_same (h : app.Browsing) (hidx : app'.model.idx = app.model.idx)
    (hoffset : app'.model.listOffset = app.model.listOffset)
    (hfiles : app'.model.files = app.model.files) (hgets : app'.gets = app.gets) : app'.Browsing :=
  ⟨(shows_congr hidx hoffset hfiles).mpr h.shows, hgets ▸ h.gets⟩

theorem browsing_closeFileMenu_iff : app.closeFileMenu.Browsing ↔ app.Browsing :=
  ⟨fun h => h.of_same rfl rfl rfl rfl, fun h => h.of_same rfl rfl rfl rfl⟩

theorem browsing_get_iff (h : app.Browsing) : app.get.1.Browsing ↔ app.model.size ≠ 0 := by
  have hzero := h.shows.idx_eq
  have hlt := h.shows.idx_lt
  constructor
  · intro hget hsize
    have hmem := hget.gets (app.model.idx.toNat, app.model.size)
      (List.mem_append_right _ (List.mem_singleton_self _))
    rw [hsize] at hmem
    exact absurd hmem (Nat.not_lt_zero _)
  · intro hsize
    refine ⟨h.shows, fun get hget => ?_⟩
    rcases List.mem_append.mp hget with hget | hget
    · exact h.gets get hget
    · rw [List.mem_singleton.mp hget]
      exact hlt hsize

theorem Browsing.get_some (h : app.Browsing) (hsize : app.model.size ≠ 0) :
    ∃ selected, app.get = (app.get.1, some selected) :=
  ⟨_, Prod.ext rfl (List.getElem?_eq_getElem (h.shows.idx_lt hsize))⟩

theorem get_none (hsize : app.model.size = 0) : app.get = (app.get.1, none) :=
  Prod.ext rfl (List.getElem?_eq_none (Nat.le_trans (Nat.le_of_eq hsize) (Nat.zero_le _)))

theorem browsing_fileMenuCallback_iff (h : app.Browsing) :
    (app.fileMenuCallback listing).Browsing ↔ app.model.size ≠ 0 ∧
      (app.model.menuIdx = 3 →
        (listing.files.length = 0 → app.model.idx.toNat = 0) ∧
          Reaches app.model.listOffset.toNat app.model.idx.toNat listing.files.length) := by
  have hget := browsing_get_iff h
  unfold fileMenuCallback
  by_cases hsize : app.model.size = 0
  · rw [get_none hsize]
    exact hget.trans ⟨fun hne => absurd hsize hne, fun hne => hne.1⟩
  · obtain ⟨selected, heq⟩ := h.get_some hsize
    have hbrowsing := hget.mpr hsize
    have hother {n : ℕ} (hidx : app.model.menuIdx = n) (hn : n ≠ 3) : app.model.size ≠ 0 ∧
        (app.model.menuIdx = 3 →
          (listing.files.length = 0 → app.model.idx.toNat = 0) ∧
            Reaches app.model.listOffset.toNat app.model.idx.toNat listing.files.length) :=
      ⟨hsize, fun hthree => absurd (hidx.symm.trans hthree) hn⟩
    rw [heq]
    dsimp only
    split
    · next hidx => exact iff_of_true hbrowsing (hother hidx (by decide))
    · next hidx =>
      exact iff_of_true (hbrowsing.of_same rfl rfl rfl rfl) (hother hidx (by decide))
    · next hidx =>
      exact iff_of_true (hbrowsing.of_same rfl rfl rfl rfl) (hother hidx (by decide))
    · next hidx =>
      rw [browsing_closeFileMenu_iff, browsing_deleteFile_iff hbrowsing]
      exact ⟨fun hdelete => ⟨hsize, fun _ => hdelete⟩, fun hdelete => hdelete.2 hidx⟩
    · next hthree =>
      exact iff_of_true (hbrowsing.of_same rfl rfl rfl rfl) (hother rfl hthree)

theorem Browsing.okInput (h : app.Browsing) (type : InputType) :
    (app.okInput listing type).Browsing := by
  unfold ArchiveApp.okInput
  split
  · next hsize =>
    obtain ⟨selected, heq⟩ := h.get_some (Nat.ne_of_gt hsize)
    have hbrowsing := (browsing_get_iff h).mpr (Nat.ne_of_gt hsize)
    have hnamed : ArchiveApp.Browsing { app.get.1 with
        browser := { app.get.1.browser with name := selected.name } } :=
      hbrowsing.of_same rfl rfl rfl rfl
    rw [heq]
    dsimp only
    split
    · cases type with
      | short => exact hnamed.enterDir
      | long => exact hnamed.of_same rfl rfl rfl rfl
      | press | release | repeated => exact hnamed
    · split
      · exact hnamed.of_same rfl rfl rfl rfl
      · exact hnamed
  · exact h

theorem browsing_menuInputHandler_iff (h : app.Browsing) (event : InputEvent) :
    (app.menuInputHandler listing event).Browsing ↔
      (event.key = .ok → event.type = .short → app.model.size ≠ 0 ∧
        (app.model.menuIdx = 3 →
          (listing.files.length = 0 → app.model.idx.toNat = 0) ∧
            Reaches app.model.listOffset.toNat app.model.idx.toNat listing.files.length)) := by
  obtain ⟨key, type⟩ := event
  unfold menuInputHandler
  split
  · next htype =>
    cases key with
    | up | down | back =>
      exact iff_of_true (h.of_same rfl rfl rfl rfl) InputKey.noConfusion
    | left | right => exact iff_of_true h InputKey.noConfusion
    | ok =>
      refine (browsing_fileMenuCallback_iff h).trans ?_
      exact ⟨fun hkeeps _ _ => hkeeps, fun hkeeps => hkeeps rfl htype⟩
  · next htype => exact iff_of_true h fun _ hshort => absurd hshort htype

theorem browsing_viewInput_iff (h : app.Browsing) (event : InputEvent) :
    (app.viewInput listing event).Browsing ↔ app.Keeps (.input event listing) := by
  unfold viewInput Keeps
  split
  · exact browsing_menuInputHandler_iff h event
  · obtain ⟨key, type⟩ := event
    cases key with
    | left | right =>
      refine iff_of_true ?_ (by simp)
      cases type with
      | short => exact Browsing.switchTab (h.of_same rfl rfl rfl rfl)
      | press | release | long | repeated => exact h
    | back =>
      cases type with
      | short =>
        simp only [reduceCtorEq, IsEmpty.forall_iff, and_true, forall_const]
        split
        · next hdepth => exact iff_of_true (h.of_same rfl rfl rfl rfl) (absurd hdepth)
        · next hdepth =>
          refine (browsing_leaveDir_iff h).trans ?_
          exact ⟨fun hkeeps _ => hkeeps, fun hkeeps => hkeeps hdepth⟩
      | press | release | long | repeated => exact iff_of_true h (by simp)
    | up =>
      refine iff_of_true ?_ (by simp)
      cases type with
      | short | repeated => exact h.up
      | press | release | long => exact h
    | down =>
      cases type with
      | short | repeated =>
        refine (browsing_down_iff h).trans ?_
        simp
      | press | release | long => exact iff_of_true h (by simp)
    | ok => exact iff_of_true (h.okInput type) (by simp)

theorem browsing_next_iff {first : Listing} (h : app.Browsing)
    (hs : (machine first).next app l = some app') : app'.Browsing ↔ app.Keeps l := by
  cases l with
  | input event listing =>
    simp only [machine] at hs
    split at hs
    · cases hs
    · exact Option.some.inj hs ▸ browsing_viewInput_iff h event
  | renamed listing =>
    simp only [machine] at hs
    split at hs
    · exact Option.some.inj hs ▸ browsing_textInputCallback_iff h
    · cases hs
  | previous =>
    simp only [machine] at hs
    split at hs
    · exact Option.some.inj hs ▸ iff_of_true (h.of_same rfl rfl rfl rfl) trivial
    · cases hs

theorem browsing_init (first : Listing) : (machine first).init.Browsing := by
  have halloc : alloc.Browsing :=
    ⟨shows_iff.mpr ⟨.inr ⟨rfl, rfl⟩, Nat.le_refl 0, Nat.le_refl 0, by decide⟩, by simp [alloc]⟩
  exact halloc.switchTab

end ArchiveApp

/-- In every run whose events meet the condition the selected file exists and is one of the four
that are shown, and no file is accessed outside of the array, by an event or when the view is drawn.
From every state of such a run the next event keeps this if and only if it meets the condition. -/
theorem archive_list_navigation {first : Listing} {app : ArchiveApp}
    (hreach : (ArchiveApp.machine first).ReachableWith ArchiveApp.Keeps app) :
    app.Browsing ∧ (∀ i ∈ app.model.drawn, i < app.model.size) ∧
      ∀ l app', (ArchiveApp.machine first).next app l = some app' →
        (app'.Browsing ↔ app.Keeps l) := by
  have hbrowsing : app.Browsing := hreach.invariant (P := ArchiveApp.Browsing)
    (ArchiveApp.browsing_init first)
    fun _ _ _ h hkeeps hs => (ArchiveApp.browsing_next_iff h hs).mpr hkeeps
  exact ⟨hbrowsing, hbrowsing.shows.drawn, fun _ _ hs =>
    ArchiveApp.browsing_next_iff hbrowsing hs⟩

/-- Down in a list of two files. -/
theorem archive_list_navigation_down : ∃ (first : Listing) (app : ArchiveApp),
    first.files.length = 2 ∧
      (ArchiveApp.machine first).next (ArchiveApp.machine first).init
        (.input ⟨.down, .short⟩ first) = some app ∧ app.Browsing := by
  let files : Listing := ⟨[⟨['a'], .unknown⟩, ⟨['b'], .unknown⟩], by decide, by decide⟩
  have hkeeps : (ArchiveApp.machine files).init.Keeps (.input ⟨.down, .short⟩ files) := by
    refine ⟨InputKey.noConfusion, fun _ _ => ?_⟩
    rw [ArchiveApp.machine, ArchiveApp.size_switchTab]
    exact Nat.succ_ne_zero 1
  have hdown := Machine.ReachableWith.init.step hkeeps rfl
  exact ⟨files, _, rfl, rfl, (archive_list_navigation hdown).1⟩

/-- Down in an empty list. -/
theorem archive_list_navigation_empty : ¬∀ (first : Listing) (app : ArchiveApp),
    (ArchiveApp.machine first).Reachable app → app.Browsing := by
  intro h
  let files : Listing := ⟨[], by decide, by decide⟩
  have hdown : ArchiveApp.Browsing ((ArchiveApp.machine files).init.setIdx _) :=
    h files _ (Machine.Reachable.step (l := .input ⟨.down, .short⟩ files) .init rfl)
  exact (ArchiveApp.browsing_down_iff (ArchiveApp.browsing_init files)).mp hdown
    ArchiveApp.size_switchTab

end FlipperZero.Archive
