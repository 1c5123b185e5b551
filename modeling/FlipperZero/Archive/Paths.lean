import FlipperZero.Archive.Browser

/-! # The path and the depth

The path is the root of the tab with one name for each level of the depth, as long as the depth
does not reach the end of the stack of selections, where it stops while the path goes on.
-/

namespace FlipperZero.Archive

open Lib Gui Input

/-- The path is reached from the root by entering directories from these paths, the last first. -/
inductive EnteredFrom (root : List Char) : List Char → List (List Char) → Prop where
  | root : EnteredFrom root root []
  | enter {path : List Char} {paths : List (List Char)} (name : List Char)
    (h : EnteredFrom root path paths) (hname : '/' ∉ name) :
    EnteredFrom root (path ++ '/' :: name) (path :: paths)

/-- A root followed by names, each after a separator. -/
def pathOf (root : List Char) (names : List (List Char)) : List Char :=
  root ++ names.flatMap ('/' :: ·)

variable {root path : List Char} {paths : List (List Char)}

theorem EnteredFrom.pathOf (h : EnteredFrom root path paths) : ∃ names : List (List Char),
    names.length = paths.length ∧ (∀ name ∈ names, '/' ∉ name) ∧ path = pathOf root names := by
  induction h with
  | root => exact ⟨[], rfl, by simp, by simp [Archive.pathOf]⟩
  | enter name h hname ih =>
    obtain ⟨names, hlength, hnames, rfl⟩ := ih
    refine ⟨names ++ [name], by simp [hlength], ?_, by simp [Archive.pathOf]⟩
    intro name' hmem
    rcases List.mem_append.mp hmem with hmem | hmem
    · exact hnames name' hmem
    · exact List.mem_singleton.mp hmem ▸ hname

theorem cutLast_append {name : List Char} (hname : '/' ∉ name) :
    ArchiveApp.cutLast (path ++ '/' :: name) = path := by
  have hdrop : (name.reverse ++ '/' :: path.reverse).dropWhile (· ≠ '/') = '/' :: path.reverse := by
    rw [List.dropWhile_append_of_pos]
    · simp
    · intro c hc
      have hmem := List.mem_reverse.mp hc
      simp only [decide_not, Bool.not_eq_eq_eq_not, Bool.not_true, decide_eq_false_iff_not]
      exact fun heq => hname (heq ▸ hmem)
  rw [ArchiveApp.cutLast, if_pos (by simp), List.reverse_append, List.reverse_cons,
    List.append_assoc, List.singleton_append, hdrop, List.drop_one, List.tail_cons,
    List.reverse_reverse]

namespace ArchiveApp

/-- The path is entered from the root of the tab through as many directories as the depth, and
`last_idx` was only used inside of its bounds. -/
structure InStep (app : ArchiveApp) : Prop where
  path : EnteredFrom (tabDefaultPaths app.browser.tabId) app.browser.path app.entered
  depth : app.entered.length = app.browser.depth
  depth_le : app.browser.depth ≤ maxDepth
  uses : ∀ i ∈ app.lastIdxUses, i < maxDepth

def Enters (app : ArchiveApp) (event : InputEvent) : Prop :=
  app.browser.menu = false ∧ event = ⟨.ok, .short⟩ ∧
    ∃ file, app.model.files.files[app.model.idx.toNat]? = some file ∧ file.type = .folder

/-- A directory is entered only where the stack has room. -/
def KeepsDepth (app : ArchiveApp) : Label → Prop
  | .input event _ => app.Enters event → app.browser.depth < maxDepth
  | .renamed _ | .previous => True

variable {app app' : ArchiveApp} {listing : Listing} {l : Label}

theorem InStep.of_same (h : app.InStep) (htab : app'.browser.tabId = app.browser.tabId)
    (hpath : app'.browser.path = app.browser.path) (hdepth : app'.browser.depth = app.browser.depth)
    (huses : app'.lastIdxUses = app.lastIdxUses) (hentered : app'.entered = app.entered) :
    app'.InStep := by
  constructor
  · rw [htab, hpath, hentered]
    exact h.path
  · rw [hentered, hdepth, h.depth]
  · exact hdepth ▸ h.depth_le
  · exact huses ▸ h.uses

theorem inStep_switchTab (huses : ∀ i ∈ app.lastIdxUses, i < maxDepth) :
    (app.switchTab listing).InStep where
  path := .root
  depth := rfl
  depth_le := Nat.zero_le _
  uses := huses

theorem InStep.leaveDir (h : app.InStep) (hdepth : app.browser.depth ≠ 0) :
    (app.leaveDir listing).InStep ∧
      app.entered.head? = some (app.leaveDir listing).browser.path := by
  have hle := h.depth_le
  have hclamp : clamp (app.browser.depth - 1) maxDepth = app.browser.depth - 1 := by
    unfold clamp
    omega
  have hpath := h.path
  have hlength := h.depth
  cases hentered : app.entered with
  | nil =>
    rw [hentered] at hlength
    exact absurd hlength.symm hdepth
  | cons path paths =>
    rw [hentered] at hpath hlength
    generalize hbrowser : app.browser.path = current at hpath
    cases hpath with
    | enter name hpath hname =>
      have hcut : (app.leaveDir listing).browser.path = path := by
        show cutLast app.browser.path = path
        rw [hbrowser, cutLast_append hname]
      refine ⟨⟨?_, ?_, ?_, ?_⟩, congrArg some hcut.symm⟩
      · rw [hcut]
        show EnteredFrom _ path app.entered.tail
        rw [hentered]
        exact hpath
      · show app.entered.tail.length = clamp (app.browser.depth - 1) maxDepth
        rw [hentered, hclamp, ← hlength]
        rfl
      · show clamp (app.browser.depth - 1) maxDepth ≤ maxDepth
        exact Nat.min_le_left _ _
      · intro i hi
        rcases List.mem_append.mp hi with hi | hi
        · exact h.uses i hi
        · rw [List.mem_singleton.mp hi, hclamp]
          omega

theorem browser_updateLastIdx : app.updateLastIdx.browser.tabId = app.browser.tabId ∧
    app.updateLastIdx.browser.name = app.browser.name ∧
      app.updateLastIdx.browser.depth = app.browser.depth := by
  unfold updateLastIdx
  dsimp only
  split <;> exact ⟨rfl, rfl, rfl⟩

theorem depth_enterDir (hlt : app.browser.depth < maxDepth) :
    (app.enterDir listing).browser.depth = app.browser.depth + 1 := by
  show clamp (app.updateLastIdx.browser.depth + 1) maxDepth = app.browser.depth + 1
  rw [app.browser_updateLastIdx.2.2]
  unfold clamp
  omega

theorem menu_enterDir (hlt : app.browser.depth < maxDepth) :
    (app.enterDir listing).browser.menu = app.browser.menu := by
  show app.updateLastIdx.browser.menu = app.browser.menu
  unfold updateLastIdx
  dsimp only
  rw [if_pos hlt]

theorem inStep_enterDir_iff (h : app.InStep) (hname : '/' ∉ app.browser.name) :
    (app.enterDir listing).InStep ↔ app.browser.depth < maxDepth := by
  obtain ⟨htab, hname', -⟩ := app.browser_updateLastIdx
  constructor
  · intro henter
    exact henter.uses app.browser.depth (List.mem_append_right _ (List.mem_singleton_self _))
  · intro hlt
    constructor
    · show EnteredFrom (tabDefaultPaths app.updateLastIdx.browser.tabId)
        (app.browser.path ++ '/' :: app.updateLastIdx.browser.name)
        (app.browser.path :: app.entered)
      rw [htab, hname']
      exact .enter _ h.path hname
    · rw [depth_enterDir hlt, ← h.depth]
      rfl
    · rw [depth_enterDir hlt]
      exact hlt
    · intro i hi
      rcases List.mem_append.mp hi with hi | hi
      · exact h.uses i hi
      · rw [List.mem_singleton.mp hi]
        exact hlt

theorem InStep.menuInputHandler (h : app.InStep) (event : InputEvent) :
    (app.menuInputHandler listing event).InStep := by
  unfold ArchiveApp.menuInputHandler
  split
  · split
    · exact h.of_same rfl rfl rfl rfl rfl
    · exact h.of_same rfl rfl rfl rfl rfl
    · have hget : app.get.1.InStep := h.of_same rfl rfl rfl rfl rfl
      unfold fileMenuCallback
      split
      · next got heq =>
        have hfst : app.get.1 = got := congrArg Prod.fst heq
        exact hfst ▸ hget
      · next got selected heq =>
        have hfst : app.get.1 = got := congrArg Prod.fst heq
        have hgot : got.InStep := hfst ▸ hget
        split
        · exact hgot
        · exact hgot.of_same rfl rfl rfl rfl rfl
        · exact hgot.of_same rfl rfl rfl rfl rfl
        · exact hgot.of_same rfl rfl rfl rfl rfl
        · exact hgot.of_same rfl rfl rfl rfl rfl
    · exact h.of_same rfl rfl rfl rfl rfl
    · exact h
    · exact h
  · exact h

theorem inStep_okInput_iff (h : app.InStep) (hmenu : app.browser.menu = false) (type : InputType) :
    (app.okInput listing type).InStep ↔
      (app.Enters ⟨.ok, type⟩ → app.browser.depth < maxDepth) := by
  have hget : app.get.1.InStep := h.of_same rfl rfl rfl rfl rfl
  unfold okInput get
  cases hfile : app.model.files.files[app.model.idx.toNat]? with
  | none =>
    have henters : ¬app.Enters ⟨.ok, type⟩ := by
      rintro ⟨-, -, file, hsome, -⟩
      cases hfile.symm.trans hsome
    refine iff_of_true ?_ (absurd · henters)
    split
    · exact hget
    · exact h
  | some selected =>
    have hsize : app.model.size > 0 := Nat.zero_lt_of_lt (List.getElem?_eq_some_iff.mp hfile).1
    have hname := app.model.files.slash_notMem selected (List.mem_of_getElem? hfile)
    have hnamed : ArchiveApp.InStep { app.get.1 with
        browser := { app.get.1.browser with name := selected.name } } :=
      hget.of_same rfl rfl rfl rfl rfl
    have hother (hne : selected.type ≠ .folder ∨ type ≠ .short) : ¬app.Enters ⟨.ok, type⟩ := by
      rintro ⟨-, hevent, file, hsome, hfolder⟩
      obtain rfl := Option.some.inj (hfile.symm.trans hsome)
      obtain ⟨-, rfl⟩ := InputEvent.mk.inj hevent
      exact hne.elim (absurd hfolder) (absurd rfl)
    rw [if_pos hsize]
    dsimp only
    split
    · next hfolder =>
      cases type with
      | short =>
        refine (inStep_enterDir_iff hnamed hname).trans ?_
        exact ⟨fun hlt _ => hlt, fun hlt => hlt ⟨hmenu, rfl, selected, hfile, hfolder⟩⟩
      | long =>
        refine iff_of_true (hnamed.of_same rfl rfl rfl rfl rfl) (absurd · (hother (.inr ?_)))
        exact InputType.noConfusion
      | press | release | repeated =>
        exact iff_of_true hnamed (absurd · (hother (.inr InputType.noConfusion)))
    · next hfolder =>
      refine iff_of_true ?_ (absurd · (hother (.inl hfolder)))
      split
      · exact hnamed.of_same rfl rfl rfl rfl rfl
      · exact hnamed

theorem inStep_viewInput_iff (h : app.InStep) (event : InputEvent) :
    (app.viewInput listing event).InStep ↔ app.KeepsDepth (.input event listing) := by
  have hother (hne : event.key ≠ .ok) : app.KeepsDepth (.input event listing) := by
    rintro ⟨-, rfl, -⟩
    exact absurd rfl hne
  unfold viewInput
  split
  · next hmenu =>
    refine iff_of_true (h.menuInputHandler event) ?_
    rintro ⟨hclosed, -⟩
    exact absurd hclosed (by rw [hmenu]; decide)
  · next hmenu =>
    obtain ⟨key, type⟩ := event
    cases key with
    | left | right =>
      refine iff_of_true ?_ (hother InputKey.noConfusion)
      cases type with
      | short => exact inStep_switchTab h.uses
      | press | release | long | repeated => exact h
    | back =>
      refine iff_of_true ?_ (hother InputKey.noConfusion)
      cases type with
      | short =>
        simp only
        split
        · exact h.of_same rfl rfl rfl rfl rfl
        · next hdepth => exact (h.leaveDir hdepth).1
      | press | release | long | repeated => exact h
    | up | down =>
      refine iff_of_true ?_ (hother InputKey.noConfusion)
      cases type with
      | short | repeated => exact h.of_same rfl rfl rfl rfl rfl
      | press | release | long => exact h
    | ok => exact inStep_okInput_iff h (Bool.eq_false_iff.mpr hmenu) type

theorem inStep_next_iff {first : Listing} (h : app.InStep)
    (hs : (machine first).next app l = some app') : app'.InStep ↔ app.KeepsDepth l := by
  cases l with
  | input event listing =>
    simp only [machine] at hs
    split at hs
    · cases hs
    · exact Option.some.inj hs ▸ inStep_viewInput_iff h event
  | renamed listing =>
    simp only [machine] at hs
    split at hs
    · exact Option.some.inj hs ▸ iff_of_true (h.of_same rfl rfl rfl rfl rfl) trivial
    · cases hs
  | previous =>
    simp only [machine] at hs
    split at hs
    · exact Option.some.inj hs ▸ iff_of_true (h.of_same rfl rfl rfl rfl rfl) trivial
    · cases hs

theorem InStep.root_of_depth (h : app.InStep) (hdepth : app.browser.depth = 0) :
    app.browser.path = tabDefaultPaths app.browser.tabId := by
  have hpath := h.path
  have hentered : app.entered = [] := List.eq_nil_of_length_eq_zero (h.depth.trans hdepth)
  rw [hentered] at hpath
  generalize app.browser.path = path at hpath
  cases hpath with
  | root => rfl

theorem exits_menuInputHandler (event : InputEvent) :
    (app.menuInputHandler listing event).exits = app.exits := by
  unfold menuInputHandler
  split
  · split
    · rfl
    · rfl
    · unfold fileMenuCallback
      split
      · next got heq =>
        have hfst : app.get.1 = got := congrArg Prod.fst heq
        exact hfst ▸ rfl
      · next got selected heq =>
        have hfst : app.get.1 = got := congrArg Prod.fst heq
        have hgot : got.exits = app.exits := hfst ▸ rfl
        split <;> exact hgot
    · rfl
    · rfl
    · rfl
  · rfl

theorem exits_okInput (type : InputType) : (app.okInput listing type).exits = app.exits := by
  unfold okInput get
  split
  · cases app.model.files.files[app.model.idx.toNat]? with
    | none => rfl
    | some selected =>
      dsimp only
      split
      · cases type <;> rfl
      · split <;> rfl
  · rfl

theorem exits_viewInput (event : InputEvent) : app.browser.depth = 0 ∨
    (app.viewInput listing event).exits = app.exits := by
  unfold viewInput
  split
  · exact .inr (exits_menuInputHandler event)
  · obtain ⟨key, type⟩ := event
    cases key with
    | back =>
      cases type with
      | short =>
        by_cases hdepth : app.browser.depth = 0
        · exact .inl hdepth
        · exact .inr (by simp only [if_neg hdepth]; rfl)
      | press | release | long | repeated => exact .inr rfl
    | ok => exact .inr (exits_okInput type)
    | left | right | up | down => cases type <;> exact .inr rfl

theorem InStep.exits (h : app.InStep) {first : Listing}
    (hs : (machine first).next app l = some app') (hexits : app'.exits ≠ app.exits) :
    app.browser.path = tabDefaultPaths app.browser.tabId := by
  cases l with
  | input event listing =>
    simp only [machine] at hs
    split at hs
    · cases hs
    · obtain rfl := Option.some.inj hs
      exact h.root_of_depth ((exits_viewInput event).resolve_right hexits)
  | renamed listing =>
    simp only [machine] at hs
    split at hs
    · exact absurd (Option.some.inj hs ▸ rfl) hexits
    · cases hs
  | previous =>
    simp only [machine] at hs
    split at hs
    · exact absurd (Option.some.inj hs ▸ rfl) hexits
    · cases hs

end ArchiveApp

/-- In every run that enters no directory at the end of the stack, the path is the root of the tab
with as many names as the depth, `last_idx` is used inside of its bounds, leaving a directory
restores the path it was entered from, and Back leaves the application only in the root. From every
state of such a run the next event keeps them in step if and only if it meets the condition. -/
theorem archive_path_depth {first : Listing} {app : ArchiveApp}
    (hreach : (ArchiveApp.machine first).ReachableWith ArchiveApp.KeepsDepth app) :
    app.InStep ∧
      (∃ names : List (List Char), names.length = app.browser.depth ∧
        (∀ name ∈ names, '/' ∉ name) ∧
          app.browser.path = pathOf (tabDefaultPaths app.browser.tabId) names) ∧
      (∀ listing, app.browser.depth ≠ 0 →
        app.entered.head? = some (app.leaveDir listing).browser.path) ∧
      ∀ l app', (ArchiveApp.machine first).next app l = some app' →
        (app'.exits ≠ app.exits → app.browser.path = tabDefaultPaths app.browser.tabId) ∧
          (app'.InStep ↔ app.KeepsDepth l) := by
  have hstep : app.InStep := hreach.invariant (P := ArchiveApp.InStep)
    (ArchiveApp.inStep_switchTab (by simp [ArchiveApp.alloc]))
    fun _ _ _ h hkeeps hs => (ArchiveApp.inStep_next_iff h hs).mpr hkeeps
  refine ⟨hstep, ?_, fun _ hdepth => (hstep.leaveDir hdepth).2, fun l app' hs => ⟨?_, ?_⟩⟩
  · rw [← hstep.depth]
    exact hstep.path.pathOf
  · exact hstep.exits hs
  · exact ArchiveApp.inStep_next_iff hstep hs

theorem ArchiveApp.viewInput_ok {app : ArchiveApp} {listing : Listing} {file : ArchiveFile}
    (hmenu : app.browser.menu = false)
    (hfile : app.model.files.files[app.model.idx.toNat]? = some file)
    (hfolder : file.type = .folder) : app.viewInput listing ⟨.ok, .short⟩ =
      ArchiveApp.enterDir { app.get.1 with browser := { app.browser with name := file.name } }
        listing := by
  have hsize : app.model.size > 0 := Nat.zero_lt_of_lt (List.getElem?_eq_some_iff.mp hfile).1
  simp only [viewInput, hmenu, Bool.false_eq_true, if_false, okInput, get, if_pos hsize, hfile,
    if_pos hfolder]

theorem reaches_depth {files : Listing} {file : ArchiveFile} (hfile : files.files[0]? = some file)
    (hfolder : file.type = .folder) (n : ℕ) (hn : n ≤ maxDepth) :
    ∃ app, (ArchiveApp.machine files).ReachableWith ArchiveApp.KeepsDepth app ∧
      app.browser.depth = n ∧ app.browser.menu = false ∧ app.textInput = false ∧
        app.model.files = files ∧ app.model.idx = 0 := by
  induction n with
  | zero =>
    refine ⟨_, .init, rfl, rfl, rfl, ?_, ?_⟩
    · exact ArchiveViewModel.files_updateOffset _
    · exact ArchiveViewModel.idx_updateOffset _
  | succ n ih =>
    obtain ⟨app, hreach, hdepth, hmenu, hview, hfiles, hidx⟩ := ih (Nat.le_of_lt hn)
    have hfile' : app.model.files.files[app.model.idx.toNat]? = some file := by
      rw [hfiles, hidx]
      exact hfile
    have hlt : app.browser.depth < maxDepth := hdepth ▸ hn
    have hs : (ArchiveApp.machine files).next app (.input ⟨.ok, .short⟩ files) =
        some (app.viewInput files ⟨.ok, .short⟩) := by
      simp [ArchiveApp.machine, hview]
    have hkeeps : app.KeepsDepth (.input ⟨.ok, .short⟩ files) := fun _ => hlt
    refine ⟨_, hreach.step hkeeps hs, ?_⟩
    rw [ArchiveApp.viewInput_ok hmenu hfile' hfolder]
    refine ⟨?_, ?_, hview, ?_, ?_⟩
    · refine (ArchiveApp.depth_enterDir ?_).trans ?_
      · exact hlt
      · exact congrArg (· + 1) hdepth
    · refine (ArchiveApp.menu_enterDir ?_).trans ?_
      · exact hlt
      · exact hmenu
    · exact ArchiveViewModel.files_updateOffset _
    · exact ArchiveViewModel.idx_updateOffset _

/-- A directory is entered from the first tab. -/
theorem archive_path_depth_enter : ∃ (first : Listing) (app : ArchiveApp),
    (ArchiveApp.machine first).next (ArchiveApp.machine first).init
      (.input ⟨.ok, .short⟩ first) = some app ∧ app.InStep := by
  let files : Listing := ⟨[⟨['a'], .folder⟩], by decide, by decide⟩
  have hkeeps : (ArchiveApp.machine files).init.KeepsDepth (.input ⟨.ok, .short⟩ files) :=
    fun _ => Nat.zero_lt_succ 31
  have henter := Machine.ReachableWith.init.step hkeeps rfl
  exact ⟨files, _, rfl, (archive_path_depth henter).1⟩

/-- A directory is entered below the end of the stack. -/
theorem archive_path_depth_deep : ¬∀ (first : Listing) (app : ArchiveApp),
    (ArchiveApp.machine first).Reachable app → app.InStep := by
  intro h
  let files : Listing := ⟨[⟨['a'], .folder⟩], by decide, by decide⟩
  obtain ⟨app, hreach, hdepth, hmenu, hview, hfiles, hidx⟩ :=
    @reaches_depth files ⟨['a'], .folder⟩ rfl rfl maxDepth (Nat.le_refl _)
  have hs : (ArchiveApp.machine files).next app (.input ⟨.ok, .short⟩ files) =
      some (app.viewInput files ⟨.ok, .short⟩) := by
    simp [ArchiveApp.machine, hview]
  have hstep := h files _ (hreach.reachable.step hs)
  have hkeeps := (ArchiveApp.inStep_next_iff (h files _ hreach.reachable) hs).mp hstep
  have hlt := hkeeps ⟨hmenu, rfl, ⟨['a'], .folder⟩, by rw [hfiles, hidx]; rfl, rfl⟩
  exact absurd hlt (by rw [hdepth]; exact Nat.lt_irrefl _)

end FlipperZero.Archive
