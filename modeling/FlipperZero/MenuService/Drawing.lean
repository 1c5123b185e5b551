import FlipperZero.MenuService.Basic
import Mathlib.Order.Nat

/-! # The menu is drawn with a current item

The draw callback needs a current item. The menu is closed under its mutex, but
the GUI may have found the view port enabled before, and then draws a closed
menu. When no menu is closed in between, every drawing is of the current item and
its position.
-/

namespace FlipperZero.MenuService

open Lib

variable {ι : Type} {items : MenuItems ι} {s s' : State ι}

/-- The callback looks at a menu with a current item and draws it at its position. -/
def Drawn (items : MenuItems ι) (s : State ι) : Prop :=
  match s.gui with
  | .idle | .redraw | .found => True
  | .acquired => s.menu.current ≠ none
  | .positioned position => ∃ current, s.menu.current = some current ∧
      s.menu.position current = position
  | .drawing position subitems => ∃ current, s.menu.current = some current ∧
      s.menu.position current = position ∧ items.subitems current = subitems ∧
      (subitems ≠ [] → position < subitems.length)

/-- The menu is not closed while the GUI has found its view port enabled and waits for the mutex. -/
def Undisturbed (s : State ι) (l : Label) : Prop :=
  l = .menu → s.menuPc = .disabled → s.gui ≠ .found

instance [DecidableEq ι] (s : State ι) (l : Label) : Decidable (Undisturbed s l) :=
  inferInstanceAs (Decidable (_ → _ → _))

def Positions (items : MenuItems ι) (position : ι → ℕ) : Prop :=
  ∀ i, items.subitems i ≠ [] → position i < (items.subitems i).length

def MenuPc.Holds : MenuPc → Prop
  | .next | .acquire _ => False
  | _ => True

def GuiPc.Holds : GuiPc ι → Prop
  | .idle | .redraw | .found => False
  | _ => True

/-- What holds between the view port, the menu and the two threads. -/
structure Coherent (items : MenuItems ι) (s : State ι) : Prop where
  menu : s.mutex = some .menu ↔ s.menuPc.Holds
  gui : s.mutex = some .gui ↔ s.gui.Holds
  opened : s.isEnabled = true ∨ s.gui = .found → s.menu.current ≠ none ∨ s.menuPc = .enabled
  closing : s.menuPc = .disabled → s.isEnabled = false
  positions : Positions items s.menu.position
  drawn : Drawn items s

theorem positions_zero : Positions items fun _ => 0 := by
  intro i hi
  exact List.length_pos_iff.mpr hi

/-- A step of the menu thread inside its handler, with the mutex still held. -/
structure Handles (items : MenuItems ι) (s s' : State ι) : Prop where
  mutex : s'.mutex = s.mutex
  gui : s'.gui = s.gui
  holds : s'.menuPc.Holds
  opened : s'.isEnabled = true ∨ s.gui = .found → s'.menu.current ≠ none ∨ s'.menuPc = .enabled
  closing : s'.menuPc = .disabled → s'.isEnabled = false
  positions : Positions items s'.menu.position

theorem Handles.coherent (h : Handles items s s') (hs : Coherent items s)
    (hpc : s.menuPc.Holds) : Coherent items s' := by
  have hmutex : s.mutex = some .menu := hs.menu.mpr hpc
  have hfree : ¬ s.gui.Holds := by
    intro hgui
    have := hs.gui.mpr hgui
    simp [hmutex] at this
  refine ⟨?_, ?_, ?_, h.closing, h.positions, ?_⟩
  · rw [h.mutex]
    exact ⟨fun _ => h.holds, fun _ => hmutex⟩
  · rw [h.mutex, h.gui]
    exact hs.gui
  · rw [h.gui]
    exact h.opened
  · unfold Drawn
    rw [h.gui]
    unfold GuiPc.Holds at hfree
    split <;> simp_all

theorem handles_handled {menu : Menu ι} (hcurrent : s.isEnabled = true ∨ s.gui = .found →
    menu.current ≠ none) (hpos : Positions items menu.position) :
    Handles items s (s.handled menu) where
  mutex := rfl
  gui := rfl
  holds := trivial
  opened h := .inl (hcurrent h)
  closing h := by cases h
  positions := hpos

theorem handles_menuExit (hs : Positions items s.menu.position)
    (hcurrent : s.menu.current ≠ none) : Handles items s (menuExit s) :=
  ⟨rfl, rfl, trivial, fun _ => .inl hcurrent, fun _ => rfl, hs⟩

theorem coherent_guiStep (hs : Coherent items s) {front : Bool}
    (h : guiStep items s front = some s') : Coherent items s' := by
  have hmenu := hs.menu
  have hgui := hs.gui
  have hopened := hs.opened
  have hdrawn := hs.drawn
  unfold guiStep at h
  split at h
  case h_1 hpc =>
    split at h
    · obtain rfl := Option.some.inj h
      rw [hpc] at hgui hopened
      refine ⟨hmenu, hgui, fun hopen => ?_, hs.closing, hs.positions, trivial⟩
      apply hopened
      simpa using hopen
    · cases h
  case h_2 hpc =>
    rw [hpc] at hgui hopened
    split at h
    · next hfront =>
      obtain rfl := Option.some.inj h
      refine ⟨hmenu, hgui, fun _ => ?_, hs.closing, hs.positions, trivial⟩
      exact hopened (.inl (by simp_all))
    · obtain rfl := Option.some.inj h
      refine ⟨hmenu, hgui, fun hopen => ?_, hs.closing, hs.positions, trivial⟩
      apply hopened
      simpa using hopen
  case h_3 hpc =>
    split at h
    · next hfree =>
      obtain rfl := Option.some.inj h
      have hidle : ¬ s.menuPc.Holds := by
        intro hpc'
        have := hmenu.mpr hpc'
        simp [hfree] at this
      have hsome : s.menu.current ≠ none := by
        rcases hopened (.inr hpc) with h | h
        · exact h
        · rw [h] at hidle
          exact absurd trivial hidle
      refine ⟨?_, by simp [GuiPc.Holds], fun _ => .inl hsome, hs.closing, hs.positions, hsome⟩
      simpa using hidle
    · cases h
  case h_4 hpc =>
    rw [hpc] at hgui hopened
    obtain ⟨current, hcurrent, rfl⟩ := Option.map_eq_some_iff.mp h
    refine ⟨hmenu, hgui, fun _ => .inl (by simp [hcurrent]), hs.closing, hs.positions, ?_⟩
    exact ⟨current, hcurrent, rfl⟩
  case h_5 position hpc =>
    rw [hpc] at hgui hopened
    unfold Drawn at hdrawn
    rw [hpc] at hdrawn
    obtain ⟨current, hcurrent, rfl⟩ := Option.map_eq_some_iff.mp h
    obtain ⟨current', hcurrent', hposition⟩ := hdrawn
    obtain rfl : current = current' := Option.some.inj (hcurrent.symm.trans hcurrent')
    refine ⟨hmenu, hgui, fun _ => .inl (by simp [hcurrent]), hs.closing, hs.positions, ?_⟩
    refine ⟨current, hcurrent, hposition, rfl, ?_⟩
    rw [← hposition]
    exact hs.positions current
  case h_6 position subitems hpc =>
    rw [hpc] at hgui hopened
    obtain rfl := Option.some.inj h
    have hmutex : s.mutex = some .gui := hgui.mpr trivial
    refine ⟨?_, by simp [GuiPc.Holds], fun hopen => ?_, hs.closing, hs.positions, trivial⟩
    · simpa [hmutex] using hmenu
    · apply hopened
      simpa using hopen

theorem coherent_init : Coherent items (State.init : State ι) :=
  ⟨by simp [State.init, MenuPc.Holds], by simp [State.init, GuiPc.Holds],
    fun h => (by simp [State.init] at h), fun h => (by cases h), positions_zero, trivial⟩

variable [DecidableEq ι]

theorem positions_set {position : ι → ℕ} (h : Positions items position) {i : ι} {n : ℕ}
    (hn : items.subitems i ≠ [] → n < (items.subitems i).length) :
    Positions items (Function.update position i n) := by
  intro j hj
  rcases eq_or_ne j i with rfl | hne
  · rw [Function.update_self]
    exact hn hj
  · rw [Function.update_of_ne hne]
    exact h j hj

theorem positions_menuUp (h : Positions items s.menu.position) (current : ι) :
    Positions items (menuUp items s.menu current).position := by
  apply positions_set h
  intro hne
  have hlt := h current hne
  have hmod : ∀ n m : ℕ, 0 < n → n ≤ m → (n + (2 ^ 32 - 1)) % 2 ^ 32 < m := by
    intro n m hn hm
    have hsplit : n + (2 ^ 32 - 1) = (n - 1) + 2 ^ 32 := by omega
    have hle := Nat.mod_le (n - 1) (2 ^ 32)
    rw [hsplit, Nat.add_mod_right]
    omega
  split
  · exact hmod _ _ (by omega) le_rfl
  · exact hmod _ _ (by omega) hlt.le

theorem positions_menuDown (h : Positions items s.menu.position) (current : ι) :
    Positions items (menuDown items s.menu current).position := by
  apply positions_set h
  intro hne
  exact Nat.mod_lt _ (List.length_pos_iff.mpr hne)

theorem handles_menuOk (hs : Positions items s.menu.position) :
    Handles items s (menuOk items s) := by
  unfold menuOk
  split
  · exact ⟨rfl, rfl, trivial, fun _ => .inr rfl, fun h => (by cases h), hs⟩
  · next current hcurrent =>
    split
    · exact handles_handled (fun _ => by simp [hcurrent]) hs
    · next item hitem =>
      split
      · apply handles_handled
        · intro _
          simp [menuItemSetPosition]
        · exact positions_set hs fun hne => List.length_pos_iff.mpr hne
      · refine ⟨rfl, rfl, trivial, fun _ => .inl ?_, fun h => (by cases h), hs⟩
        simp [hcurrent]

theorem handles_menuHandle (hs : Coherent items s) {message : MenuMessageType}
    (hpc : s.menuPc = .handle message) : Handles items s (menuHandle items s message) := by
  have hopened : s.isEnabled = true ∨ s.gui = .found → s.menu.current ≠ none := by
    intro h
    rcases hs.opened h with h | h
    · exact h
    · rw [hpc] at h
      cases h
  unfold menuHandle
  split
  · split
    · exact handles_menuOk hs.positions
    · exact handles_handled hopened hs.positions
  · next current hcurrent =>
    have hsome : s.menu.current ≠ none := by simp [hcurrent]
    cases message with
    | up => exact handles_handled (fun _ => hsome) (positions_menuUp hs.positions current)
    | down => exact handles_handled (fun _ => hsome) (positions_menuDown hs.positions current)
    | ok | right => exact handles_menuOk hs.positions
    | left | back =>
      dsimp only [menuBack]
      split
      · exact handles_handled (fun _ => by simp) hs.positions
      · exact handles_menuExit hs.positions hsome
    | idle => exact handles_menuExit hs.positions hsome
    | unknown => exact handles_handled (fun _ => hsome) hs.positions

theorem coherent_menuStep (hs : Coherent items s) (hok : s.menuPc = .disabled → s.gui ≠ .found)
    (h : menuStep items s = some s') : Coherent items s' := by
  unfold menuStep at h
  split at h
  case h_1 => cases h
  case h_2 message hpc =>
    split at h
    · next hfree =>
      obtain rfl := Option.some.inj h
      refine ⟨by simp [MenuPc.Holds], ?_, ?_, fun h => (by cases h), hs.positions, hs.drawn⟩
      · have := hs.gui
        simp_all
      · intro hopen
        rcases hs.opened hopen with h | h
        · exact .inl h
        · rw [hpc] at h
          cases h
    · cases h
  case h_3 message hpc =>
    obtain rfl := Option.some.inj h
    apply (handles_menuHandle hs hpc).coherent hs
    rw [hpc]
    trivial
  case h_4 hpc =>
    obtain rfl := Option.some.inj h
    refine Handles.coherent (handles_handled (fun _ => ?_) ?_) hs (by rw [hpc]; trivial)
    · simp [menuItemSetPosition]
    · exact positions_set hs.positions fun hne => List.length_pos_iff.mpr hne
  case h_5 hpc =>
    obtain rfl := Option.some.inj h
    refine Handles.coherent (handles_handled (fun hopen => ?_) hs.positions) hs
      (by rw [hpc]; trivial)
    rcases hopen with h | h
    · simp [hs.closing hpc] at h
    · exact absurd h (hok hpc)
  case h_6 hpc =>
    split at h
    · obtain rfl := Option.some.inj h
      refine Handles.coherent (handles_handled (fun hopen => ?_) hs.positions) hs
        (by rw [hpc]; trivial)
      rcases hs.opened hopen with h | h
      · exact h
      · rw [hpc] at h
        cases h
    · cases h
  case h_7 hpc =>
    obtain rfl := Option.some.inj h
    have hmutex : s.mutex = some .menu := hs.menu.mpr (by rw [hpc]; trivial)
    refine ⟨by simp [MenuPc.Holds], ?_, fun hopen => ?_, fun h => (by cases h), hs.positions,
      hs.drawn⟩
    · have := hs.gui
      simp_all
    · rcases hs.opened hopen with h | h
      · exact .inl h
      · rw [hpc] at h
        cases h

theorem coherent_next (hs : Coherent items s) {l : Label} (hok : Undisturbed s l)
    (h : next items s l = some s') : Coherent items s' := by
  cases l with
  | receive message =>
    simp only [next] at h
    split at h
    · next hpc =>
      obtain rfl := Option.some.inj h
      have hmenu := hs.menu
      have hopened := hs.opened
      rw [hpc] at hmenu hopened
      refine ⟨hmenu, hs.gui, fun hopen => ?_, fun h => (by cases h), hs.positions, hs.drawn⟩
      rcases hopened hopen with h | h
      · exact .inl h
      · cases h
    · cases h
  | menu => exact coherent_menuStep hs (hok rfl) h
  | gui front => exact coherent_guiStep hs h
  | timeout =>
    simp only [next] at h
    split at h
    · next hpc =>
      obtain rfl := Option.some.inj h
      have hgui := hs.gui
      rw [hpc.1] at hgui
      refine ⟨hs.menu, hgui, fun hopen => ?_, hs.closing, hs.positions, trivial⟩
      rcases hopen with h | h
      · exact hs.opened (.inl h)
      · cases h
    · cases h

/-- A menu that is closed while the GUI waits to draw it can be drawn without a current item. -/
theorem drawn_after_close (hpc : s.menuPc = .disabled) (hgui : s.gui = .found) :
    ∃ t u s', menuStep items s = some t ∧ menuStep items t = some u ∧
      guiStep items u true = some s' ∧ ¬ Drawn items s' := by
  refine ⟨s.handled { s.menu with current := none },
    { s.handled { s.menu with current := none } with mutex := none, menuPc := .next },
    { s.handled { s.menu with current := none } with
      mutex := some .gui, menuPc := .next, gui := .acquired }, ?_, rfl, ?_, ?_⟩
  · simp [menuStep, hpc]
  · simp [guiStep, State.handled, hgui]
  · simp [Drawn, State.handled]

/-- As long as the menu is not closed while the GUI waits to draw it, the GUI draws the current item
of the menu at its position; once it is closed then, it can be drawn without a current item. -/
theorem menu_draws_current (items : MenuItems ι) (h : (machine items).ReachableWith Undisturbed s) :
    Drawn items s ∧ (s.menuPc = .disabled → s.gui = .found → ∃ t u s', menuStep items s = some t ∧
      menuStep items t = some u ∧ guiStep items u true = some s' ∧ ¬ Drawn items s') := by
  have hs : Coherent items s := h.invariant coherent_init fun _ _ _ hs hok => coherent_next hs hok
  exact ⟨hs.drawn, drawn_after_close⟩

def oneItem : MenuItems Bool where
  root := false
  type item := if item then .function else .menu
  subitems item := if item then [] else [true]
  parent item := if item then some false else none
  root_menu := rfl
  parent_menu {i j} h := by
    cases i
    · cases h
    · obtain rfl := Option.some.inj h
      rfl

/-- The menu is opened with OK, and the GUI finds its view port enabled. -/
def opening : List Label := [.receive .ok, .menu, .menu, .menu, .menu, .gui true, .gui true]

theorem menu_draws_current_open : ∃ s, s.gui = .drawing 0 [true] ∧ Drawn oneItem s := by
  obtain ⟨s, hs, hgui⟩ : ∃ s, (machine oneItem).execWith Undisturbed .init
      (opening ++ [Label.gui true, .gui true, .gui true]) = some s ∧ s.gui = .drawing 0 [true] :=
    ⟨_, rfl, rfl⟩
  exact ⟨s, hgui, (menu_draws_current oneItem (Machine.execWith_reachableWith .init hs)).1⟩

/-- Back closes the menu before the callback gets the mutex. -/
theorem not_menu_draws_current :
    ¬ ∀ s, (machine oneItem).Reachable s → Drawn oneItem s := by
  intro hall
  obtain ⟨s, hs, hgui, hcurrent⟩ : ∃ s, (machine oneItem).exec .init
      (opening ++ [Label.receive .back, .menu, .menu, .menu, .menu, .gui true]) = some s ∧
        s.gui = .acquired ∧ s.menu.current = none := ⟨_, rfl, rfl, rfl⟩
  have h := hall s (Machine.exec_reachable .init hs)
  rw [Drawn, hgui] at h
  exact h hcurrent

end FlipperZero.MenuService
