import FlipperZero.Lib.Machine
import Mathlib.Algebra.Group.Nat.Defs

/-! # The menu and its drawing

The menu thread handles its messages with the mutex of the menu held. The GUI
draws with its own lock held: it looks for an enabled view port and calls its
draw callback, which waits for the mutex of the menu. The flag of the view port
is read and written without any lock.
-/

namespace FlipperZero.MenuService

open Lib

inductive MenuItemType where
  | menu
  | function
  deriving DecidableEq, Repr

inductive MenuMessageType where
  | up
  | down
  | left
  | right
  | ok
  | back
  | idle
  | unknown
  deriving DecidableEq, Repr

/-- The tree of items, which `menu_item_subitem_add` hangs below menus only. -/
structure MenuItems (ι : Type) where
  root : ι
  type : ι → MenuItemType
  subitems : ι → List ι
  parent : ι → Option ι
  root_menu : type root = .menu
  parent_menu : ∀ {i j}, parent i = some j → type j = .menu

structure Menu (ι : Type) where
  current : Option ι
  position : ι → ℕ

variable {ι : Type} [DecidableEq ι]

def menuItemSetPosition (menu : Menu ι) (item : ι) (position : ℕ) : Menu ι :=
  { menu with position := Function.update menu.position item position }

/-- `size_t` has 32 bits, so the position of an empty menu wraps. -/
def menuUp (items : MenuItems ι) (menu : Menu ι) (current : ι) : Menu ι :=
  let position := menu.position current
  let position := if position = 0 then (items.subitems current).length else position
  menuItemSetPosition menu current ((position + (2 ^ 32 - 1)) % 2 ^ 32)

/-- The remainder by an empty menu is what the processor makes of it. -/
def menuDown (items : MenuItems ι) (menu : Menu ι) (current : ι) : Menu ι :=
  let position := (menu.position current + 1) % 2 ^ 32
  menuItemSetPosition menu current (position % (items.subitems current).length)

inductive Thread where
  | menu
  | gui
  deriving DecidableEq, Repr

/-- Where the menu thread is; from `handle` on it holds the mutex. -/
inductive MenuPc where
  | next
  | acquire (message : MenuMessageType)
  | handle (message : MenuMessageType)
  /-- In `menu_ok` after the view port was enabled. -/
  | enabled
  /-- In `menu_exit` after the view port was disabled. -/
  | disabled
  /-- In `menu_ok` after the function of an item, before `gui_send_view_port_back`. -/
  | sendBack
  | release
  deriving DecidableEq, Repr

/-- Where the GUI is; from `acquired` on its callback holds the mutex. -/
inductive GuiPc (ι : Type) where
  | idle
  /-- In `gui_redraw` with the lock held. -/
  | redraw
  /-- The view port of the menu was found enabled; the callback waits for the mutex. -/
  | found
  | acquired
  | positioned (position : ℕ)
  | drawing (position : ℕ) (items : List ι)
  deriving DecidableEq, Repr

structure State (ι : Type) where
  menu : Menu ι
  isEnabled : Bool
  /-- The owner of the menu's mutex. -/
  mutex : Option Thread
  /-- The owner of the GUI's lock. -/
  lock : Option Thread
  menuPc : MenuPc
  gui : GuiPc ι

/-- After `menu_init`, with the items at their position 0. -/
def State.init : State ι where
  menu := ⟨none, fun _ => 0⟩
  isEnabled := false
  mutex := none
  lock := none
  menuPc := .next
  gui := .idle

/-- The handler is done and only `release_mutex` is left. -/
def State.handled (s : State ι) (menu : Menu ι) : State ι :=
  { s with menu := menu, menuPc := .release }

def menuOk (items : MenuItems ι) (s : State ι) : State ι :=
  match s.menu.current with
  | none => { s with isEnabled := true, menuPc := .enabled }
  | some current =>
    match (items.subitems current)[s.menu.position current]? with
    | none => s.handled s.menu
    | some item =>
      match items.type item with
      | .menu => s.handled (menuItemSetPosition { s.menu with current := some item } item 0)
      | .function => { s with menuPc := .sendBack }

def menuExit (s : State ι) : State ι :=
  { s with isEnabled := false, menuPc := .disabled }

def menuBack (items : MenuItems ι) (s : State ι) (current : ι) : State ι :=
  match items.parent current with
  | some parent => s.handled { s.menu with current := some parent }
  | none => menuExit s

/-- The dispatch of `menu_task`. -/
def menuHandle (items : MenuItems ι) (s : State ι) (message : MenuMessageType) : State ι :=
  match s.menu.current with
  | none => if message = .ok then menuOk items s else s.handled s.menu
  | some current =>
    match message with
    | .up => s.handled (menuUp items s.menu current)
    | .down => s.handled (menuDown items s.menu current)
    | .ok | .right => menuOk items s
    | .left | .back => menuBack items s current
    | .idle => menuExit s
    | .unknown => s.handled s.menu

inductive Label where
  /-- `menu_event_next` returns a message. -/
  | receive (message : MenuMessageType)
  | menu
  /-- The GUI goes on; `front` when every view port over the menu's is disabled. -/
  | gui (front : Bool)
  | timeout
  deriving DecidableEq, Repr

def menuStep (items : MenuItems ι) (s : State ι) : Option (State ι) :=
  match s.menuPc with
  | .next => none
  | .acquire message =>
    if s.mutex = none then some { s with mutex := some .menu, menuPc := .handle message } else none
  | .handle message => some (menuHandle items s message)
  | .enabled =>
    some (s.handled (menuItemSetPosition { s.menu with current := some items.root } items.root 0))
  | .disabled => some (s.handled { s.menu with current := none })
  | .sendBack => if s.lock = none then some (s.handled s.menu) else none
  | .release => some { s with mutex := none, menuPc := .next }

/-- A step of `gui_redraw`; in `acquired` and `positioned` the callback reads `menu->current`. -/
def guiStep (items : MenuItems ι) (s : State ι) (front : Bool) : Option (State ι) :=
  match s.gui with
  | .idle => if s.lock = none then some { s with lock := some .gui, gui := .redraw } else none
  | .redraw =>
    if front && s.isEnabled then some { s with gui := .found }
    else some { s with lock := none, gui := .idle }
  | .found => if s.mutex = none then some { s with mutex := some .gui, gui := .acquired } else none
  | .acquired =>
    s.menu.current.map fun current => { s with gui := .positioned (s.menu.position current) }
  | .positioned position =>
    s.menu.current.map fun current => { s with gui := .drawing position (items.subitems current) }
  | .drawing _ _ => some { s with mutex := none, lock := none, gui := .idle }

def next (items : MenuItems ι) (s : State ι) : Label → Option (State ι)
  | .receive message =>
    if s.menuPc = .next then some { s with menuPc := .acquire message } else none
  | .menu => menuStep items s
  | .gui front => guiStep items s front
  | .timeout =>
    if s.gui = .found ∧ s.mutex = some .menu then some { s with lock := none, gui := .idle }
    else none

def machine (items : MenuItems ι) : Machine (State ι) Label where
  init := .init
  next := next items

end FlipperZero.MenuService
