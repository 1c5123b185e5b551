import FlipperZero.MenuService.Drawing

/-! # Navigating the menu

The handlers of the menu thread one message after another, with the accesses and divisions that
each of them makes. Items are added below any menu in between, at any time.
-/

namespace FlipperZero.MenuService

open Lib

/-- What would stop a handler: a remainder by zero, an access outside of the items, or an item
that is no menu where one is required. -/
inductive MenuFault where
  | divisionByZero
  | itemAccess
  | notMenu
deriving DecidableEq, Repr

/-- Items in arrays that the memory has room for, so that their sizes are each a `size_t`. -/
structure MenuTree (ι : Type) extends MenuItems ι where
  short : ∀ i, (subitems i).length < 2 ^ 32

structure Navigation (ι : Type) where
  tree : MenuTree ι
  menu : Menu ι

variable {ι : Type}

def menuItemGetSubitems (items : MenuItems ι) (item : ι) : Except MenuFault (List ι) :=
  if items.type item = .menu then .ok (items.subitems item) else .error .notMenu

def menuItemArrayGet (subitems : List ι) (position : ℕ) : Except MenuFault ι :=
  match subitems[position]? with
  | some item => .ok item
  | none => .error .itemAccess

/-- The accesses of `menu_update`; the menu is left as it is. -/
def menuUpdate (items : MenuItems ι) (menu : Menu ι) : Except MenuFault (Menu ι) :=
  match menu.current with
  | none => .ok menu
  | some current => do
    let subitems ← menuItemGetSubitems items current
    if subitems.length = 0 then .ok menu
    else
      let _ ← menuItemArrayGet subitems (menu.position current)
      .ok menu

namespace Navigation

variable [DecidableEq ι]

def up (items : MenuItems ι) (menu : Menu ι) (current : ι) : Except MenuFault (Menu ι) := do
  let _ ← menuItemGetSubitems items current
  menuUpdate items (menuUp items menu current)

def down (items : MenuItems ι) (menu : Menu ι) (current : ι) : Except MenuFault (Menu ι) := do
  let subitems ← menuItemGetSubitems items current
  if subitems.length = 0 then .error .divisionByZero
  else menuUpdate items (menuDown items menu current)

/-- The function of an item runs outside the menu, which it leaves as it is. -/
def ok (items : MenuItems ι) (menu : Menu ι) : Except MenuFault (Menu ι) :=
  match menu.current with
  | none =>
    menuUpdate items (menuItemSetPosition { menu with current := some items.root } items.root 0)
  | some current => do
    let subitems ← menuItemGetSubitems items current
    if subitems.length = 0 then .ok menu
    else
      let item ← menuItemArrayGet subitems (menu.position current)
      match items.type item with
      | .menu => menuUpdate items (menuItemSetPosition { menu with current := some item } item 0)
      | .function => .ok menu

def exit (items : MenuItems ι) (menu : Menu ι) : Except MenuFault (Menu ι) :=
  menuUpdate items { menu with current := none }

def back (items : MenuItems ι) (menu : Menu ι) (current : ι) : Except MenuFault (Menu ι) :=
  match items.parent current with
  | some parent => menuUpdate items { menu with current := some parent }
  | none => exit items menu

/-- The dispatch of `menu_task`. -/
def handle (items : MenuItems ι) (menu : Menu ι) (message : MenuMessageType) :
    Except MenuFault (Menu ι) :=
  match menu.current with
  | none => if message = .ok then ok items menu else .ok menu
  | some current =>
    match message with
    | .up => up items menu current
    | .down => down items menu current
    | .ok | .right => ok items menu
    | .left | .back => back items menu current
    | .idle => exit items menu
    | .unknown => .ok menu

end Navigation

/-- `menu_item_subitem_add`; the program stops where the item is no menu or memory is short. -/
def menuItemSubitemAdd [DecidableEq ι] (tree : MenuTree ι) (menuItem subItem : ι) : Option (MenuTree ι) :=
  if h : tree.type menuItem = .menu ∧ (tree.subitems menuItem).length + 1 < 2 ^ 32 then
    some
      { tree with
        subitems :=
          Function.update tree.subitems menuItem (tree.subitems menuItem ++ [subItem])
        parent := Function.update tree.parent subItem (some menuItem)
        parent_menu := by
          intro i j hparent
          rcases eq_or_ne i subItem with rfl | hne
          · rw [Function.update_self] at hparent
            exact Option.some.inj hparent ▸ h.1
          · rw [Function.update_of_ne hne] at hparent
            exact tree.parent_menu hparent
        short := by
          intro i
          rcases eq_or_ne i menuItem with rfl | hne
          · rw [Function.update_self, List.length_append]
            exact h.2
          · rw [Function.update_of_ne hne]
            exact tree.short i }
  else none

namespace Navigation

inductive Label (ι : Type) where
  | message (message : MenuMessageType)
  | add (menuItem subItem : ι)

/-- Navigation from a closed menu, with the items at their position 0. -/
def machine [DecidableEq ι] (tree : MenuTree ι) : Machine (Navigation ι) (Label ι) where
  init := ⟨tree, ⟨none, fun _ => 0⟩⟩
  next s
    | .message message =>
      (handle s.tree.toMenuItems s.menu message).toOption.map fun menu => { s with menu }
    | .add menuItem subItem =>
      (menuItemSubitemAdd s.tree menuItem subItem).map fun tree => { s with tree }

variable {tree : MenuTree ι} {s s' : Navigation ι} {l : Label ι} {message : MenuMessageType}

/-- The position of the current menu is that of an item, or 0 where it has none. -/
def Positioned (s : Navigation ι) : Prop :=
  ∀ current, s.menu.current = some current →
    s.menu.position current < (s.tree.subitems current).length ∨
      s.tree.subitems current = [] ∧ s.menu.position current = 0

/-- Up and Down come where the current menu has items. -/
def Keeps (s : Navigation ι) : Label ι → Prop
  | .message .up | .message .down =>
    ∀ current, s.menu.current = some current → s.tree.subitems current ≠ []
  | _ => True

/-- The positions that all menus have, those remembered among them. -/
structure Settled (s : Navigation ι) : Prop where
  current : ∀ current, s.menu.current = some current → s.tree.type current = .menu
  positions : Positions s.tree.toMenuItems s.menu.position
  empty : ∀ i, s.tree.subitems i = [] → s.menu.position i = 0

theorem Settled.positioned (h : s.Settled) : s.Positioned := by
  intro current hcurrent
  rcases eq_or_ne (s.tree.subitems current) [] with hempty | hne
  · exact .inr ⟨hempty, h.empty current hempty⟩
  · exact .inl (h.positions current hne)

theorem menuItemGetSubitems_eq {items : MenuItems ι} {item : ι} (h : items.type item = .menu) :
    menuItemGetSubitems items item = .ok (items.subitems item) := by
  rw [menuItemGetSubitems, if_pos h]

theorem Settled.update (h : s.Settled) : menuUpdate s.tree.toMenuItems s.menu = .ok s.menu := by
  unfold menuUpdate
  split
  · rfl
  · next current hcurrent =>
    rw [menuItemGetSubitems_eq (h.current current hcurrent)]
    change (if (s.tree.subitems current).length = 0 then _ else _) = _
    split
    · rfl
    · next hcount =>
      have hlt := h.positions current (fun hempty => hcount (congrArg List.length hempty))
      rw [menuItemArrayGet, List.getElem?_eq_getElem hlt]
      rfl

variable [DecidableEq ι]

theorem Settled.enter (h : s.Settled) {item : ι} (htype : s.tree.type item = .menu) {position : ℕ}
    (hposition : s.tree.subitems item ≠ [] → position < (s.tree.subitems item).length)
    (hempty : s.tree.subitems item = [] → position = 0) :
    Settled { s with
      menu := menuItemSetPosition { s.menu with current := some item } item position } where
  current := by
    rintro current hcurrent
    exact Option.some.inj hcurrent ▸ htype
  positions := positions_set h.positions hposition
  empty := by
    intro i hi
    change Function.update s.menu.position item position i = 0
    rcases eq_or_ne i item with rfl | hne
    · rw [Function.update_self]
      exact hempty hi
    · rw [Function.update_of_ne hne]
      exact h.empty i hi

theorem Settled.enter_start (h : s.Settled) {item : ι} (htype : s.tree.type item = .menu) :
    Settled { s with menu := menuItemSetPosition { s.menu with current := some item } item 0 } :=
  h.enter htype List.length_pos_iff.mpr fun _ => rfl

theorem Settled.move (h : s.Settled) {current : ι} (hcurrent : s.menu.current = some current)
    (hne : s.tree.subitems current ≠ []) {position : ℕ}
    (hpositions : Positions s.tree.toMenuItems
      (menuItemSetPosition s.menu current position).position) :
    Settled { s with menu := menuItemSetPosition s.menu current position } := by
  refine ⟨h.current, hpositions, fun i hi => ?_⟩
  have hother : i ≠ current := by
    rintro rfl
    exact hne hi
  exact (Function.update_of_ne hother position s.menu.position).trans (h.empty i hi)

theorem ok_open {items : MenuItems ι} {menu : Menu ι} {current : ι}
    (hcurrent : menu.current = some current) (htype : items.type current = .menu) :
    ok items menu =
      if (items.subitems current).length = 0 then .ok menu
      else
        (menuItemArrayGet (items.subitems current) (menu.position current)).bind fun item =>
          (match items.type item with
          | .menu =>
            menuUpdate items (menuItemSetPosition { menu with current := some item } item 0)
          | .function => .ok menu) := by
  simp only [ok, hcurrent, menuItemGetSubitems_eq htype]
  rfl

theorem Settled.ok_ok (h : s.Settled) {current : ι} (hcurrent : s.menu.current = some current) :
    ∃ menu, ok s.tree.toMenuItems s.menu = .ok menu ∧ Settled { s with menu := menu } := by
  rw [ok_open hcurrent (h.current current hcurrent)]
  split
  · exact ⟨s.menu, rfl, h⟩
  · next hcount =>
    have hlt := h.positions current (fun hempty => hcount (congrArg List.length hempty))
    have hget : menuItemArrayGet (s.tree.subitems current) (s.menu.position current) =
        .ok (s.tree.subitems current)[s.menu.position current] := by
      rw [menuItemArrayGet, List.getElem?_eq_getElem hlt]
    rw [hget]
    cases htype : s.tree.type (s.tree.subitems current)[s.menu.position current] with
    | menu =>
      have hentered := h.enter_start htype
      refine ⟨_, ?_, hentered⟩
      change (match s.tree.type _ with | .menu => _ | .function => _) = _
      rw [htype]
      exact hentered.update
    | function =>
      refine ⟨s.menu, ?_, h⟩
      change (match s.tree.type _ with | .menu => _ | .function => _) = _
      rw [htype]

theorem Settled.handle_ok (h : s.Settled) (hkeeps : s.Keeps (.message message)) :
    ∃ menu, handle s.tree.toMenuItems s.menu message = .ok menu ∧
      Settled { s with menu := menu } := by
  unfold handle
  split
  · next hclosed =>
    split
    · refine ⟨_, ?_, h.enter_start s.tree.root_menu⟩
      simp only [ok, hclosed]
      exact (h.enter_start s.tree.root_menu).update
    · exact ⟨s.menu, rfl, h⟩
  · next current hcurrent =>
    have hmenu := menuItemGetSubitems_eq (h.current current hcurrent)
    have hok := h.ok_ok hcurrent
    have hexit : ∃ menu, exit s.tree.toMenuItems s.menu = .ok menu ∧
        Settled { s with menu := menu } := by
      have hclosed : Settled { s with menu := { s.menu with current := none } } :=
        ⟨fun _ hnone => (by cases hnone), h.positions, h.empty⟩
      exact ⟨_, hclosed.update, hclosed⟩
    have hback : ∃ menu, back s.tree.toMenuItems s.menu current = .ok menu ∧
        Settled { s with menu := menu } := by
      unfold back
      split
      · next parent hparent =>
        have hentered : Settled { s with menu := { s.menu with current := some parent } } :=
          ⟨fun _ hsome => Option.some.inj hsome ▸ s.tree.parent_menu hparent, h.positions, h.empty⟩
        exact ⟨_, hentered.update, hentered⟩
      · exact hexit
    cases message with
    | up =>
      have hmoved := h.move hcurrent (hkeeps current hcurrent)
        (positions_menuUp (s := { State.init with menu := s.menu }) h.positions current)
      refine ⟨_, ?_, hmoved⟩
      simp only [up, hmenu]
      exact hmoved.update
    | down =>
      have hne := hkeeps current hcurrent
      have hmoved := h.move hcurrent hne
        (positions_menuDown (s := { State.init with menu := s.menu }) h.positions current)
      refine ⟨_, ?_, hmoved⟩
      have hcount : (s.tree.subitems current).length ≠ 0 :=
        fun hzero => hne (List.eq_nil_of_length_eq_zero hzero)
      simp only [down, hmenu]
      change (if (s.tree.subitems current).length = 0 then _ else _) = _
      rw [if_neg hcount]
      exact hmoved.update
    | left => exact hback
    | right => exact hok
    | ok => exact hok
    | back => exact hback
    | idle => exact hexit
    | unknown => exact ⟨s.menu, rfl, h⟩

theorem Settled.not_moves (h : s.Settled) {current : ι} (hcurrent : s.menu.current = some current)
    (hempty : s.tree.subitems current = []) :
    handle s.tree.toMenuItems s.menu .up =
        .ok (menuItemSetPosition s.menu current (2 ^ 32 - 1)) ∧
      handle s.tree.toMenuItems s.menu .down = .error .divisionByZero := by
  have hmenu := menuItemGetSubitems_eq (h.current current hcurrent)
  have hcount : (s.tree.subitems current).length = 0 := congrArg List.length hempty
  constructor
  · have hup : menuUp s.tree.toMenuItems s.menu current =
        menuItemSetPosition s.menu current (2 ^ 32 - 1) := by
      rw [menuUp, h.empty current hempty, if_pos rfl, hcount]
      rfl
    simp only [handle, hcurrent, up, hmenu, hup]
    change menuUpdate s.tree.toMenuItems _ = _
    unfold menuUpdate
    rw [show (menuItemSetPosition s.menu current (2 ^ 32 - 1)).current = some current from hcurrent]
    simp only [hmenu]
    change (if (s.tree.subitems current).length = 0 then _ else _) = _
    rw [if_pos hcount]
  · simp only [handle, hcurrent, down, hmenu]
    change (if (s.tree.subitems current).length = 0 then _ else _) = _
    rw [if_pos hcount]

/-- A message is handled without a fault, to a position that the current menu may have, exactly
under the condition. -/
theorem Settled.handle_iff (h : s.Settled) (message : MenuMessageType) :
    (∃ menu, handle s.tree.toMenuItems s.menu message = .ok menu ∧
      Positioned { s with menu := menu }) ↔ s.Keeps (.message message) := by
  constructor
  · rintro ⟨menu, hhandle, hpositioned⟩
    have hmoves {current : ι} (hcurrent : s.menu.current = some current)
        (hempty : s.tree.subitems current = []) : message ≠ .up ∧ message ≠ .down := by
      obtain ⟨hup, hdown⟩ := h.not_moves hcurrent hempty
      constructor
      · rintro rfl
        obtain rfl := Except.ok.inj (hhandle.symm.trans hup)
        rcases hpositioned current hcurrent with hlt | ⟨-, hzero⟩
        · rw [hempty] at hlt
          exact Nat.not_lt_zero _ hlt
        · have hwrapped : (menuItemSetPosition s.menu current (2 ^ 32 - 1)).position current =
              2 ^ 32 - 1 := Function.update_self _ _ _
          exact absurd (hwrapped.symm.trans hzero) (by decide)
      · rintro rfl
        rw [hdown] at hhandle
        cases hhandle
    cases message
    case up => exact fun current hcurrent hempty => (hmoves hcurrent hempty).1 rfl
    case down => exact fun current hcurrent hempty => (hmoves hcurrent hempty).2 rfl
    all_goals trivial
  · intro hkeeps
    obtain ⟨menu, hhandle, hsettled⟩ := h.handle_ok hkeeps
    exact ⟨menu, hhandle, hsettled.positioned⟩

theorem Settled.add (h : s.Settled) {menuItem subItem : ι} {tree' : MenuTree ι}
    (hadd : menuItemSubitemAdd s.tree menuItem subItem = some tree') :
    Settled { s with tree := tree' } := by
  unfold menuItemSubitemAdd at hadd
  split at hadd
  · obtain rfl := Option.some.inj hadd
    have hother {i : ι} (hne : i ≠ menuItem) : Function.update s.tree.subitems menuItem
        (s.tree.subitems menuItem ++ [subItem]) i = s.tree.subitems i :=
      Function.update_of_ne hne _ _
    have hself : Function.update s.tree.subitems menuItem
        (s.tree.subitems menuItem ++ [subItem]) menuItem = s.tree.subitems menuItem ++ [subItem] :=
      Function.update_self _ _ _
    refine ⟨h.current, fun i hi => ?_, fun i hi => ?_⟩
    · rcases eq_or_ne i menuItem with rfl | hne
      · simp only [hself, List.length_append, List.length_singleton]
        rcases eq_or_ne (s.tree.subitems i) [] with hempty | hsome
        · rw [h.empty i hempty]
          exact Nat.succ_pos _
        · exact Nat.lt_succ_of_lt (h.positions i hsome)
      · simp only [hother hne] at hi ⊢
        exact h.positions i hi
    · rcases eq_or_ne i menuItem with rfl | hne
      · simp only [hself] at hi
        exact absurd hi (List.append_ne_nil_of_right_ne_nil _ (List.cons_ne_nil _ _))
      · simp only [hother hne] at hi
        exact h.empty i hi
  · cases hadd

theorem Settled.next (h : s.Settled) (hkeeps : s.Keeps l)
    (hs : (machine tree).next s l = some s') : s'.Settled := by
  cases l with
  | message message =>
    obtain ⟨menu, hhandle, hsettled⟩ := h.handle_ok hkeeps
    simp only [machine, hhandle, Except.toOption, Option.map_some] at hs
    exact Option.some.inj hs ▸ hsettled
  | add menuItem subItem =>
    obtain ⟨tree', hadd, rfl⟩ := Option.map_eq_some_iff.mp hs
    exact h.add hadd

end Navigation

variable [DecidableEq ι]

/-- In every run in which Up and Down come only where the current menu has items, the position of
the current menu is that of an item, or 0 where it has none. The next message is then handled
without a fault, to such a position, if and only if it is no Up or Down in an empty menu. -/
theorem menu_navigation (tree : MenuTree ι) {s : Navigation ι}
    (hreach : (Navigation.machine tree).ReachableWith Navigation.Keeps s) :
    s.Positioned ∧ ∀ message,
      (∃ menu, Navigation.handle s.tree.toMenuItems s.menu message = .ok menu ∧
        Navigation.Positioned { s with menu := menu }) ↔ s.Keeps (.message message) := by
  have hsettled : s.Settled := by
    refine hreach.invariant ?_ fun _ _ _ h hkeeps hs => h.next hkeeps hs
    exact ⟨fun _ hnone => (by cases hnone), positions_zero, fun _ _ => rfl⟩
  exact ⟨hsettled.positioned, hsettled.handle_iff⟩

/-- A root menu, an empty menu 1 and a function 2 below it. -/
def smallTree : MenuTree ℕ where
  root := 0
  type i := if i = 2 then .function else .menu
  subitems i := if i = 0 then [1, 2] else []
  parent i := if i = 1 ∨ i = 2 then some 0 else none
  root_menu := rfl
  parent_menu := by
    intro i j h
    split at h
    · exact Option.some.inj h ▸ rfl
    · cases h
  short := by
    intro i
    split <;> decide

/-- Down in the root menu of two items. -/
theorem menu_navigation_down : ∃ s : Navigation ℕ, s.menu.current = some 0 ∧
    s.menu.position 0 = 1 ∧ s.Positioned := by
  have hopen : (Navigation.machine smallTree).ReachableWith Navigation.Keeps
      ⟨smallTree, menuItemSetPosition ⟨some 0, fun _ => 0⟩ 0 0⟩ :=
    Machine.ReachableWith.init.step (l := .message .ok) trivial rfl
  have hdown : (Navigation.machine smallTree).ReachableWith Navigation.Keeps
      ⟨smallTree,
        menuDown smallTree.toMenuItems (menuItemSetPosition ⟨some 0, fun _ => 0⟩ 0 0) 0⟩ := by
    refine hopen.step (l := .message .down) ?_ rfl
    rintro current hcurrent
    obtain rfl := Option.some.inj hcurrent
    exact List.cons_ne_nil _ _
  exact ⟨_, rfl, rfl, (menu_navigation smallTree hdown).1⟩

/-- In the empty menu Up leaves the position 2 ^ 32 - 1, and Down takes a remainder by zero. -/
theorem menu_navigation_empty : ¬∀ (tree : MenuTree ℕ) (s : Navigation ℕ),
    (Navigation.machine tree).Reachable s → s.Positioned ∧ ∀ message,
      Navigation.handle s.tree.toMenuItems s.menu message ≠ .error .divisionByZero := by
  intro h
  have hopen : (Navigation.machine smallTree).Reachable
      ⟨smallTree, menuItemSetPosition ⟨some 0, fun _ => 0⟩ 0 0⟩ :=
    Machine.Reachable.step (l := .message .ok) .init rfl
  have henter := hopen.step (l := .message .ok) rfl
  exact (h smallTree _ henter).2 .down rfl

end FlipperZero.MenuService
