import FlipperZero.Gui.ViewDispatcher
import Mathlib.Algebra.Group.Nat.Defs

/-! # Navigating a submenu

A submenu shows a window of four of its items and a position among all of them. The position and
the window are bytes, while the number of items is a `size_t`, and the moves compare them with
that number less a constant.
-/

namespace FlipperZero.Gui

open Lib Input

structure SubmenuItem (Callback Context : Type) where
  label : List Char
  index : UInt32
  callback : Option Callback
  callbackContext : Context

/-- An array that the memory has room for, so that its size is a `size_t`. -/
structure SubmenuItemArray (Callback Context : Type) where
  items : List (SubmenuItem Callback Context)
  short : items.length < 2 ^ 32

structure SubmenuModel (Callback Context : Type) where
  items : SubmenuItemArray Callback Context
  position : UInt8
  windowPosition : UInt8

section Operations

variable {Callback Context : Type}

namespace SubmenuItemArray

def empty : SubmenuItemArray Callback Context := ⟨[], Nat.two_pow_pos 32⟩

def size (array : SubmenuItemArray Callback Context) : UInt32 := .ofNat array.items.length

/-- The program stops when there is no memory for another item. -/
def pushNew (array : SubmenuItemArray Callback Context) (item : SubmenuItem Callback Context) :
    Option (SubmenuItemArray Callback Context) :=
  if h : (array.items ++ [item]).length < 2 ^ 32 then some ⟨array.items ++ [item], h⟩ else none

end SubmenuItemArray

namespace SubmenuModel

def init : SubmenuModel Callback Context := ⟨.empty, 0, 0⟩

variable (model : SubmenuModel Callback Context)

def addItem (item : SubmenuItem Callback Context) : Option (SubmenuModel Callback Context) :=
  (model.items.pushNew item).map fun items => { model with items }

def clean (_ : SubmenuModel Callback Context) : SubmenuModel Callback Context := ⟨.empty, 0, 0⟩

def select (position : UInt32) : SubmenuModel Callback Context :=
  let windowPosition := position.toUInt8
  let windowPosition := if 0 < windowPosition then windowPosition - 1 else windowPosition
  let windowPosition :=
    if model.items.size ≤ 4 then 0
    else
      if model.items.size - 4 ≤ windowPosition.toUInt32 then (model.items.size - 4).toUInt8
      else windowPosition
  { model with position := position.toUInt8, windowPosition }

def setSelectedItem (index : UInt32) : SubmenuModel Callback Context :=
  let position : UInt32 := .ofNat (model.items.items.findIdx (·.index = index))
  model.select (if model.items.size ≤ position then 0 else position)

def processUp : SubmenuModel Callback Context :=
  if 0 < model.position then
    let position := model.position - 1
    { model with
      position
      windowPosition :=
        if (position.toNat : ℤ) - model.windowPosition.toNat < 1 ∧ 0 < model.windowPosition then
          model.windowPosition - 1
        else model.windowPosition }
  else
    let position := (model.items.size - 1).toUInt8
    { model with
      position
      windowPosition := if 3 < position then position - 3 else model.windowPosition }

def processDown : SubmenuModel Callback Context :=
  if model.position.toUInt32 < model.items.size - 1 then
    let position := model.position + 1
    { model with
      position
      windowPosition :=
        if 2 < (position.toNat : ℤ) - model.windowPosition.toNat ∧
            model.windowPosition.toUInt32 < model.items.size - 4 then
          model.windowPosition + 1
        else model.windowPosition }
  else { model with position := 0, windowPosition := 0 }

/-- The callback that OK calls, with its context and the index of the item. -/
def processOk : Option (Callback × Context × UInt32) :=
  if model.position.toUInt32 < model.items.size then
    model.items.items[model.position.toNat]?.bind fun item =>
      item.callback.map fun callback => (callback, item.callbackContext, item.index)
  else none

def inputCallback (event : InputEvent) : SubmenuModel Callback Context :=
  if event.type = .short then
    match event.key with
    | .up => model.processUp
    | .down => model.processDown
    | _ => model
  else model

end SubmenuModel

inductive SubmenuCall (Callback Context : Type) where
  | addItem (item : SubmenuItem Callback Context)
  | clean
  | setSelectedItem (index : UInt32)
  | input (event : InputEvent)

def submenuMachine (Callback Context : Type) :
    Machine (SubmenuModel Callback Context) (SubmenuCall Callback Context) where
  init := .init
  next model
    | .addItem item => model.addItem item
    | .clean => some model.clean
    | .setSelectedItem index => some (model.setSelectedItem index)
    | .input event => some (model.inputCallback event)

end Operations

section Place

variable {Callback Context : Type} {model model' : SubmenuModel Callback Context}

namespace SubmenuModel

def count (model : SubmenuModel Callback Context) : ℕ := model.items.items.length

/-- The position is that of an item and shown, and the window stays within the items. -/
structure Placed (model : SubmenuModel Callback Context) : Prop where
  position : 0 < model.count → model.position.toNat < model.count
  shown : 0 < model.count → model.windowPosition.toNat ≤ model.position.toNat ∧
    model.position.toNat < model.windowPosition.toNat + 4
  window : 0 < model.count → model.windowPosition.toNat ≤ model.count - 4
  empty : model.count = 0 → model.position = 0 ∧ model.windowPosition = 0

theorem toNat_size (model : SubmenuModel Callback Context) :
    model.items.size.toNat = model.count := by
  have hshort := model.items.short
  exact Nat.mod_eq_of_lt hshort

theorem toNat_size_sub {k : ℕ} (hk : k < 2 ^ 32) (h : k ≤ model.count) :
    (model.items.size - .ofNat k).toNat = model.count - k := by
  have hsize := toNat_size model
  have hle : UInt32.ofNat k ≤ model.items.size := by
    rw [UInt32.le_iff_toNat_le, hsize, UInt32.toNat_ofNat_of_lt' hk]
    exact h
  rw [UInt32.toNat_sub_of_le _ _ hle, hsize, UInt32.toNat_ofNat_of_lt' hk]

inductive Up (model : SubmenuModel Callback Context) : SubmenuModel Callback Context → Prop
  | move (position windowPosition : UInt8) (hposition : position.toNat + 1 = model.position.toNat)
      (hwindow : position.toNat ≤ model.windowPosition.toNat ∧
          windowPosition.toNat + 1 = model.windowPosition.toNat ∨
        (model.windowPosition.toNat < position.toNat ∨ model.windowPosition.toNat = 0) ∧
          windowPosition.toNat = model.windowPosition.toNat) :
      Up model { model with position, windowPosition }
  | wrap (position windowPosition : UInt8) (hzero : model.position.toNat = 0)
      (hposition : position.toNat = (model.count - 1) % 256)
      (hwindow : windowPosition.toNat + 3 = position.toNat ∨
        position.toNat ≤ 3 ∧ windowPosition.toNat = model.windowPosition.toNat) :
      Up model { model with position, windowPosition }

inductive Down (model : SubmenuModel Callback Context) : SubmenuModel Callback Context → Prop
  | move (position windowPosition : UInt8) (hlast : model.position.toNat + 1 < model.count)
      (hposition : position.toNat = (model.position.toNat + 1) % 256)
      (hwindow : model.windowPosition.toNat + 2 < position.toNat ∧
          model.windowPosition.toNat + 4 < model.count ∧
          windowPosition.toNat = model.windowPosition.toNat + 1 ∨
        (position.toNat ≤ model.windowPosition.toNat + 2 ∨
            model.count ≤ model.windowPosition.toNat + 4) ∧
          windowPosition.toNat = model.windowPosition.toNat) :
      Down model { model with position, windowPosition }
  | wrap (hlast : model.count ≤ model.position.toNat + 1) :
      Down model { model with position := 0, windowPosition := 0 }

theorem up_cases (hcount : 0 < model.count) : model.Up model.processUp := by
  unfold processUp
  split
  · next hposition =>
    refine .move _ _ (toNat_sub_one_add_one hposition) ?_
    split
    · next hwindow => exact .inl ⟨by omega, toNat_sub_one_add_one hwindow.2⟩
    · next hwindow =>
      rw [UInt8.lt_iff_toNat_lt, UInt8.toNat_zero] at hwindow
      exact .inr ⟨by omega, rfl⟩
  · next hposition =>
    rw [UInt8.lt_iff_toNat_lt, UInt8.toNat_zero] at hposition
    have hsize : (model.items.size - 1).toUInt8.toNat = (model.count - 1) % 256 := by
      rw [UInt32.toNat_toUInt8]
      exact congrArg (· % 256) (toNat_size_sub (by decide) hcount)
    refine .wrap _ _ (by omega) hsize ?_
    split
    · next hthree =>
      have hle : (3 : UInt8) ≤ (model.items.size - 1).toUInt8 := UInt8.le_of_lt hthree
      left
      rw [UInt8.toNat_sub_of_le _ _ hle]
      exact Nat.sub_add_cancel (UInt8.le_iff_toNat_le.mp hle)
    · next hthree => exact .inr ⟨UInt8.le_iff_toNat_le.mp (UInt8.not_lt.mp hthree), rfl⟩

theorem down_cases (hcount : 0 < model.count) : model.Down model.processDown := by
  have hsize : (model.items.size - 1).toNat = model.count - 1 := toNat_size_sub (by decide) hcount
  unfold processDown
  split
  · next hlast =>
    rw [UInt32.lt_iff_toNat_lt, UInt8.toNat_toUInt32, hsize] at hlast
    have hposition : (model.position + 1).toNat = (model.position.toNat + 1) % 256 :=
      UInt8.toNat_add _ _
    refine .move _ _ (by omega) hposition ?_
    have hroom : 4 ≤ model.count →
        (model.windowPosition.toUInt32 < model.items.size - 4 ↔
          model.windowPosition.toNat + 4 < model.count) := by
      intro h
      have hfour : (model.items.size - 4).toNat = model.count - 4 := toNat_size_sub (by decide) h
      rw [UInt32.lt_iff_toNat_lt, UInt8.toNat_toUInt32, hfour]
      omega
    split
    · next hwindow =>
      obtain ⟨hfar, hwindow⟩ := hwindow
      rw [hroom (by omega)] at hwindow
      refine .inl ⟨by omega, hwindow, ?_⟩
      rw [UInt8.toNat_add, UInt8.toNat_one]
      omega
    · next hwindow =>
      refine .inr ⟨?_, rfl⟩
      by_contra hno
      push Not at hno
      exact hwindow ⟨by omega, (hroom (by omega)).mpr (by omega)⟩
  · next hlast =>
    rw [UInt32.lt_iff_toNat_lt, UInt8.toNat_toUInt32, hsize] at hlast
    exact .wrap (by omega)

theorem placed_select {position : UInt32} (hposition : position.toNat < model.count) :
    (model.select position).Placed := by
  have hsize := toNat_size model
  have hbyte : position.toUInt8.toNat = position.toNat % 256 := UInt32.toNat_toUInt8 _
  have hfirst : (if 0 < position.toUInt8 then position.toUInt8 - 1 else position.toUInt8).toNat =
      position.toUInt8.toNat - 1 := by
    split
    · next hpos => exact Nat.eq_sub_of_add_eq (toNat_sub_one_add_one hpos)
    · next hpos =>
      rw [UInt8.lt_iff_toNat_lt, UInt8.toNat_zero] at hpos
      omega
  have hwindow : (model.select position).windowPosition.toNat ≤ position.toNat % 256 ∧
      position.toNat % 256 < (model.select position).windowPosition.toNat + 4 ∧
      (model.select position).windowPosition.toNat ≤ model.count - 4 := by
    unfold select
    simp only
    generalize (if 0 < position.toUInt8 then position.toUInt8 - 1
      else position.toUInt8) = first at *
    split
    · next hfew =>
      have hfew : model.items.size.toNat ≤ 4 := UInt32.le_iff_toNat_le.mp hfew
      rw [UInt8.toNat_zero]
      omega
    · next hfew =>
      have hfew : ¬model.items.size.toNat ≤ 4 := fun h => hfew (UInt32.le_iff_toNat_le.mpr h)
      have hfour : 4 ≤ model.count := by omega
      have hlast : (model.items.size - 4).toNat = model.count - 4 :=
        toNat_size_sub (by decide) hfour
      split
      · next hend =>
        rw [UInt32.le_iff_toNat_le, UInt8.toNat_toUInt32, hlast] at hend
        rw [UInt32.toNat_toUInt8, hlast]
        have hlt := first.toNat_lt
        omega
      · next hend =>
        rw [UInt32.le_iff_toNat_le, UInt8.toNat_toUInt32, hlast] at hend
        omega
  have hcount : (model.select position).count = model.count := rfl
  have hselected : (model.select position).position.toNat = position.toNat % 256 := hbyte
  constructor <;> intro h <;> omega

theorem select_zero (hcount : model.count = 0) :
    model.select 0 = { model with position := 0, windowPosition := 0 } := by
  have hfew : model.items.size ≤ 4 := by
    rw [UInt32.le_iff_toNat_le, toNat_size, hcount]
    exact Nat.zero_le _
  simp only [select, if_pos hfew]
  rfl

theorem placed_setSelectedItem (index : UInt32) : (model.setSelectedItem index).Placed := by
  have hsize := toNat_size model
  rcases Nat.eq_zero_or_pos model.count with hcount | hcount
  · have hnone (position : UInt32) : model.items.size ≤ position := by
      rw [UInt32.le_iff_toNat_le, hsize, hcount]
      exact Nat.zero_le _
    rw [setSelectedItem, if_pos (hnone _), select_zero hcount]
    exact ⟨fun h => absurd hcount (Nat.ne_of_gt h), fun h => absurd hcount (Nat.ne_of_gt h),
      fun h => absurd hcount (Nat.ne_of_gt h), fun _ => ⟨rfl, rfl⟩⟩
  · apply placed_select
    split
    · exact hcount
    · next hfound =>
      rw [UInt32.le_iff_toNat_le] at hfound
      omega

theorem Up.placed (h : model.Up model') (hplaced : model.Placed) (hcount : 0 < model.count) :
    model'.Placed := by
  have hshown := hplaced.shown hcount
  have hposition := hplaced.position hcount
  have hwindow := hplaced.window hcount
  cases h with
  | move position windowPosition hmove hshift =>
    refine ⟨fun _ => ?_, fun _ => ?_, fun _ => ?_, fun h => absurd h (Nat.ne_of_gt hcount)⟩
    · simp only [count] at *
      omega
    · simp only
      omega
    · simp only [count] at *
      omega
  | wrap position windowPosition hzero hwrap hshift =>
    refine ⟨fun _ => ?_, fun _ => ?_, fun _ => ?_, fun h => absurd h (Nat.ne_of_gt hcount)⟩
    · simp only [count] at *
      omega
    · simp only
      omega
    · simp only [count] at *
      omega

theorem Down.placed_iff (h : model.Down model') (hplaced : model.Placed)
    (hcount : 0 < model.count) :
    model'.Placed ↔ model.count ≤ 256 ∨ model.position.toNat < 255 := by
  have hshown := hplaced.shown hcount
  have hposition := hplaced.position hcount
  have hwindow := hplaced.window hcount
  cases h with
  | move position windowPosition hlast hmove hshift =>
    constructor
    · intro hplaced'
      have hshown' := hplaced'.shown hcount
      simp only at hshown'
      omega
    · intro hroom
      refine ⟨fun _ => ?_, fun _ => ?_, fun _ => ?_, fun h => absurd h (Nat.ne_of_gt hcount)⟩
      · simp only [count] at *
        omega
      · simp only
        omega
      · simp only [count] at *
        omega
  | wrap hlast =>
    refine iff_of_true ⟨fun _ => hcount, fun _ => ⟨Nat.le_refl 0, Nat.zero_lt_succ 3⟩,
      fun _ => Nat.zero_le _, fun _ => ⟨rfl, rfl⟩⟩ ?_
    have hlt := model.position.toNat_lt
    omega

theorem placed_init : (init : SubmenuModel Callback Context).Placed :=
  ⟨fun h => absurd h (Nat.lt_irrefl 0), fun h => absurd h (Nat.lt_irrefl 0),
    fun h => absurd h (Nat.lt_irrefl 0), fun _ => ⟨rfl, rfl⟩⟩

theorem Placed.addItem (hplaced : model.Placed) {item : SubmenuItem Callback Context}
    (h : model.addItem item = some model') : model'.Placed := by
  obtain ⟨hadded, hposition', hwindow'⟩ : model'.count = model.count + 1 ∧
      model'.position.toNat = model.position.toNat ∧
      model'.windowPosition.toNat = model.windowPosition.toNat := by
    unfold SubmenuModel.addItem SubmenuItemArray.pushNew at h
    split at h
    · obtain rfl := Option.some.inj h
      exact ⟨List.length_append, rfl, rfl⟩
    · cases h
  rcases Nat.eq_zero_or_pos model.count with hcount | hcount
  · obtain ⟨hposition, hwindow⟩ := hplaced.empty hcount
    rw [hposition, UInt8.toNat_zero] at hposition'
    rw [hwindow, UInt8.toNat_zero] at hwindow'
    constructor <;> intro _ <;> omega
  · have hshown := hplaced.shown hcount
    have hposition := hplaced.position hcount
    have hwindow := hplaced.window hcount
    constructor <;> intro _ <;> omega

theorem Placed.not_up (hplaced : model.Placed) (hcount : model.count = 0) :
    ¬model.processUp.Placed := by
  obtain ⟨hposition, hwindow⟩ := hplaced.empty hcount
  have hsize : model.items.size = 0 := UInt32.toNat_inj.mp ((toNat_size model).trans hcount)
  intro hup
  have h := (hup.empty (by unfold processUp; split <;> exact hcount)).1
  unfold processUp at h
  rw [hposition, hsize, if_neg (by decide)] at h
  exact absurd h (by decide : (0 - 1 : UInt32).toUInt8 ≠ 0)

theorem Placed.not_down (hplaced : model.Placed) (hcount : model.count = 0) :
    ¬model.processDown.Placed := by
  obtain ⟨hposition, hwindow⟩ := hplaced.empty hcount
  have hsize : model.items.size = 0 := UInt32.toNat_inj.mp ((toNat_size model).trans hcount)
  intro hdown
  have h := (hdown.empty (by unfold processDown; split <;> exact hcount)).1
  unfold processDown at h
  rw [hposition, hsize, if_pos (by decide)] at h
  exact absurd h (by decide : (0 + 1 : UInt8) ≠ 0)

/-- Up is pressed where there are items; Down as well, and not where the position overflows. -/
def Keeps (model : SubmenuModel Callback Context) : SubmenuCall Callback Context → Prop
  | .input ⟨.up, .short⟩ => 0 < model.count
  | .input ⟨.down, .short⟩ => 0 < model.count ∧ (model.count ≤ 256 ∨ model.position ≠ 255)
  | _ => True

theorem Placed.up_iff (hplaced : model.Placed) : model.processUp.Placed ↔ 0 < model.count := by
  rcases Nat.eq_zero_or_pos model.count with hcount | hcount
  · exact iff_of_false (hplaced.not_up hcount) (Nat.not_lt.mpr (Nat.le_of_eq hcount))
  · exact iff_of_true ((up_cases hcount).placed hplaced hcount) hcount

theorem Placed.down_iff (hplaced : model.Placed) : model.processDown.Placed ↔
    0 < model.count ∧ (model.count ≤ 256 ∨ model.position ≠ 255) := by
  rcases Nat.eq_zero_or_pos model.count with hcount | hcount
  · exact iff_of_false (hplaced.not_down hcount) fun h => Nat.ne_of_gt h.1 hcount
  · have hlast : model.position ≠ 255 ↔ model.position.toNat < 255 := by
      have hlt := model.position.toNat_lt
      rw [ne_eq, ← UInt8.toNat_inj]
      change ¬model.position.toNat = 255 ↔ _
      omega
    rw [(down_cases hcount).placed_iff hplaced hcount, hlast, and_iff_right hcount]

theorem Placed.processOk_eq (hplaced : model.Placed) (hcount : 0 < model.count) :
    ∃ item ∈ model.items.items, model.processOk =
      item.callback.map fun callback => (callback, item.callbackContext, item.index) := by
  have hposition : model.position.toNat < model.items.items.length := hplaced.position hcount
  have hlt : model.position.toUInt32 < model.items.size := by
    rw [UInt32.lt_iff_toNat_lt, UInt8.toNat_toUInt32, toNat_size]
    exact hposition
  refine ⟨model.items.items[model.position.toNat], List.getElem_mem hposition, ?_⟩
  rw [processOk, if_pos hlt, List.getElem?_eq_getElem hposition]
  rfl

theorem Placed.next_iff (hplaced : model.Placed) {call : SubmenuCall Callback Context}
    (h : (submenuMachine Callback Context).next model call = some model') :
    model'.Placed ↔ model.Keeps call := by
  cases call with
  | addItem item => exact iff_of_true (hplaced.addItem h) trivial
  | clean =>
    obtain rfl := Option.some.inj h
    exact iff_of_true placed_init trivial
  | setSelectedItem index =>
    obtain rfl := Option.some.inj h
    exact iff_of_true (placed_setSelectedItem index) trivial
  | input event =>
    obtain rfl := Option.some.inj h
    obtain ⟨key, type⟩ := event
    cases type <;> cases key
    case short.up => exact hplaced.up_iff
    case short.down => exact hplaced.down_iff
    all_goals exact iff_of_true hplaced trivial

end SubmenuModel

/-- In every run in which Up and Down are pressed only where there are items, and Down not where
the position overflows, the position is that of an item and shown. A move that is not so breaks
this. -/
theorem submenu_keeps_place (hreach : (submenuMachine Callback Context).ReachableWith
      SubmenuModel.Keeps model) :
    model.Placed ∧ ∀ call model', (submenuMachine Callback Context).next model call = some model' →
      (model'.Placed ↔ model.Keeps call) := by
  have hplaced : model.Placed := hreach.invariant SubmenuModel.placed_init
    fun _ _ _ hplaced hkeeps hs => (hplaced.next_iff hs).mpr hkeeps
  exact ⟨hplaced, fun _ _ => hplaced.next_iff⟩

end Place

/-- Down in a submenu of two items. -/
theorem submenu_keeps_place_two : ∃ model : SubmenuModel Unit Unit,
    model.position = 1 ∧ model.Placed := by
  let two : SubmenuModel Unit Unit := ⟨⟨List.replicate 2 ⟨[], 0, none, ()⟩, by decide⟩, 0, 0⟩
  obtain ⟨hreach, hposition⟩ : (submenuMachine Unit Unit).ReachableWith SubmenuModel.Keeps
      two.processDown ∧ two.processDown.position = 1 := by
    have hone : (submenuMachine Unit Unit).ReachableWith SubmenuModel.Keeps
        ⟨⟨[⟨[], 0, none, ()⟩], by decide⟩, 0, 0⟩ :=
      Machine.ReachableWith.init.step (l := .addItem ⟨[], 0, none, ()⟩) trivial rfl
    have htwo : (submenuMachine Unit Unit).ReachableWith SubmenuModel.Keeps two :=
      hone.step (l := .addItem ⟨[], 0, none, ()⟩) trivial rfl
    exact ⟨htwo.step (l := .input ⟨.down, .short⟩) ⟨by decide, .inl (by decide)⟩ rfl, by decide⟩
  exact ⟨_, hposition, (submenu_keeps_place hreach).1⟩

/-- Up in a submenu without items moves to the position 255. -/
theorem submenu_leaves_place : ¬∀ model : SubmenuModel Unit Unit,
    (submenuMachine Unit Unit).Reachable model → model.Placed := by
  intro h
  have hreach : (submenuMachine Unit Unit).Reachable SubmenuModel.init.processUp :=
    Machine.Reachable.step (l := .input ⟨.up, .short⟩) .init rfl
  exact SubmenuModel.placed_init.not_up rfl (h _ hreach)

end FlipperZero.Gui
