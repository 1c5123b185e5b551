import FlipperZero.Lib.Machine
import FlipperZero.Gui.ViewDispatcher
import Mathlib.Algebra.GroupWithZero.Nat
import Mathlib.Order.Nat

/-! # Locking and unlocking on the idle view

The lock menu locks the device. Three presses of Back in quick succession unlock it; they are
counted with the time of the last one, which stays where it is when the device is unlocked.
-/

namespace FlipperZero.Dolphin

open Lib Gui

def unlockRstTimeout : ℕ := 500

structure DolphinLock where
  locked : Bool
  lockCount : BitVec 8
  lockLastpress : BitVec 32
deriving DecidableEq, Repr

namespace DolphinLock

variable (d : DolphinLock) (pressTime : BitVec 32)

/-- The milliseconds since the last press, as the code has them. -/
def sinceLastpress : ℕ := (pressTime - d.lockLastpress).toNat

def checkSequence : DolphinLock :=
  if unlockRstTimeout < d.sinceLastpress pressTime then
    { d with lockLastpress := pressTime, lockCount := 0 }
  else if d.sinceLastpress pressTime < unlockRstTimeout then
    { d with lockLastpress := pressTime, lockCount := d.lockCount + 1 }
  else d

def lockHandler (event : InputEvent) : DolphinLock :=
  if event = ⟨.back, .short⟩ then
    let d := d.checkSequence pressTime
    if d.lockCount = 2 then { d with locked := false, lockCount := 0 } else d
  else d

end DolphinLock

structure LockSystem where
  lock : DolphinLock
  /-- Whether the lock menu is shown, and its selected item. -/
  lockMenu : Bool
  idx : ℕ
  time : ℕ
  /-- When Back was pressed since the device was locked, the last time first; the code keeps only
  `lock`. -/
  presses : List ℕ

namespace LockSystem

variable (s : LockSystem)

def getTick : BitVec 32 := .ofNat 32 s.time

def viewIdleMainInput (event : InputEvent) : LockSystem :=
  if s.lock.locked then
    { s with
      lock := s.lock.lockHandler s.getTick event
      presses := if event = ⟨.back, .short⟩ then s.time :: s.presses else s.presses }
  else if event = ⟨.up, .short⟩ then { s with lockMenu := true }
  else s

def lockMenuCallback : LockSystem :=
  if s.idx = 0 then
    { s with
      lock := { s.lock with locked := true }
      presses := if s.lock.locked then s.presses else [] }
  else s

def viewLockmenuInput (event : InputEvent) : LockSystem :=
  if event.type = .short then
    match event.key with
    | .up => { s with idx := min 2 (s.idx - 1) }
    | .down => { s with idx := min 2 (s.idx + 1) }
    | .ok => s.lockMenuCallback
    | .back => { s with idx := 0, lockMenu := false }
    | .left | .right => s
  else s

inductive Label where
  | wait (ms : ℕ)
  | input (event : InputEvent)
  /-- The service leaves the lock menu a while after the device was locked. -/
  | exitLockMenu
deriving DecidableEq, Repr

def next : Label → Option LockSystem
  | .wait ms => some { s with time := s.time + ms }
  | .input event =>
    some (if s.lockMenu then s.viewLockmenuInput event else s.viewIdleMainInput event)
  | .exitLockMenu => some { s with lockMenu := false }

def machine : Machine LockSystem Label where
  init := ⟨⟨false, 0, 0⟩, false, 0, 0, []⟩
  next := next

def Presses (l : Label) : Prop :=
  s.lock.locked = true ∧ s.lockMenu = false ∧ l = .input ⟨.back, .short⟩

def Unlocks (s' : LockSystem) : Prop := s.lock.locked = true ∧ s'.lock.locked = false

/-- Two presses of a list are less than the timeout apart. -/
def quickPair : List ℕ → Bool
  | t :: t' :: _ => t - t' < unlockRstTimeout
  | _ => false

/-- A step unlocks the device if it is at least the third press, soon after the two before. -/
def Meets (l : Label) (s' : LockSystem) : Prop :=
  s.Unlocks s' ↔ s.Presses l ∧ quickPair (s.time :: s.presses) ∧ quickPair s.presses

/-- A press comes soon after another one since the device was locked, or late after the one that is
taken for the last. -/
def Keeps (l : Label) : Prop :=
  s.Presses l → quickPair (s.time :: s.presses) ∨
    unlockRstTimeout < s.lock.sinceLastpress s.getTick

instance (l : Label) : Decidable (s.Presses l) := inferInstanceAs (Decidable (_ ∧ _ ∧ _))

instance (l : Label) (s' : LockSystem) : Decidable (s.Meets l s') :=
  inferInstanceAs (Decidable (_ ∧ _ ↔ _ ∧ _ ∧ _))

instance (l : Label) : Decidable (s.Keeps l) := inferInstanceAs (Decidable (_ → _ ∨ _))

/-- The presses since the device was locked give the count. -/
structure Sound : Prop where
  unlocked : s.lock.locked = false → s.lock.lockCount = 0
  count : s.lock.locked = true → s.lock.lockCount = if quickPair s.presses then 1 else 0
  lastpress : s.lock.locked = true → ∀ t ∈ s.presses.head?,
    t ≤ s.time ∧ s.lock.lockLastpress = .ofNat 32 t

variable {s : LockSystem} {s' : LockSystem} {l : Label}

theorem sound_init : machine.init.Sound := by
  constructor
  · intro _
    rfl
  · rintro ⟨⟩
  · rintro ⟨⟩

section Press

/-- What Back does to the count, where it does not unlock. -/
def counted (s : LockSystem) : LockSystem :=
  { s with lock := s.lock.checkSequence s.getTick, presses := s.time :: s.presses }

theorem next_of_presses (hl : s.Presses l) : machine.next s l =
    some (if s.counted.lock.lockCount = 2 then
      { s.counted with lock := { s.counted.lock with locked := false, lockCount := 0 } }
    else s.counted) := by
  obtain ⟨hlocked, hmenu, rfl⟩ := hl
  simp only [machine, next, hmenu, viewIdleMainInput, hlocked, DolphinLock.lockHandler, if_true,
    Bool.false_eq_true, if_false, counted]
  split <;> rfl

@[simp] theorem counted_locked : s.counted.lock.locked = s.lock.locked := by
  simp only [counted, DolphinLock.checkSequence]
  split
  · rfl
  · split <;> rfl

theorem counted_of_lt (h : s.lock.sinceLastpress s.getTick < unlockRstTimeout) :
    s.counted = { s with
      lock := ⟨s.lock.locked, s.lock.lockCount + 1, s.getTick⟩
      presses := s.time :: s.presses } := by
  rw [counted, DolphinLock.checkSequence, if_neg h.asymm, if_pos h]

theorem counted_of_gt (h : unlockRstTimeout < s.lock.sinceLastpress s.getTick) :
    s.counted = { s with
      lock := ⟨s.lock.locked, 0, s.getTick⟩
      presses := s.time :: s.presses } := by
  rw [counted, DolphinLock.checkSequence, if_pos h]

theorem next_of_gt (hl : s.Presses l) (h : unlockRstTimeout < s.lock.sinceLastpress s.getTick) :
    machine.next s l = some { s with
      lock := ⟨s.lock.locked, 0, s.getTick⟩
      presses := s.time :: s.presses } := by
  rw [next_of_presses hl, counted_of_gt h]
  rfl

theorem counted_of_eq (h : s.lock.sinceLastpress s.getTick = unlockRstTimeout) :
    s.counted = { s with presses := s.time :: s.presses } := by
  rw [counted, DolphinLock.checkSequence, if_neg h.not_gt, if_neg h.not_lt]

end Press

theorem next_of_not_presses (hl : ¬s.Presses l) (hs : machine.next s l = some s') :
    s'.lock = s.lock ∧ s'.presses = s.presses ∧ s.time ≤ s'.time ∨
      s'.lock = { s.lock with locked := true } ∧ s'.time = s.time ∧
        s'.presses = if s.lock.locked then s.presses else [] := by
  cases l with
  | wait ms =>
    obtain rfl := Option.some.inj hs
    exact .inl ⟨rfl, rfl, Nat.le_add_right _ _⟩
  | exitLockMenu =>
    obtain rfl := Option.some.inj hs
    exact .inl ⟨rfl, rfl, le_rfl⟩
  | input event =>
    obtain rfl := Option.some.inj hs
    split
    · unfold viewLockmenuInput
      split
      · split
        · exact .inl ⟨rfl, rfl, le_rfl⟩
        · exact .inl ⟨rfl, rfl, le_rfl⟩
        · unfold lockMenuCallback
          split
          · exact .inr ⟨rfl, rfl, rfl⟩
          · exact .inl ⟨rfl, rfl, le_rfl⟩
        · exact .inl ⟨rfl, rfl, le_rfl⟩
        · exact .inl ⟨rfl, rfl, le_rfl⟩
        · exact .inl ⟨rfl, rfl, le_rfl⟩
      · exact .inl ⟨rfl, rfl, le_rfl⟩
    · next hmenu =>
      unfold viewIdleMainInput
      split
      · next hlocked =>
        have hback : event ≠ ⟨.back, .short⟩ := by
          rintro rfl
          exact hl ⟨hlocked, Bool.eq_false_iff.mpr hmenu, rfl⟩
        rw [if_neg hback, DolphinLock.lockHandler, if_neg hback]
        exact .inl ⟨rfl, rfl, le_rfl⟩
      · split
        · exact .inl ⟨rfl, rfl, le_rfl⟩
        · exact .inl ⟨rfl, rfl, le_rfl⟩

theorem meets_of_not_presses (hl : ¬s.Presses l) (hs : machine.next s l = some s') :
    s.Meets l s' := by
  constructor
  · rintro ⟨hlocked, hunlocked⟩
    rcases next_of_not_presses hl hs with ⟨hlock, _⟩ | ⟨hlock, _⟩
    · rw [hlock, hlocked] at hunlocked
      cases hunlocked
    · rw [hlock] at hunlocked
      cases hunlocked
  · rintro ⟨hpress, _⟩
    exact absurd hpress hl

namespace Sound

theorem next_of_not_presses (h : s.Sound) (hl : ¬s.Presses l) (hs : machine.next s l = some s') :
    s'.Sound := by
  rcases LockSystem.next_of_not_presses hl hs with
    ⟨hlock, hpresses, htime⟩ | ⟨hlock, htime, hpresses⟩
  · constructor
    · rw [hlock]
      exact h.unlocked
    · rw [hlock, hpresses]
      exact h.count
    · rw [hlock, hpresses]
      intro hlocked t ht
      obtain ⟨hle, hlast⟩ := h.lastpress hlocked t ht
      exact ⟨hle.trans htime, hlast⟩
  · cases hlocked : s.lock.locked with
    | true =>
      rw [hlocked, if_pos rfl] at hpresses
      constructor
      · rw [hlock]
        rintro ⟨⟩
      · rw [hlock, hpresses]
        intro _
        exact h.count hlocked
      · rw [hlock, hpresses, htime]
        intro _
        exact h.lastpress hlocked
    | false =>
      rw [hlocked, if_neg Bool.false_ne_true] at hpresses
      constructor
      · rw [hlock]
        rintro ⟨⟩
      · rw [hlock, hpresses]
        intro _
        exact h.unlocked hlocked
      · rw [hpresses]
        rintro _ t ⟨⟩

theorem sinceLastpress_lt (h : s.Sound) (hlocked : s.lock.locked = true)
    (hquick : quickPair (s.time :: s.presses)) :
    s.lock.sinceLastpress s.getTick < unlockRstTimeout := by
  cases hpresses : s.presses with
  | nil =>
    rw [hpresses] at hquick
    cases hquick
  | cons t presses =>
    rw [hpresses] at hquick
    have hlt : s.time - t < unlockRstTimeout := of_decide_eq_true hquick
    obtain ⟨hle, hlast⟩ := h.lastpress hlocked t (by rw [hpresses]; rfl)
    simp only [DolphinLock.sinceLastpress, hlast, getTick, BitVec.toNat_sub, BitVec.toNat_ofNat]
    unfold unlockRstTimeout at hlt ⊢
    omega

theorem counted_lockCount (h : s.Sound) (hlocked : s.lock.locked = true)
    (hquick : s.lock.sinceLastpress s.getTick < unlockRstTimeout) :
    s.counted.lock.lockCount = if quickPair s.presses then 2 else 1 := by
  rw [counted_of_lt hquick, h.count hlocked]
  split <;> rfl

theorem counted (h : s.Sound) (hpress : s.Presses l) (hkeeps : s.Keeps l) :
    s.counted.lock.lockLastpress = s.getTick ∧ s.counted.lock.lockCount =
      if quickPair (s.time :: s.presses) then if quickPair s.presses then 2 else 1 else 0 := by
  by_cases hquick : quickPair (s.time :: s.presses)
  · have hlt := h.sinceLastpress_lt hpress.1 hquick
    rw [if_pos hquick]
    exact ⟨by rw [counted_of_lt hlt], h.counted_lockCount hpress.1 hlt⟩
  · have hgt := (hkeeps hpress).resolve_left hquick
    rw [if_neg hquick, counted_of_gt hgt]
    exact ⟨rfl, rfl⟩

theorem next_of_presses (h : s.Sound) (hpress : s.Presses l) (hkeeps : s.Keeps l)
    (hs : machine.next s l = some s') : s'.Sound ∧ s.Meets l s' := by
  obtain ⟨hlast, hcount⟩ := h.counted hpress hkeeps
  rw [LockSystem.next_of_presses hpress] at hs
  obtain rfl := Option.some.inj hs
  split
  · next htwo =>
    have hquick : quickPair (s.time :: s.presses) ∧ quickPair s.presses := by
      rw [hcount] at htwo
      split at htwo
      · next hquick =>
        split at htwo
        · next hbefore => exact ⟨hquick, hbefore⟩
        · cases htwo
      · cases htwo
    constructor
    · constructor
      · intro _
        rfl
      · rintro ⟨⟩
      · rintro ⟨⟩
    · exact ⟨fun _ => ⟨hpress, hquick⟩, fun _ => ⟨hpress.1, rfl⟩⟩
  · next htwo =>
    have hquick : ¬(quickPair (s.time :: s.presses) ∧ quickPair s.presses) := by
      rintro ⟨hquick, hbefore⟩
      rw [if_pos hquick, if_pos hbefore] at hcount
      exact htwo hcount
    have hlocked : s.counted.lock.locked = true := counted_locked.trans hpress.1
    constructor
    · constructor
      · intro hunlocked
        rw [hlocked] at hunlocked
        cases hunlocked
      · intro _
        rw [hcount]
        by_cases hnow : quickPair (s.time :: s.presses)
        · rw [if_pos hnow, if_neg fun hbefore => hquick ⟨hnow, hbefore⟩]
          exact (if_pos hnow).symm
        · rw [if_neg hnow]
          exact (if_neg hnow).symm
      · rintro _ t ⟨⟩
        exact ⟨le_rfl, hlast⟩
    · constructor
      · rintro ⟨_, hunlocked⟩
        rw [hlocked] at hunlocked
        cases hunlocked
      · rintro ⟨_, hpair⟩
        exact absurd hpair hquick

theorem next (h : s.Sound) (hkeeps : s.Keeps l) (hs : machine.next s l = some s') :
    s'.Sound ∧ s.Meets l s' := by
  by_cases hpress : s.Presses l
  · exact h.next_of_presses hpress hkeeps hs
  · exact ⟨h.next_of_not_presses hpress hs, meets_of_not_presses hpress hs⟩

end Sound

/-- Some step from here on unlocks the device, or does not, against what the presses are. -/
def Misses (s : LockSystem) : Prop :=
  ∃ ls t l t', machine.exec s ls = some t ∧ machine.next t l = some t' ∧ ¬t.Meets l t'

theorem Misses.of_next (hs : machine.next s l = some s') (h : s'.Misses) : s.Misses := by
  obtain ⟨ls, t, l', t', hexec, hnext, hmisses⟩ := h
  exact ⟨l :: ls, t, l', t', (Machine.exec_cons hs).trans hexec, hnext, hmisses⟩

def later (s : LockSystem) : LockSystem := { s with time := s.time + 1 }

theorem next_later : machine.next s (.wait 1) = some s.later := rfl

theorem sinceLastpress_later {n : ℕ} (h : s.lock.sinceLastpress s.getTick = n)
    (hn : n ≤ unlockRstTimeout) : s.later.lock.sinceLastpress s.later.getTick = n + 1 := by
  simp only [later, getTick, DolphinLock.sinceLastpress, BitVec.toNat_sub, BitVec.toNat_ofNat,
    unlockRstTimeout] at h hn ⊢
  omega

theorem sinceLastpress_later_of_last (hlast : s.lock.lockLastpress = s.getTick) :
    s.later.lock.sinceLastpress s.later.getTick = 1 := by
  have hzero : s.lock.sinceLastpress s.getTick = 0 := by
    rw [DolphinLock.sinceLastpress, hlast, BitVec.sub_self]
    rfl
  exact sinceLastpress_later hzero (Nat.zero_le _)

theorem misses_of_count (hpress : s.Presses l) (hlast : s.lock.lockLastpress = s.getTick)
    (hcount : s.lock.lockCount = 1) (hquick : ¬quickPair s.presses) : s.Misses := by
  have hlt : s.later.lock.sinceLastpress s.later.getTick < unlockRstTimeout := by
    rw [sinceLastpress_later_of_last hlast]
    decide
  have htwo : s.later.counted.lock.lockCount = 2 := by
    rw [counted_of_lt hlt]
    show s.lock.lockCount + 1 = 2
    rw [hcount]
    rfl
  have hs := next_of_presses (s := s.later) hpress
  rw [if_pos htwo] at hs
  apply Misses.of_next next_later
  refine ⟨[], _, l, _, rfl, hs, ?_⟩
  intro hmeets
  exact hquick (hmeets.mp ⟨hpress.1, rfl⟩).2.2

theorem misses_of_quick (hpress : s.Presses l) (hlast : s.lock.lockLastpress = s.getTick)
    (hcount : s.lock.lockCount = 0) (hquick : quickPair s.presses)
    (hnow : quickPair (s.later.time :: s.presses)) : s.Misses := by
  have hlt : s.later.lock.sinceLastpress s.later.getTick < unlockRstTimeout := by
    rw [sinceLastpress_later_of_last hlast]
    decide
  have hone : s.later.counted.lock.lockCount ≠ 2 := by
    rw [counted_of_lt hlt]
    show s.lock.lockCount + 1 ≠ 2
    rw [hcount]
    decide
  have hs := next_of_presses (s := s.later) hpress
  rw [if_neg hone] at hs
  apply Misses.of_next next_later
  refine ⟨[], _, l, _, rfl, hs, ?_⟩
  intro hmeets
  have hunlocked := (hmeets.mpr ⟨hpress, hnow, hquick⟩).2
  rw [counted_locked] at hunlocked
  cases hpress.1.symm.trans hunlocked

theorem misses_of_lt (h : s.Sound) (hpress : s.Presses l)
    (hquick : ¬quickPair (s.time :: s.presses))
    (hlt : s.lock.sinceLastpress s.getTick < unlockRstTimeout)
    (hs : machine.next s l = some s') : ¬s.Meets l s' ∨ s'.Misses := by
  have hcount := h.counted_lockCount hpress.1 hlt
  rw [next_of_presses hpress] at hs
  obtain rfl := Option.some.inj hs
  by_cases hbefore : quickPair s.presses
  · rw [if_pos hbefore] at hcount
    rw [if_pos hcount]
    left
    intro hmeets
    exact hquick (hmeets.mp ⟨hpress.1, rfl⟩).2.1
  · rw [if_neg hbefore] at hcount
    right
    rw [hcount, if_neg (by decide)]
    have hpress' : s.counted.Presses l := ⟨counted_locked.trans hpress.1, hpress.2⟩
    rw [counted_of_lt hlt] at hpress' hcount ⊢
    exact misses_of_count hpress' rfl hcount hquick

theorem misses_of_eq (h : s.Sound) (hpress : s.Presses l)
    (heq : s.lock.sinceLastpress s.getTick = unlockRstTimeout)
    (hs : machine.next s l = some s') : s'.Misses := by
  have hsince := sinceLastpress_later heq le_rfl
  have hgt : unlockRstTimeout < s.later.lock.sinceLastpress s.later.getTick := by
    rw [hsince]
    exact Nat.lt_succ_self _
  have hcount : s.lock.lockCount ≠ 2 := by
    rw [h.count hpress.1]
    split <;> decide
  have hquick (n : ℕ) (presses : List ℕ) : quickPair ((n + 1) :: n :: presses) = true := by
    simp [quickPair, unlockRstTimeout]
  rw [next_of_presses hpress, counted_of_eq heq, if_neg hcount] at hs
  obtain rfl := Option.some.inj hs
  apply Misses.of_next next_later
  refine Misses.of_next (next_of_gt (l := l) ?_ ?_) ?_
  · exact hpress
  · exact hgt
  · exact misses_of_quick hpress rfl rfl (hquick _ _) (hquick _ _)

theorem misses_of_not_keeps (h : s.Sound) (hkeeps : ¬s.Keeps l)
    (hs : machine.next s l = some s') : ¬s.Meets l s' ∨ s'.Misses := by
  simp only [Keeps, Classical.not_imp, not_or, Nat.not_lt] at hkeeps
  obtain ⟨hpress, hquick, hle⟩ := hkeeps
  rcases Nat.lt_or_eq_of_le hle with hlt | heq
  · exact misses_of_lt h hpress hquick hlt hs
  · exact .inr (misses_of_eq h hpress heq hs)

end LockSystem

/-- In every run that meets the condition the device is unlocked exactly by the third quick press
since it was locked. After any other step of such a run it is unlocked, or stays locked, against
this, if not at once then some presses later. -/
theorem dolphin_lock_handler_unlocks {s : LockSystem}
    (hreach : LockSystem.machine.ReachableWith LockSystem.Keeps s) {l : LockSystem.Label}
    {s' : LockSystem} (hs : LockSystem.machine.next s l = some s') :
    (s.Keeps l → s.Meets l s') ∧ (¬s.Keeps l → ¬s.Meets l s' ∨ s'.Misses) := by
  have hsound : s.Sound := hreach.invariant (P := LockSystem.Sound) LockSystem.sound_init
    fun _ _ _ h hkeeps hs => (h.next hkeeps hs).1
  exact ⟨fun hkeeps => (hsound.next hkeeps hs).2,
    fun hkeeps => LockSystem.misses_of_not_keeps hsound hkeeps hs⟩

/-- The device is locked and unlocked, and locked again soon after. The first press afterwards is
taken for the second of a sequence. -/
theorem dolphin_lock_handler_unlocks_relocked : ∃ s s' : LockSystem, s.presses = [] ∧
    LockSystem.machine.next s (.input ⟨.back, .short⟩) = some s' ∧
    (¬s.Meets (.input ⟨.back, .short⟩) s' ∨ s'.Misses) := by
  have hrun : ∃ s s' : LockSystem, LockSystem.machine.execWith LockSystem.Keeps
      LockSystem.machine.init
      [.wait 5000, .input ⟨.up, .short⟩, .input ⟨.ok, .short⟩, .input ⟨.back, .short⟩,
        .input ⟨.back, .short⟩, .wait 100, .input ⟨.back, .short⟩, .wait 100,
        .input ⟨.back, .short⟩, .input ⟨.up, .short⟩, .wait 100, .input ⟨.ok, .short⟩,
        .wait 100, .input ⟨.back, .short⟩, .wait 100] = some s ∧
      LockSystem.machine.next s (.input ⟨.back, .short⟩) = some s' ∧ s.presses = [] ∧
      ¬s.Keeps (.input ⟨.back, .short⟩) := ⟨_, _, rfl, rfl, rfl, by decide⟩
  obtain ⟨s, s', hexec, hs, hpresses, hkeeps⟩ := hrun
  have hreach := Machine.execWith_reachableWith .init hexec
  exact ⟨s, s', hpresses, hs, (dolphin_lock_handler_unlocks hreach hs).2 hkeeps⟩

/-- Two presses unlock the device that was locked soon after it had been unlocked. -/
theorem dolphin_lock_handler_unlocks_second :
    ¬∀ (s : LockSystem) (l : LockSystem.Label) (s' : LockSystem), LockSystem.machine.Reachable s →
      LockSystem.machine.next s l = some s' → s.Meets l s' := by
  intro h
  have hrun : ∃ s s' : LockSystem, LockSystem.machine.exec LockSystem.machine.init
      [.wait 5000, .input ⟨.up, .short⟩, .input ⟨.ok, .short⟩, .input ⟨.back, .short⟩,
        .input ⟨.back, .short⟩, .wait 100, .input ⟨.back, .short⟩, .wait 100,
        .input ⟨.back, .short⟩, .input ⟨.up, .short⟩, .wait 100, .input ⟨.ok, .short⟩,
        .wait 100, .input ⟨.back, .short⟩, .wait 100, .input ⟨.back, .short⟩, .wait 100] =
        some s ∧
      LockSystem.machine.next s (.input ⟨.back, .short⟩) = some s' ∧
      s.presses = [5500] ∧ ¬s.Meets (.input ⟨.back, .short⟩) s' :=
    ⟨_, _, rfl, rfl, rfl, by decide⟩
  obtain ⟨s, s', hexec, hs, hpresses, hmeets⟩ := hrun
  exact hmeets (h s _ s' (Machine.exec_reachable .init hexec) hs)

end FlipperZero.Dolphin
