import FlipperZero.SdFilesystem.App

/-! # What the SD card application shows

An abstract screen has at most one view, and its own meaning of each operation. The pointers
and the heap show a screen as long as no operation fails on it; every handler that begins on
a settled screen ends on one, except for the handler of `back` in the background.
-/

namespace FlipperZero.SdFilesystem

open Lib

variable {Client Buffer : Type}

structure Screen (Buffer : Type) where
  view : Option (Submodule Buffer × Bool)
  state : SdAppState

namespace Screen

def exec (c : Screen Buffer) : AppOp Buffer → Option (Screen Buffer)
  | .openDialog right state =>
    match c.view with
    | none => some ⟨some (.dialogEx true right, true), state⟩
    | some _ => some c
  | .editDialog left right =>
    match c.view with
    | some (.dialogEx _ _, enabled) => some { c with view := some (.dialogEx left right, enabled) }
    | _ => none
  | .setState state => some { c with state }
  | .openFileSelect data =>
    match c.view with
    | none => some { c with view := some (.fileSelect data, false) }
    | some _ => some c
  | .viewHolderStart => c.view.map fun (m, _) => { c with view := some (m, true) }
  | .viewHolderStop => c.view.map fun (m, _) => { c with view := some (m, false) }
  | .freeViewHolder => some { c with view := none }
  | .put _ | .putResult _ => some c

def run (c : Screen Buffer) (ops : List (AppOp Buffer)) : Option (Screen Buffer) :=
  ops.foldlM exec c

/-- The view is the one of the state, and there is none in the background. -/
def Settled (c : Screen Buffer) : Prop :=
  match c.view with
  | none => c.state = .background
  | some (.fileSelect _, _) => c.state = .fileSelect
  | some (.dialogEx _ _, _) => c.state ≠ .background ∧ c.state ≠ .fileSelect

theorem run_cons {c : Screen Buffer} {o : AppOp Buffer} {ops : List (AppOp Buffer)} :
    c.run (o :: ops) = (c.exec o).bind fun c' => c'.run ops := rfl

@[simp] theorem run_nil {c : Screen Buffer} : c.run [] = some c := rfl

theorem Settled.view_eq_none_iff {c : Screen Buffer} (h : c.Settled) :
    c.view = none ↔ c.state = .background := by
  obtain ⟨view, state⟩ := c
  match view, h with
  | none, h => exact ⟨fun _ => h, fun _ => rfl⟩
  | some (.fileSelect _, _), h => exact ⟨nofun, fun hstate => nomatch hstate.symm.trans h⟩
  | some (.dialogEx _ _, _), h => exact ⟨nofun, fun hstate => absurd hstate h.1⟩

end Screen

/-- The heap that holds a view holder and its submodule, and nothing else. -/
def cells (a b : ℕ) (m : Submodule Buffer) (enabled : Bool) : ℕ → Option (Cell Buffer) :=
  Function.update
    (Function.update (fun _ => none) a (some (.viewHolder ⟨enabled, some b⟩)))
    b (some (.submodule m))

section Cells

variable {a b : ℕ} {m m' : Submodule Buffer} {enabled enabled' : Bool}

theorem cells_holder (hab : a ≠ b) :
    cells a b m enabled a = some (.viewHolder ⟨enabled, some b⟩) := by
  rw [cells, Function.update_of_ne hab, Function.update_self]

theorem cells_submodule : cells a b m enabled b = some (.submodule m) :=
  Function.update_self ..

theorem update_cells_submodule :
    Function.update (cells a b m enabled) b (some (.submodule m')) = cells a b m' enabled :=
  Function.update_idem ..

theorem update_cells_holder (hab : a ≠ b) :
    Function.update (cells a b m enabled) a (some (.viewHolder ⟨enabled', some b⟩)) =
      cells a b m enabled' := by
  rw [cells, cells, Function.update_comm hab.symm, Function.update_idem]

theorem update_cells_none (hab : a ≠ b) :
    Function.update (Function.update (cells a b m enabled) b none) a none = fun _ => none := by
  rw [cells, Function.update_idem, Function.update_comm hab, Function.update_idem]
  rw [Function.update_eq_self_iff.mpr rfl, Function.update_eq_self_iff.mpr rfl]

end Cells

namespace SdApp

/-- The pointer and the heap are those of the screen. -/
inductive Shows (s : SdApp Client Buffer) : Screen Buffer → Prop where
  | empty (hpointer : s.viewHolder = none) (hheap : s.heap = fun _ => none) :
    Shows s ⟨none, s.sdAppState⟩
  | view {a b : ℕ} {m : Submodule Buffer} {enabled : Bool} (hab : a ≠ b)
    (hpointer : s.viewHolder = some a) (hheap : s.heap = cells a b m enabled) :
    Shows s ⟨some (m, enabled), s.sdAppState⟩

variable {s t : SdApp Client Buffer} {c : Screen Buffer}

theorem Shows.state (h : s.Shows c) : c.state = s.sdAppState := by
  cases h <;> rfl

theorem Shows.viewHolder_iff (h : s.Shows c) : s.viewHolder = none ↔ c.view = none := by
  cases h with
  | empty hpointer _ => simp [hpointer]
  | view _ hpointer _ => simp [hpointer]

theorem Shows.congr (h : s.Shows c) (hpointer : t.viewHolder = s.viewHolder)
    (hheap : t.heap = s.heap) (hstate : t.sdAppState = s.sdAppState) : t.Shows c := by
  cases h with
  | empty hp hh => exact hstate ▸ .empty (hpointer.trans hp) (hheap.trans hh)
  | view hab hp hh => exact hstate ▸ .view hab (hpointer.trans hp) (hheap.trans hh)

theorem holder_none (hpointer : s.viewHolder = none) : s.holder = none := by
  rw [holder, hpointer]

section Some

variable {a b : ℕ} {m : Submodule Buffer} {enabled : Bool}

theorem holder_some (hab : a ≠ b) (hpointer : s.viewHolder = some a)
    (hheap : s.heap = cells a b m enabled) : s.holder = some (a, ⟨enabled, some b⟩) := by
  simp only [holder, hpointer, hheap, cells_holder hab]

theorem context_some (hheap : s.heap = cells a b m enabled) :
    s.context ⟨enabled, some b⟩ = some (b, m) := by
  simp only [context, hheap, cells_submodule]

end Some

theorem Shows.shownRequest (h : s.Shows c) :
    s.shownRequest = match c.view with
      | some (.fileSelect data, _) => some data
      | _ => none := by
  cases h with
  | empty hpointer hheap => simp only [SdApp.shownRequest, holder_none hpointer]
  | view hab hpointer hheap =>
    simp only [SdApp.shownRequest, holder_some hab hpointer hheap, context_some hheap]
    split <;> simp_all

theorem Shows.alloc (h : s.Shows c) (hnone : s.viewHolder = none) (m : Submodule Buffer)
    (enabled : Bool) :
    (s.allocViewHolder m enabled).Shows ⟨some (m, enabled), s.sdAppState⟩ := by
  have hheap : s.heap = fun _ => none := by
    cases h with
    | empty _ hheap => exact hheap
    | view _ hpointer _ => exact nomatch hnone.symm.trans hpointer
  exact .view (Nat.ne_of_lt (Nat.lt_succ_self _)) rfl (by rw [allocViewHolder, hheap, cells])

theorem Shows.openDialog (h : s.Shows c) (right : Bool) (state : SdAppState) :
    ∃ c', c.exec (.openDialog right state) = some c' ∧ (s.openDialog right state).Shows c' := by
  unfold SdApp.openDialog
  cases h with
  | empty hpointer hheap =>
    have h := (Shows.empty hpointer hheap).alloc hpointer (.dialogEx true right) true
    rw [if_pos hpointer]
    refine ⟨_, rfl, ?_⟩
    cases h with
    | view hab hp hh => exact .view hab hp hh
  | view hab hpointer hheap =>
    rw [if_neg (by simp [hpointer])]
    exact ⟨_, rfl, .view hab hpointer hheap⟩

theorem Shows.openFileSelect [DecidableEq Buffer] (h : s.Shows c)
    (data : FileSelectData Buffer) :
    ∃ c', c.exec (.openFileSelect data) = some c' ∧ (s.openFileSelect data).Shows c' := by
  unfold SdApp.openFileSelect
  cases h with
  | empty hpointer hheap =>
    rw [if_pos hpointer]
    exact ⟨_, rfl, ((Shows.empty hpointer hheap).alloc hpointer (.fileSelect data) false).congr
      rfl rfl rfl⟩
  | view hab hpointer hheap =>
    rw [if_neg (by simp [hpointer])]
    exact ⟨_, rfl, .view hab hpointer hheap⟩

/-- What an operation comes to on the screen: it fails there when it meets a fault. -/
def Result (c : Option (Screen Buffer)) : Except Fault (SdApp Client Buffer) → Prop
  | .ok t => ∃ c', c = some c' ∧ t.Shows c'
  | .error _ => c = none

theorem Shows.editDialog (h : s.Shows c) (left right : Bool) :
    Result (c.exec (.editDialog left right)) (s.editDialog left right) := by
  unfold SdApp.editDialog
  cases h with
  | empty hpointer hheap =>
    rw [holder_none hpointer]
    rfl
  | @view a b m enabled hab hpointer hheap =>
    rw [holder_some hab hpointer hheap]
    simp only [context_some hheap]
    match m with
    | .fileSelect _ => rfl
    | .dialogEx _ _ => exact ⟨_, rfl, .view hab hpointer (by rw [hheap, update_cells_submodule])⟩

theorem Shows.viewHolderEnabledSet (h : s.Shows c) (enabled : Bool) :
    Result (c.exec (if enabled then .viewHolderStart else .viewHolderStop))
      (s.viewHolderEnabledSet enabled) := by
  unfold SdApp.viewHolderEnabledSet
  cases h with
  | empty hpointer hheap =>
    rw [holder_none hpointer]
    cases enabled <;> rfl
  | view hab hpointer hheap =>
    rw [holder_some hab hpointer hheap]
    cases enabled
    · exact ⟨_, rfl, .view hab hpointer (by rw [hheap, update_cells_holder hab])⟩
    · exact ⟨_, rfl, .view hab hpointer (by rw [hheap, update_cells_holder hab])⟩

theorem Shows.freeViewHolder (h : s.Shows c) :
    Result (c.exec .freeViewHolder) s.freeViewHolder := by
  unfold SdApp.freeViewHolder
  cases h with
  | empty hpointer hheap =>
    rw [hpointer]
    exact ⟨_, rfl, .empty hpointer hheap⟩
  | view hab hpointer hheap =>
    simp only [hpointer, holder_some hab hpointer hheap, context_some hheap]
    exact ⟨_, rfl, .empty rfl (by rw [hheap, update_cells_none hab])⟩

variable [DecidableEq Buffer]

theorem Shows.exec (h : s.Shows c) {o : AppOp Buffer} {r : Except Fault (SdApp Client Buffer)}
    (hr : s.exec o = some r) : Result (c.exec o) r := by
  cases o with
  | openDialog right state =>
    obtain rfl := Option.some.inj hr
    exact h.openDialog right state
  | editDialog left right =>
    obtain rfl := Option.some.inj hr
    exact h.editDialog left right
  | setState state =>
    obtain rfl := Option.some.inj hr
    refine ⟨_, rfl, ?_⟩
    cases h with
    | empty hpointer hheap => exact .empty hpointer hheap
    | view hab hpointer hheap => exact .view hab hpointer hheap
  | openFileSelect data =>
    obtain rfl := Option.some.inj hr
    exact h.openFileSelect data
  | viewHolderStart =>
    obtain rfl := Option.some.inj hr
    exact h.viewHolderEnabledSet true
  | viewHolderStop =>
    obtain rfl := Option.some.inj hr
    exact h.viewHolderEnabledSet false
  | freeViewHolder =>
    simp only [SdApp.exec] at hr
    split at hr
    · cases hr
    · obtain rfl := Option.some.inj hr
      exact h.freeViewHolder
  | put e =>
    simp only [SdApp.exec] at hr
    split at hr
    · obtain rfl := Option.some.inj hr
      exact ⟨c, rfl, h.congr rfl rfl rfl⟩
    · cases hr
  | putResult r =>
    simp only [SdApp.exec] at hr
    split at hr
    · obtain rfl := Option.some.inj hr
      exact ⟨c, rfl, h.congr rfl rfl rfl⟩
    · cases hr

end SdApp

namespace Screen

variable {c : Screen Buffer}

theorem run_reset {m : Submodule Buffer} {enabled : Bool} (h : c.view = some (m, enabled)) :
    c.run SdApp.appResetState = some ⟨none, .background⟩ := by
  obtain ⟨view, state⟩ := c
  subst h
  rfl

theorem run_putResult {r : FileSelectResultEvent Buffer} {ops : List (AppOp Buffer)} :
    c.run (.putResult r :: ops) = c.run ops := rfl

theorem run_openDialog (h : c.Settled) (right : Bool) {state : SdAppState}
    (hb : state ≠ .background) (hf : state ≠ .fileSelect) :
    ∃ c', c.run [.openDialog right state] = some c' ∧ c'.Settled := by
  obtain ⟨view, _⟩ := c
  match view, h with
  | none, _ => exact ⟨_, rfl, hb, hf⟩
  | some _, h => exact ⟨_, rfl, h⟩

theorem settled_background : (⟨none, .background⟩ : Screen Buffer).Settled := rfl

end Screen

namespace SdApp

variable {s t : SdApp Client Buffer} {c : Screen Buffer}

theorem Shows.handleOk (h : s.Shows c) (hc : c.Settled) :
    ∃ c', c.run s.handleOk = some c' ∧ c'.Settled := by
  have hstate := h.state
  obtain ⟨view, state⟩ := c
  dsimp only at hstate
  unfold SdApp.handleOk
  rw [← hstate]
  match view, state, hc with
  | none, _, rfl => exact ⟨_, rfl, rfl⟩
  | some (.fileSelect data, enabled), _, rfl =>
    exact ⟨_, Screen.run_putResult.trans (Screen.run_reset rfl), Screen.settled_background⟩
  | some (.dialogEx left right, enabled), state, hc =>
    split
    · exact ⟨_, rfl, nofun, nofun⟩
    · exact ⟨_, rfl, nofun, nofun⟩
    · exact absurd rfl hc.2
    · exact ⟨_, rfl, hc⟩

theorem Shows.handleBack (h : s.Shows c) (hc : c.Settled) (hback : s.sdAppState ≠ .background) :
    ∃ c', c.run s.handleBack = some c' ∧ c'.Settled := by
  have hstate := h.state
  obtain ⟨view, state⟩ := c
  dsimp only at hstate
  rw [← hstate] at hback
  unfold SdApp.handleBack
  rw [← hstate]
  match view, state, hc with
  | none, _, rfl => exact absurd rfl hback
  | some (.fileSelect data, enabled), _, rfl =>
    exact ⟨_, Screen.run_putResult.trans (Screen.run_reset rfl), Screen.settled_background⟩
  | some (.dialogEx left right, enabled), state, hc =>
    split
    · exact ⟨_, rfl, hc⟩
    · exact absurd rfl hc.2
    · exact ⟨_, Screen.run_reset rfl, Screen.settled_background⟩

theorem Shows.handleFileSelect (h : s.Shows c) (hc : c.Settled) (card : CardAnswer)
    (data : FileSelectData Buffer) :
    ∃ c', c.run (s.handleFileSelect card data) = some c' ∧ c'.Settled := by
  unfold SdApp.handleFileSelect
  split
  · exact ⟨c, rfl, hc⟩
  · split
    · next hnone =>
      obtain ⟨view, state⟩ := c
      obtain rfl : view = none := h.viewHolder_iff.mp hnone
      split
      · exact ⟨_, rfl, Screen.settled_background⟩
      · split
        · exact ⟨_, rfl, rfl⟩
        · exact ⟨_, rfl, rfl⟩
    · exact ⟨c, rfl, hc⟩

theorem Shows.handle (h : s.Shows c) (hc : c.Settled) (card : CardAnswer) {e : SdAppEvent Buffer}
    (hback : e = .back → s.sdAppState ≠ .background) :
    ∃ c', c.run (s.handle card e) = some c' ∧ c'.Settled := by
  cases e with
  | back => exact h.handleBack hc (hback rfl)
  | ok => exact h.handleOk hc
  | format => exact Screen.run_openDialog hc _ (by decide) (by decide)
  | info => exact Screen.run_openDialog hc _ (by decide) (by decide)
  | eject => exact Screen.run_openDialog hc _ (by decide) (by decide)
  | fileSelect data => exact h.handleFileSelect hc card data
  | checkError =>
    simp only [SdApp.handle]
    split
    · exact Screen.run_openDialog hc _ (by decide) (by decide)
    · exact ⟨c, rfl, hc⟩
  | showError => exact Screen.run_openDialog hc _ (by decide) (by decide)

theorem take_cases {card : CardAnswer} (ht : s.take card = some t) :
    ∃ e events, s.ops = [] ∧ s.eventQueue = e :: events ∧
      t = { s with eventQueue := events, ops := s.handle card e } := by
  unfold SdApp.take at ht
  split at ht
  · next e events hops hevents =>
    exact ⟨e, events, hops, hevents, (Option.some.inj ht).symm⟩
  · cases ht

theorem put_cases {e : SdAppEvent Buffer} (ht : s.put e = some t) :
    s.eventQueue.length < eventQueueLength ∧ t = { s with eventQueue := s.eventQueue ++ [e] } := by
  unfold SdApp.put at ht
  split at ht
  · next hlength => exact ⟨hlength, (Option.some.inj ht).symm⟩
  · cases ht

variable [DecidableEq Buffer]

theorem op_cases (ht : s.op = some t) :
    ∃ o ops, s.ops = o :: ops ∧
      (({ s with ops }).exec o = some (.ok t) ∨
        ∃ f, ({ s with ops }).exec o = some (.error f) ∧ t = { s with fault := some f }) := by
  unfold op at ht
  split at ht
  · cases ht
  · next o ops hops =>
    refine ⟨o, ops, hops, ?_⟩
    split at ht
    · next hr => exact .inl (hr.trans (congrArg _ (congrArg _ (Option.some.inj ht))))
    · next f hr => exact .inr ⟨f, hr, (Option.some.inj ht).symm⟩
    · cases ht

/-- The text of the line goes to the buffer of the request whose view is shown. -/
def choose (s : SdApp Client Buffer) (data : FileSelectData Buffer) (line : FileLine) :
    SdApp Client Buffer :=
  { s with
    memory := writeBuffer s.memory data line.text
    chosen := Function.update s.chosen data.request line.file
    gui := some .ok }

theorem Shows.input {key : Key} (h : s.Shows c) (ht : s.input key = some t) :
    ∃ m, c.view = some (m, true) ∧
      (t = { s with gui := some .back } ∨
        (t = { s with gui := some .ok } ∧ ∃ left right, m = .dialogEx left right) ∨
        ∃ data line, m = .fileSelect data ∧ key = .ok line ∧ t = s.choose data line) := by
  unfold SdApp.input at ht
  cases h with
  | empty hpointer hheap =>
    rw [holder_none hpointer] at ht
    cases ht
  | @view a b m enabled hab hpointer hheap =>
    rw [holder_some hab hpointer hheap] at ht
    match enabled with
    | false => cases ht
    | true =>
      refine ⟨m, rfl, ?_⟩
      simp only [context_some hheap] at ht
      match m, key with
      | _, .back => exact .inl (Option.some.inj ht).symm
      | .dialogEx true _, .left => exact .inl (Option.some.inj ht).symm
      | .dialogEx _ true, .right =>
        exact .inr (.inl ⟨(Option.some.inj ht).symm, _, _, rfl⟩)
      | .fileSelect data, .ok line =>
        exact .inr (.inr ⟨data, line, rfl, rfl, (Option.some.inj ht).symm⟩)
      | .fileSelect _, .unreadable => exact .inl (Option.some.inj ht).symm

end SdApp

end FlipperZero.SdFilesystem
