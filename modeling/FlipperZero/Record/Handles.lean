import FlipperZero.Record.Invariant

/-! # Handles and holders

The handles of a thread on a record are the returned opens less the closes since
the record was last destroyed. A record keeps its holders as a set, so the first
close of a thread removes it from the holders whatever it has opened besides.
-/

namespace FlipperZero.Record

open FlipperZero.Lib FlipperZero.Mlib FlipperZero.Rtos

variable {D H Thread Name Data : Type} [DecidableEq Thread]

section History

variable [DecidableEq Name]

/-- How often `furi_record_open` of the record `name` has returned in the thread `u`. -/
def opens (u : Thread) (name : Name) : List (Event Thread Name Data) → ℕ
  | [] => 0
  | .opened t n _ :: h => (if t = u ∧ n = name then 1 else 0) + opens u name h
  | .destroyed _ n :: h => if n = name then 0 else opens u name h
  | .created .. :: h => opens u name h
  | .closed .. :: h => opens u name h

/-- How often the thread `u` has called `furi_record_close` on the record `name`. -/
def closes (u : Thread) (name : Name) : List (Event Thread Name Data) → ℕ
  | [] => 0
  | .closed t n :: h => (if t = u ∧ n = name then 1 else 0) + closes u name h
  | .destroyed _ n :: h => if n = name then 0 else closes u name h
  | .created .. :: h => closes u name h
  | .opened .. :: h => closes u name h

/-- At each destruction in the history every thread has closed what it has opened. -/
def NoHandleAtDestroy : List (Event Thread Name Data) → Prop
  | [] => True
  | .destroyed _ name :: h => (∀ u, opens u name h = closes u name h) ∧ NoHandleAtDestroy h
  | .created .. :: h => NoHandleAtDestroy h
  | .opened .. :: h => NoHandleAtDestroy h
  | .closed .. :: h => NoHandleAtDestroy h

/-- A call of `furi_record_close` comes from a thread with exactly one handle on the record. -/
def ClosesLast (s : State D H Thread Name Data) : Label Thread Name Data → Prop
  | .call t (.close name) => opens t name s.history = closes t name s.history + 1
  | _ => True

instance (s : State D H Thread Name Data) (l : Label Thread Name Data) :
    Decidable (ClosesLast s l) :=
  match l with
  | .call _ (.close _) => inferInstanceAs (Decidable (_ = _))
  | .call _ (.create _ _) | .call _ (.destroy _) | .call _ (.open _) | .step _ =>
    inferInstanceAs (Decidable True)

end History

/-- A thread inside `furi_record_close` before it has left the holders. -/
def Pc.Closing (name : Name) : Pc Thread Name Data → Prop
  | .closeAcquire n | .closeErase n => n = name
  | _ => False

variable {d d' : FuriRecordData D H Thread Data} {fl fl' : ThreadFlags Thread} {t u : Thread}
variable {p p' : Pc Thread Name Data} {evs : List (Event Thread Name Data)}
variable {name : Name} {h : List (Event Thread Name Data)}

/-- A call that is no close changes no count, and one that is closes a handle of its thread. -/
theorem call_handles [DecidableEq Name] {s s' : State D H Thread Name Data} {c : Call Name Data}
    (hc : call s t c = some s') (u : Thread) (name : Name) :
    opens u name s'.history = opens u name s.history ∧
      ((u = t ∧ c = .close name ∧ closes u name s'.history = closes u name s.history + 1) ∨
        (¬ (u = t ∧ c = .close name) ∧ closes u name s'.history = closes u name s.history)) := by
  obtain ⟨-, evs, rfl, ⟨rfl, hne⟩ | ⟨n, rfl, rfl⟩⟩ := call_cases hc
  · exact ⟨rfl, .inr ⟨fun he => hne name he.2, rfl⟩⟩
  · refine ⟨rfl, ?_⟩
    by_cases hn : t = u ∧ n = name
    · obtain ⟨rfl, rfl⟩ := hn
      exact .inl ⟨rfl, rfl, by simp [closes, Nat.add_comm]⟩
    · refine .inr ⟨?_, by simp [closes, hn]⟩
      rintro ⟨rfl, he⟩
      exact hn ⟨rfl, by cases he; rfl⟩

variable [Dict D Name ℕ] [DictSet H Thread]

/-- A step that ends before the holders are left was one there already or began the close. -/
theorem Move.closing (hm : Move d fl t p d' fl' p' evs) (hp : p'.Closing name) :
    p.Closing name ∧ evs = [] := by
  cases hm
  case closeAcquire => exact ⟨hp, rfl⟩
  all_goals exact hp.elim

variable [DecidableEq Name]

structure Handles (s : State D H Thread Name Data) : Prop where
  closes_le : ∀ u name, closes u name s.history ≤ opens u name s.history
  held : ∀ u name, closes u name s.history < opens u name s.history →
    ∃ record, Holds s.registry u name record
  closing : ∀ u name, (s.pc u).Closing name → opens u name s.history = closes u name s.history
  noHandle : NoHandleAtDestroy s.history

/-- What a step does to the handles of a thread: a return opens one, a destruction forgets all. -/
theorem Move.handles_cases (hm : Move d fl t p d' fl' p' evs) (u : Thread) (name : Name) :
    (opens u name (evs ++ h) = opens u name h ∧ closes u name (evs ++ h) = closes u name h) ∨
    (opens u name (evs ++ h) = 0 ∧ closes u name (evs ++ h) = 0) ∨
    (u = t ∧ (∃ record, p = .openReturn name record) ∧
      opens u name (evs ++ h) = opens u name h + 1 ∧
      closes u name (evs ++ h) = closes u name h) := by
  cases hm
  case createData => exact .inl ⟨rfl, rfl⟩
  case destroyErase n _ _ _ _ _ _ =>
    by_cases hn : n = name
    · exact .inr (.inl (by simp [opens, closes, hn]))
    · exact .inl (by simp [opens, closes, hn])
  case openReturn n q _ _ =>
    by_cases hn : t = u ∧ n = name
    · obtain ⟨rfl, rfl⟩ := hn
      refine .inr (.inr ⟨rfl, ⟨q, rfl⟩, ?_, rfl⟩)
      simp [opens, Nat.add_comm]
    · exact .inl (by simp [opens, closes, hn])
  all_goals exact .inl ⟨rfl, rfl⟩

theorem Move.noHandle (hm : Move d fl t p d' fl' p' evs)
    (hle : ∀ u name, closes u name h ≤ opens u name h)
    (hh : ∀ u name, closes u name h < opens u name h → ∃ record, Holds d u name record)
    (hn : NoHandleAtDestroy h) : NoHandleAtDestroy (evs ++ h) := by
  cases hm
  case destroyErase n q r hg hq _ hs =>
    refine ⟨fun u => ?_, hn⟩
    by_contra hne
    obtain ⟨record, hhold⟩ := hh u n (Nat.lt_of_le_of_ne (hle u n) (Ne.symm hne))
    have hrec : record = q := Option.some.inj (hhold.1.symm.trans hg)
    exact hhold.ne_of_size_eq_zero hq hs hrec
  all_goals exact hn

theorem handles_init : Handles (init : State D H Thread Name Data) where
  closes_le _ _ := Nat.le_refl 0
  held _ _ hlt := absurd hlt (Nat.lt_irrefl 0)
  closing _ _ _ := rfl
  noHandle := trivial

theorem Handles.move {s : State D H Thread Name Data} (hi : Inv s) (hs : Handles s)
    (hm : Move s.registry s.flags t (s.pc t) d' fl' p' evs) :
    Handles (⟨d', fl', Function.update s.pc t p', evs ++ s.history⟩ : State D H Thread Name Data) := by
  have hkeep : ∀ u name, closes u name s.history < opens u name s.history →
      ∃ record, Holds d' u name record := by
    intro u name hlt
    obtain ⟨record, hhold⟩ := hs.held u name hlt
    refine ⟨record, hm.holds hi.wellFormed ?_ hhold⟩
    intro hut hpc
    have := hs.closing u name (by simp [hut, hpc, Pc.Closing])
    omega
  refine ⟨fun u name => ?_, fun u name hlt => ?_, fun u name hp => ?_,
    hm.noHandle hs.closes_le hs.held hs.noHandle⟩
  · have := hs.closes_le u name
    rcases hm.handles_cases (h := s.history) u name with ⟨ho, hc⟩ | ⟨ho, hc⟩ | ⟨-, -, ho, hc⟩ <;>
      simp only [ho, hc] <;> omega
  · rcases hm.handles_cases (h := s.history) u name with ⟨ho, hc⟩ | ⟨ho, hc⟩ | ⟨rfl, ⟨q, hq⟩, -⟩
    · exact hkeep u name (by simpa only [ho, hc] using hlt)
    · simp only [ho, hc, Nat.lt_irrefl] at hlt
    · have hf := hi.facts u
      rw [hq] at hf
      refine ⟨q, hm.holds hi.wellFormed ?_ hf.1⟩
      intro _ hpc
      simp [hq] at hpc
  · by_cases hut : u = t
    · subst hut
      obtain ⟨hc, rfl⟩ := hm.closing (by simpa using hp)
      exact hs.closing u name hc
    · have hc := hs.closing u name (by simpa [hut] using hp)
      rcases hm.handles_cases (h := s.history) u name with ⟨ho, hc'⟩ | ⟨ho, hc'⟩ | ⟨he, -⟩
      · simpa only [ho, hc'] using hc
      · exact ho.trans hc'.symm
      · exact absurd he hut

theorem Handles.call {s s' : State D H Thread Name Data} {c : Call Name Data} (hs : Handles s)
    (hok : ClosesLast s (.call t c)) (hc : call s t c = some s') : Handles s' := by
  have hcount := call_handles hc
  obtain ⟨-, evs, rfl, hevs⟩ := call_cases hc
  refine ⟨fun u name => ?_, fun u name hlt => ?_, fun u name hp => ?_, ?_⟩
  · have hle := hs.closes_le u name
    obtain ⟨ho, ⟨rfl, rfl, hcl⟩ | ⟨-, hcl⟩⟩ := hcount u name
    · have hone : opens u name s.history = closes u name s.history + 1 := hok
      omega
    · omega
  · obtain ⟨ho, ⟨-, -, hcl⟩ | ⟨-, hcl⟩⟩ := hcount u name <;>
      exact hs.held u name (by omega)
  · obtain ⟨ho, ⟨rfl, rfl, hcl⟩ | ⟨hne, hcl⟩⟩ := hcount u name
    · have hone : opens u name s.history = closes u name s.history + 1 := hok
      omega
    · have hut : u ≠ t := by
        rintro rfl
        cases c <;> simp [Call.entry, Pc.Closing] at hp
        exact hne ⟨rfl, by rw [hp]⟩
      have := hs.closing u name (by simpa [hut] using hp)
      omega
  · obtain ⟨rfl, -⟩ | ⟨n, -, rfl⟩ := hevs <;> exact hs.noHandle

/-- When every close is made with exactly one handle outstanding, a record that is destroyed has
no handle left in any thread. -/
theorem furi_record_destroy_no_handles {s : State D H Thread Name Data}
    (hr : (machine D H Thread Name Data).ReachableWith ClosesLast s) :
    NoHandleAtDestroy s.history := by
  have : Inv s ∧ Handles s := by
    refine hr.invariant (P := fun s => Inv s ∧ Handles s) ⟨inv_init, handles_init⟩ ?_
    rintro s (⟨t, c⟩ | t) s' ⟨hi, hs⟩ hok hn
    · exact ⟨hi.call hn, hs.call hok hn⟩
    · obtain ⟨_, _, _, _, hm, rfl⟩ := step_move hn
      exact ⟨hi.move hm, hs.move hi hm⟩
  exact this.2.noHandle

/-- Thread 0 creates a record and thread 1 opens it. -/
def openedRun : List (Label ℕ String ℕ) :=
  [.call 0 (.create "gui" (some 7)), .step 0, .step 0, .step 0, .step 0, .step 0,
    .call 1 (.open "gui"), .step 1, .step 1, .step 1, .step 1, .step 1, .step 1]

def reopenRun : List (Label ℕ String ℕ) :=
  [.call 1 (.open "gui"), .step 1, .step 1, .step 1, .step 1, .step 1, .step 1]

/-- Thread 1 closes the record once and thread 0 destroys it. -/
def closedRun : List (Label ℕ String ℕ) :=
  [.call 1 (.close "gui"), .step 1, .step 1, .step 1,
    .call 0 (.destroy "gui"), .step 0, .step 0]

theorem furi_record_destroy_no_handles_closed : ∃ s, listMachine.ReachableWith ClosesLast s ∧
    .destroyed 0 "gui" ∈ s.history ∧ NoHandleAtDestroy s.history := by
  have hrun : ∃ s, listMachine.execWith ClosesLast listMachine.init (openedRun ++ closedRun) =
      some s ∧ s.history = [.destroyed 0 "gui", .closed 1 "gui", .opened 1 "gui" (some 7),
        .created 0 "gui" (some 7)] := ⟨_, rfl, rfl⟩
  obtain ⟨s, hs, hh⟩ := hrun
  have hr := Machine.execWith_reachableWith (M := listMachine) .init hs
  exact ⟨s, hr, by simp [hh], furi_record_destroy_no_handles hr⟩

/-- A thread that opens a record twice and closes it once does not keep it from destruction. -/
theorem furi_record_destroy_leaves_handle :
    ¬ ∀ s, listMachine.Reachable s → NoHandleAtDestroy s.history := by
  intro hall
  have hrun : ∃ s, listMachine.exec listMachine.init (openedRun ++ reopenRun ++ closedRun) =
      some s ∧ s.history = [.destroyed 0 "gui", .closed 1 "gui", .opened 1 "gui" (some 7),
        .opened 1 "gui" (some 7), .created 0 "gui" (some 7)] := ⟨_, rfl, rfl⟩
  obtain ⟨s, hs, hh⟩ := hrun
  have hn := hall s (Machine.exec_reachable .init hs)
  rw [hh] at hn
  exact absurd (hn.1 1) (by decide)

end FlipperZero.Record
