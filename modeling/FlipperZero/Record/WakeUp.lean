import FlipperZero.Record.Invariant

/-! # No lost wake-up

A thread that waits in `furi_record_open` for a record that has an owner is
flagged or is still to be flagged by the thread creating the record, and a
returned data pointer is the one last stored under the name.
-/

namespace FlipperZero.Record

open FlipperZero.Lib FlipperZero.Mlib FlipperZero.Rtos

variable {D H Thread Name Data : Type}
variable {d d' : FuriRecordData D H Thread Data} {fl fl' : ThreadFlags Thread} {t u : Thread}
variable {p p' : Pc Thread Name Data} {evs : List (Event Thread Name Data)}
variable {name : Name} {record : ℕ}

section History

variable [DecidableEq Name]
variable {h : List (Event Thread Name Data)}

/-- The data of the latest creation of `name` that was not destroyed since. -/
def lastCreated (name : Name) : List (Event Thread Name Data) → Option (Option Data)
  | [] => none
  | .created _ n data :: h => if n = name then some data else lastCreated name h
  | .destroyed _ n :: h => if n = name then none else lastCreated name h
  | .opened .. :: h => lastCreated name h
  | .closed .. :: h => lastCreated name h

/-- Every return of `furi_record_open` in the history has the data of the latest creation. -/
def OpensLatest : List (Event Thread Name Data) → Prop
  | [] => True
  | .opened _ name data :: h => lastCreated name h = some data ∧ OpensLatest h
  | .created .. :: h => OpensLatest h
  | .destroyed .. :: h => OpensLatest h
  | .closed .. :: h => OpensLatest h

/-- The record of `name` holds the data last stored, and has an owner only after a creation. -/
def IsLatest (h : List (Event Thread Name Data)) (name : Name) (r : FuriRecord H Thread Data) :
    Prop :=
  r.data = (lastCreated name h).getD none ∧ (r.owner.isSome → (lastCreated name h).isSome)

theorem isLatest_of_eq {h' : List (Event Thread Name Data)}
    (he : lastCreated name h' = lastCreated name h) (hl : d.At record (IsLatest h name)) :
    d.At record (IsLatest h' name) := by
  obtain ⟨r, hr, hl⟩ := hl
  exact ⟨r, hr, by rwa [IsLatest, he]⟩

variable [Dict D Name ℕ]

structure Latest (s : State D H Thread Name Data) : Prop where
  registered : ∀ name record, Dict.get s.registry.records name = some record →
    s.registry.At record (IsLatest s.history name)
  absent : ∀ name, Dict.get s.registry.records name = none → lastCreated name s.history = none
  storing : ∀ t name record, s.pc t = .createOwner name record →
    (lastCreated name s.history).isSome
  opens : OpensLatest s.history

theorem latest_init : Latest (init : State D H Thread Name Data) where
  registered _ _ h := by simp [init, furiRecordInit] at h
  absent _ _ := rfl
  storing _ _ _ h := by simp [init] at h
  opens := trivial

variable [DecidableEq Thread]

theorem Latest.call {s s' : State D H Thread Name Data} {c : Call Name Data} (hl : Latest s)
    (h : call s t c = some s') : Latest s' := by
  obtain ⟨-, evs, rfl, he⟩ := call_cases h
  have hlast : ∀ name, lastCreated name (evs ++ s.history) = lastCreated name s.history := by
    obtain ⟨rfl, -⟩ | ⟨_, -, rfl⟩ := he <;> exact fun _ => rfl
  refine ⟨fun name record hg => isLatest_of_eq (hlast name) (hl.registered name record hg),
    fun name hg => (hlast name).trans (hl.absent name hg), fun u name record hu => ?_, ?_⟩
  · rw [hlast]
    by_cases hut : u = t
    · subst hut; cases c <;> simp [Call.entry] at hu
    · exact hl.storing u name record (by simpa [hut] using hu)
  · obtain ⟨rfl, -⟩ | ⟨_, -, rfl⟩ := he <;> exact hl.opens

end History

/-- Some `furi_record_create` of `name` is between taking and releasing the mutex. -/
def Creating (s : State D H Thread Name Data) (name : Name) : Prop :=
  ∃ t, (∃ data, s.pc t = .createGet name data) ∨ (∃ record data, s.pc t = .createData name record data) ∨
    (∃ record, s.pc t = .createOwner name record) ∨
    ∃ record rest, s.pc t = .createNotify name record rest

def Ownerless (d : FuriRecordData D H Thread Data) (record : ℕ) : Prop :=
  d.At record fun r => r.owner = none

/-- A waiting thread is flagged, or still in the list of a creator, or its record has no owner. -/
def Awake (s : State D H Thread Name Data) : Prop :=
  ∀ t name record, s.pc t = .openWait name record →
    Ownerless s.registry record ∨ Pending s.flags t furiRecordFlagUpdated ∨
    ∃ u rest, s.pc u = .createNotify name record rest ∧ t ∈ rest

variable [DecidableEq Thread]

theorem Awake.call {s s' : State D H Thread Name Data} {c : Call Name Data} (ha : Awake s)
    (h : call s t c = some s') : Awake s' := by
  obtain ⟨hpc, evs, rfl, -⟩ := call_cases h
  intro u name record hu
  by_cases hut : u = t
  · subst hut; cases c <;> simp [Call.entry] at hu
  · rcases ha u name record (by simpa [hut] using hu) with ho | hp | ⟨v, rest, hv, hm⟩
    · exact .inl ho
    · exact .inr (.inl hp)
    · have hvt : v ≠ t := by rintro rfl; simp [hpc] at hv
      exact .inr (.inr ⟨v, rest, by simpa [hvt] using hv, hm⟩)

variable [Dict D Name ℕ] [DictSet H Thread]

/-- The owner of the record registered under `name`. -/
def owner (d : FuriRecordData D H Thread Data) (name : Name) : Option Thread :=
  (Dict.get d.records name).bind fun record => (d.heap record).bind (·.owner)

theorem Move.pending (h : Move d fl t p d' fl' p' evs) (hu : u ≠ t)
    (hp : Pending fl u furiRecordFlagUpdated) : Pending fl' u furiRecordFlagUpdated := by
  cases h
  case createNotify => exact hp.set _
  case openWait hfl => exact hp.wait_of_ne hu hfl
  all_goals exact hp

theorem Move.ownerless (h : Move d fl t p d' fl' p' evs) (hw : WellFormed Name d)
    (hf : p.Facts d t) (hh : Holds d u name record) (ho : Ownerless d record) :
    Ownerless d' record ∨ ∃ rest, p' = .createNotify name record rest ∧ u ∈ rest := by
  cases h
  case createGet | openGet => exact .inl (ho.furiRecordGetOrCreate hw hh.1 _)
  case createData hq | openPush hq | closeErase hq => exact .inl (ho.put hq id)
  case createOwner name' q r hq =>
    by_cases he : record = q
    · subst he
      obtain ⟨hg, r₁, hr₁, hm⟩ := hh
      obtain rfl : r₁ = r := Option.some.inj (hr₁.symm.trans hq)
      obtain rfl : name = name' := hw.inj _ _ _ hg hf
      exact .inr ⟨_, rfl, hm⟩
    · obtain ⟨r₁, hr₁, ho⟩ := ho
      exact .inl ⟨r₁, by simp [FuriRecordData.put, he, hr₁], ho⟩
  case destroyErase hq _ hs => exact .inl (ho.free (hh.ne_of_size_eq_zero hq hs) _)
  all_goals exact .inl ho

theorem Move.notify (h : Move d fl t p d' fl' p' evs) {rest : List Thread}
    (hp : p = .createNotify name record rest) (hu : u ∈ rest) :
    Pending fl' u furiRecordFlagUpdated ∨
      ∃ rest', p' = .createNotify name record rest' ∧ u ∈ rest' := by
  subst hp
  cases h with
  | createNotify =>
    rcases List.mem_cons.mp hu with rfl | hu
    · exact .inl (pending_set_self furiRecordFlagUpdated_ne_zero)
    · exact .inr ⟨_, rfl, hu⟩
  | createRelease => cases hu

theorem Move.openWait_cases (h : Move d fl t p d' fl' p' evs) (hp : p' = .openWait name record) :
    Ownerless d' record := by
  subst hp
  cases h with
  | openMissing hr ho => exact ⟨_, hr, ho⟩

theorem Awake.move {s : State D H Thread Name Data} (hi : Inv s) (ha : Awake s)
    (h : Move s.registry s.flags t (s.pc t) d' fl' p' evs) :
    Awake (⟨d', fl', Function.update s.pc t p', evs ++ s.history⟩ : State D H Thread Name Data) := by
  intro u name record hu
  by_cases hut : u = t
  · subst hut
    exact .inl (h.openWait_cases (by simpa using hu))
  · simp only [Function.update_of_ne hut] at hu
    have hh : Holds s.registry u name record := by simpa [hu, Pc.Facts] using hi.facts u
    rcases ha u name record hu with ho | hp | ⟨v, rest, hv, hm⟩
    · obtain ho | ⟨rest, rfl, hm⟩ := h.ownerless hi.wellFormed (hi.facts t) hh ho
      · exact .inl ho
      · exact .inr (.inr ⟨t, rest, by simp, hm⟩)
    · exact .inr (.inl (h.pending hut hp))
    · by_cases hvt : v = t
      · subst hvt
        obtain hp | ⟨rest', rfl, hm⟩ := h.notify hv hm
        · exact .inr (.inl hp)
        · exact .inr (.inr ⟨v, rest', by simp, hm⟩)
      · exact .inr (.inr ⟨v, rest, by simpa [hvt] using hv, hm⟩)

theorem awake_of_reachable {s : State D H Thread Name Data}
    (h : (machine D H Thread Name Data).Reachable s) : Awake s := by
  have : Inv s ∧ Awake s := by
    refine h.invariant (P := fun s => Inv s ∧ Awake s) ⟨inv_init, ?_⟩ ?_
    · intro t name record hu
      simp [machine, init] at hu
    · rintro s (⟨t, c⟩ | t) s' ⟨hi, ha⟩ hs
      · exact ⟨hi.call hs, ha.call hs⟩
      · obtain ⟨_, _, _, _, hm, rfl⟩ := step_move hs
        exact ⟨hi.move hm, ha.move hi hm⟩
  exact this.2

variable [DecidableEq Name] {h : List (Event Thread Name Data)}

theorem Move.latest_registered (hm : Move d fl t p d' fl' p' evs) (hw : WellFormed Name d)
    (hf : p.Facts d t)
    (hr : ∀ name record, Dict.get d.records name = some record → d.At record (IsLatest h name))
    (ha : ∀ name, Dict.get d.records name = none → lastCreated name h = none)
    (hs : ∀ name record, p = .createOwner name record → (lastCreated name h).isSome) :
    ∀ name record, Dict.get d'.records name = some record →
      d'.At record (IsLatest (evs ++ h) name) := by
  intro name record hg
  cases hm
  case createGet n _ | openGet n =>
    obtain ⟨_, _, he⟩ | ⟨hnone, he⟩ := furiRecordGetOrCreate_cases d n
    · rw [he] at hg ⊢; exact hr name record hg
    · by_cases hn : name = n
      · subst hn
        obtain rfl : d.fresh = record := by simpa [he] using hg
        exact ⟨⟨none, none, DictSet.init⟩, by simp [he], by simp [IsLatest, ha name hnone]⟩
      · have hg := (get_of_furiRecordGetOrCreate hn).mp hg
        exact (hr name record hg).furiRecordGetOrCreate hw hg _
  case createData n q data r hq =>
    by_cases hn : name = n
    · subst hn
      obtain rfl : record = q := Option.some.inj (hg.symm.trans hf)
      exact ⟨_, by simp [FuriRecordData.put]; rfl, by simp [IsLatest, lastCreated]⟩
    · have hne : record ≠ q := fun he => hn (hw.inj name n q (he ▸ hg) hf)
      obtain ⟨r₁, hr₁, hl⟩ := hr name record hg
      exact isLatest_of_eq (by simp [lastCreated, Ne.symm hn])
        ⟨r₁, by simp [FuriRecordData.put, hne, hr₁], hl⟩
  case createOwner n q r hq =>
    by_cases he : record = q
    · subst he
      obtain rfl : name = n := hw.inj _ _ _ hg hf
      exact (hr name record hg).put hq fun hl => ⟨hl.1, fun _ => hs name record rfl⟩
    · obtain ⟨r₁, hr₁, hl⟩ := hr name record hg
      exact ⟨r₁, by simp [FuriRecordData.put, he, hr₁], hl⟩
  case openPush hq | closeErase hq => exact (hr name record hg).put hq id
  case openReturn => exact isLatest_of_eq rfl (hr name record hg)
  case destroyErase n q r hq _ _ _ =>
    have hn : name ≠ n := by rintro rfl; simp [FuriRecordData.free] at hg
    have hg' : Dict.get d.records name = some record := by
      simpa [FuriRecordData.free, Dict.get_erase_of_ne _ _ _ hn] using hg
    have hne : record ≠ q := fun he => hn (hw.inj name n q (he ▸ hg') hq)
    exact isLatest_of_eq (by simp [lastCreated, Ne.symm hn]) ((hr name record hg').free hne n)
  all_goals exact hr name record hg

theorem Move.latest_absent (hm : Move d fl t p d' fl' p' evs) (hf : p.Facts d t)
    (ha : ∀ name, Dict.get d.records name = none → lastCreated name h = none) :
    ∀ name, Dict.get d'.records name = none → lastCreated name (evs ++ h) = none := by
  intro name hg
  cases hm
  case createGet n _ | openGet n =>
    by_cases hn : name = n
    · subst hn; simp [get_furiRecordGetOrCreate] at hg
    · apply ha
      cases hg' : Dict.get d.records name with
      | none => rfl
      | some q => simp [(get_of_furiRecordGetOrCreate hn).mpr hg'] at hg
  case createData n q data r hq =>
    have hn : n ≠ name := by
      rintro rfl
      exact absurd (hf.symm.trans hg) (by simp)
    simpa [lastCreated, hn] using ha name hg
  case destroyErase n q r hq _ _ _ =>
    by_cases hn : n = name
    · simp [lastCreated, hn]
    · have hg' : Dict.get d.records name = none := by
        simpa [FuriRecordData.free, Dict.get_erase_of_ne _ _ _ (Ne.symm hn)] using hg
      simpa [lastCreated, hn] using ha name hg'
  case openReturn => simpa [lastCreated] using ha name hg
  all_goals exact ha name hg

theorem Move.storing (hm : Move d fl t p d' fl' p' evs) (hp : p' = .createOwner name record) :
    (lastCreated name (evs ++ h)).isSome := by
  subst hp
  cases hm with
  | createData => simp [lastCreated]

theorem Move.lastCreated_isSome (hm : Move d fl t p d' fl' p' evs) (hp : ¬ p.Locked)
    (hl : (lastCreated name h).isSome) : (lastCreated name (evs ++ h)).isSome := by
  cases hm
  case createData | destroyErase => exact absurd trivial hp
  case openReturn => simpa [lastCreated] using hl
  all_goals exact hl

theorem Move.opensLatest (hm : Move d fl t p d' fl' p' evs) (hf : p.Facts d t)
    (hr : ∀ name record, Dict.get d.records name = some record → d.At record (IsLatest h name))
    (ho : OpensLatest h) : OpensLatest (evs ++ h) := by
  cases hm
  case openReturn n q r hq =>
    obtain ⟨hh, r₁, hr₁, ho₁⟩ := hf
    obtain ⟨r₂, hr₂, hd, hl⟩ := hr n q hh.1
    obtain rfl : r₁ = r := Option.some.inj (hr₁.symm.trans hq)
    obtain rfl : r₂ = r₁ := Option.some.inj (hr₂.symm.trans hq)
    obtain ⟨data, hdata⟩ := Option.isSome_iff_exists.mp (hl ho₁)
    exact ⟨by simp [hd, hdata], ho⟩
  all_goals exact ho

theorem Latest.move {s : State D H Thread Name Data} (hi : Inv s) (hl : Latest s)
    (h : Move s.registry s.flags t (s.pc t) d' fl' p' evs) :
    Latest (⟨d', fl', Function.update s.pc t p', evs ++ s.history⟩ : State D H Thread Name Data) where
  registered := h.latest_registered hi.wellFormed (hi.facts t) hl.registered hl.absent (hl.storing t)
  absent := h.latest_absent (hi.facts t) hl.absent
  storing u name record hu := by
    by_cases hut : u = t
    · subst hut
      exact h.storing (by simpa using hu)
    · simp only [Function.update_of_ne hut] at hu
      refine h.lastCreated_isSome (fun hp => hut ?_) (hl.storing u name record hu)
      have hm := hi.locked u (by simp [hu, Pc.Locked])
      exact Option.some.inj (hm.symm.trans (hi.locked t hp))
  opens := h.opensLatest (hi.facts t) hl.registered hl.opens

theorem latest_of_reachable {s : State D H Thread Name Data}
    (h : (machine D H Thread Name Data).Reachable s) : Latest s := by
  have : Inv s ∧ Latest s := by
    refine h.invariant (P := fun s => Inv s ∧ Latest s) ⟨inv_init, latest_init⟩ ?_
    rintro s (⟨t, c⟩ | t) s' ⟨hi, hl⟩ hs
    · exact ⟨hi.call hs, hl.call hs⟩
    · obtain ⟨_, _, _, _, hm, rfl⟩ := step_move hs
      exact ⟨hi.move hm, hl.move hi hm⟩
  exact this.2

/-- A thread waiting for a record that has an owner is flagged unless the record is being
created, and every return of `furi_record_open` hands out the latest data of the record. -/
theorem furi_record_open_wakes {s : State D H Thread Name Data}
    (h : (machine D H Thread Name Data).Reachable s) :
    (∀ t name record, s.pc t = .openWait name record → (owner s.registry name).isSome →
      ¬ Creating s name → Pending s.flags t furiRecordFlagUpdated) ∧
    OpensLatest s.history := by
  refine ⟨fun t name record hpc ho hc => ?_, (latest_of_reachable h).opens⟩
  have hg : Dict.get s.registry.records name = some record := by
    have hf := (inv_of_reachable h).facts t
    rw [hpc] at hf
    exact hf.1
  rcases awake_of_reachable h t name record hpc with ⟨r, hr, hn⟩ | hp | ⟨u, rest, hu, -⟩
  · simp [owner, hg, hr, hn] at ho
  · exact hp
  · exact absurd ⟨u, .inr (.inr (.inr ⟨record, rest, hu⟩))⟩ hc

/-- Thread 1 waits for the record that thread 0 has created meanwhile. -/
def waitingRun : List (Label ℕ String ℕ) :=
  [.call 1 (.open "gui"), .step 1, .step 1, .step 1, .step 1, .step 1,
    .call 0 (.create "gui" (some 7)), .step 0, .step 0, .step 0, .step 0, .step 0, .step 0]

theorem exec_waitingRun : ∃ s, listMachine.exec listMachine.init waitingRun = some s ∧
    (∀ t, s.pc t = if t = 1 then .openWait "gui" 0 else .idle) ∧
    (owner s.registry "gui").isSome := by
  refine ⟨_, rfl, fun t => ?_, rfl⟩
  match t with
  | 0 => rfl
  | 1 => rfl
  | n + 2 => rfl

theorem furi_record_open_wakes_waiting : ∃ s, listMachine.Reachable s ∧ s.pc 1 = .openWait "gui" 0 ∧
    Pending s.flags 1 furiRecordFlagUpdated := by
  obtain ⟨s, hs, hpc, ho⟩ := exec_waitingRun
  have hr := Machine.exec_reachable (M := listMachine) .init hs
  have hc : ¬ Creating s "gui" := by
    rintro ⟨t, h⟩
    rw [hpc t] at h
    split at h <;> simp at h
  exact ⟨s, hr, by simp [hpc], (furi_record_open_wakes hr).1 1 "gui" 0 (by simp [hpc]) ho hc⟩

end FlipperZero.Record
