import FlipperZero.Record.Basic

/-! # The invariant of the registry

A thread between taking and releasing the mutex is its holder, and a thread past
its push in `furi_record_open` is among the holders of the record it points to.
Hence a record that somebody waits for or is about to return is never freed.
-/

namespace FlipperZero.Record

open FlipperZero.Lib FlipperZero.Mlib FlipperZero.Rtos

variable {D H Thread Name Data : Type}

theorem acquire_eq_some {d d' : FuriRecordData D H Thread Data} {t : Thread}
    (h : d.acquire t = some d') :
    d.recordsMutex = none ∧ d' = { d with recordsMutex := some t } := by
  unfold FuriRecordData.acquire at h
  split at h
  · exact ⟨‹_›, (Option.some.inj h).symm⟩
  · cases h

theorem call_cases [DecidableEq Thread] {s s' : State D H Thread Name Data} {t : Thread}
    {c : Call Name Data}
    (h : call s t c = some s') :
    s.pc t = .idle ∧ ∃ evs, s' = ⟨s.registry, s.flags, Function.update s.pc t c.entry,
      evs ++ s.history⟩ ∧ ((evs = [] ∧ ∀ name, c ≠ .close name) ∨
        ∃ name, c = .close name ∧ evs = [.closed t name]) := by
  unfold call at h
  split at h
  · next hpc =>
    refine ⟨hpc, ?_⟩
    cases c <;> cases h
    case close name => exact ⟨[.closed t name], rfl, .inr ⟨name, rfl, rfl⟩⟩
    all_goals exact ⟨[], rfl, .inl ⟨rfl, by simp⟩⟩
  · cases h

/-- The record behind a pointer is allocated and satisfies `P`. -/
def FuriRecordData.At (d : FuriRecordData D H Thread Data) (record : ℕ)
    (P : FuriRecord H Thread Data → Prop) : Prop :=
  ∃ r, d.heap record = some r ∧ P r

section At

variable {d : FuriRecordData D H Thread Data} {record q : ℕ} {r r' : FuriRecord H Thread Data}

theorem FuriRecordData.At.put {P : FuriRecord H Thread Data → Prop} (h : d.At record P)
    (hq : d.heap q = some r) (hP : P r → P r') : (d.put q r').At record P := by
  obtain ⟨r₁, hr₁, hP₁⟩ := h
  by_cases he : record = q
  · subst he
    obtain rfl : r₁ = r := Option.some.inj (hr₁.symm.trans hq)
    exact ⟨r', by simp [FuriRecordData.put], hP hP₁⟩
  · exact ⟨r₁, by simp [FuriRecordData.put, he, hr₁], hP₁⟩

variable [Dict D Name ℕ]

theorem FuriRecordData.At.free {P : FuriRecord H Thread Data → Prop} (h : d.At record P)
    (hne : record ≠ q) (n : Name) : (d.free n q).At record P := by
  obtain ⟨r, hr, hP⟩ := h
  exact ⟨r, by simpa [FuriRecordData.free, hne] using hr, hP⟩

end At

theorem furiRecordFlagUpdated_ne_zero : furiRecordFlagUpdated ≠ 0 := by decide

variable [Dict D Name ℕ]

variable (Name) in
/-- The registered pointers are allocated, and each belongs to one name. -/
structure WellFormed (d : FuriRecordData D H Thread Data) : Prop where
  live : ∀ (name : Name) record, Dict.get d.records name = some record →
    ∃ r, d.heap record = some r
  inj : ∀ (name name' : Name) record, Dict.get d.records name = some record →
    Dict.get d.records name' = some record → name = name'
  bound : ∀ (name : Name) record, Dict.get d.records name = some record → record < d.fresh

theorem WellFormed.put {d : FuriRecordData D H Thread Data} (hw : WellFormed Name d)
    (record : ℕ) (r : FuriRecord H Thread Data) : WellFormed Name (d.put record r) where
  live name q hq := by
    by_cases h : q = record
    · exact ⟨r, by simp [FuriRecordData.put, h]⟩
    · obtain ⟨r', hr'⟩ := hw.live name q hq
      exact ⟨r', by simp [FuriRecordData.put, h, hr']⟩
  inj := hw.inj
  bound := hw.bound

theorem WellFormed.free {d : FuriRecordData D H Thread Data} (hw : WellFormed Name d)
    {name : Name} {record : ℕ} (hg : Dict.get d.records name = some record) :
    WellFormed Name (d.free name record) := by
  have hget : ∀ n q, Dict.get (Dict.erase d.records name) n = some q →
      Dict.get d.records n = some q ∧ q ≠ record := by
    intro n q hq
    have hn : n ≠ name := by rintro rfl; simp at hq
    rw [Dict.get_erase_of_ne _ _ _ hn] at hq
    exact ⟨hq, fun he => hn (hw.inj n name q hq (he ▸ hg))⟩
  refine ⟨fun n q hq => ?_, fun n n' q hq hq' => ?_, fun n q hq => hw.bound n q (hget n q hq).1⟩
  · obtain ⟨hq, hne⟩ := hget n q hq
    simpa [FuriRecordData.free, hne] using hw.live n q hq
  · exact hw.inj n n' q (hget n q hq).1 (hget n' q hq').1

variable [DictSet H Thread]

theorem furiRecordGetOrCreate_cases (d : FuriRecordData D H Thread Data) (name : Name) :
    (∃ record, Dict.get d.records name = some record ∧
      furiRecordGetOrCreate d name = (record, d)) ∨
    (Dict.get d.records name = none ∧ furiRecordGetOrCreate d name = (d.fresh,
      { d with
        records := Dict.setAt d.records name d.fresh
        heap := Function.update d.heap d.fresh (some ⟨none, none, DictSet.init⟩)
        fresh := d.fresh + 1 })) := by
  unfold furiRecordGetOrCreate
  cases hg : Dict.get d.records name with
  | none => exact .inr ⟨rfl, rfl⟩
  | some record => exact .inl ⟨record, rfl, rfl⟩

theorem get_furiRecordGetOrCreate (d : FuriRecordData D H Thread Data) (name : Name) :
    Dict.get (furiRecordGetOrCreate d name).2.records name =
      some (furiRecordGetOrCreate d name).1 := by
  obtain ⟨record, hg, he⟩ | ⟨_, he⟩ := furiRecordGetOrCreate_cases d name
  · simpa [he] using hg
  · simp [he]

theorem get_of_furiRecordGetOrCreate {d : FuriRecordData D H Thread Data} {name n : Name}
    {record : ℕ} (hn : n ≠ name) :
    Dict.get (furiRecordGetOrCreate d name).2.records n = some record ↔
      Dict.get d.records n = some record := by
  obtain ⟨_, _, he⟩ | ⟨_, he⟩ := furiRecordGetOrCreate_cases d name
  · rw [he]
  · simp [he, Dict.get_setAt_of_ne _ _ _ _ hn]

theorem furiRecordGetOrCreate_keeps {d : FuriRecordData D H Thread Data}
    (hw : WellFormed Name d) (name : Name) {n : Name} {record : ℕ}
    (hg : Dict.get d.records n = some record) :
    Dict.get (furiRecordGetOrCreate d name).2.records n = some record ∧
      (furiRecordGetOrCreate d name).2.heap record = d.heap record := by
  obtain ⟨_, _, he⟩ | ⟨hnone, he⟩ := furiRecordGetOrCreate_cases d name
  · simp [he, hg]
  · have hn : n ≠ name := by rintro rfl; simp [hnone] at hg
    have hb := Nat.ne_of_lt (hw.bound n record hg)
    simp [he, Dict.get_setAt_of_ne _ _ _ _ hn, hg, hb]

theorem WellFormed.furiRecordGetOrCreate {d : FuriRecordData D H Thread Data}
    (hw : WellFormed Name d) (name : Name) :
    WellFormed Name (furiRecordGetOrCreate d name).2 := by
  obtain ⟨_, _, he⟩ | ⟨hnone, he⟩ := furiRecordGetOrCreate_cases d name
  · rwa [he]
  · have hget : ∀ n q, Dict.get (Dict.setAt d.records name d.fresh) n = some q →
        (n = name ∧ q = d.fresh) ∨ (Dict.get d.records n = some q ∧ q < d.fresh) := by
      intro n q hq
      by_cases hn : n = name
      · subst hn; simp at hq; exact .inl ⟨rfl, hq.symm⟩
      · rw [Dict.get_setAt_of_ne _ _ _ _ hn] at hq
        exact .inr ⟨hq, hw.bound n q hq⟩
    rw [he]
    refine ⟨fun n q hq => ?_, fun n n' q hq hq' => ?_, fun n q hq => ?_⟩
    · obtain ⟨-, rfl⟩ | ⟨hq, hlt⟩ := hget n q hq
      · simp
      · simpa [Nat.ne_of_lt hlt] using hw.live n q hq
    · obtain ⟨rfl, rfl⟩ | ⟨hq, hlt⟩ := hget n q hq <;>
        obtain ⟨rfl, h⟩ | ⟨hq', hlt'⟩ := hget n' _ hq'
      · rfl
      · omega
      · omega
      · exact hw.inj n n' q hq hq'
    · obtain ⟨-, rfl⟩ | ⟨-, hlt⟩ := hget n q hq <;> grind

/-- The record of `name` is at `record` and the thread is among its holders. -/
def Holds (d : FuriRecordData D H Thread Data) (t : Thread) (name : Name) (record : ℕ) : Prop :=
  Dict.get d.records name = some record ∧ d.At record fun r => t ∈ DictSet.toList r.holders

def Owned (d : FuriRecordData D H Thread Data) (record : ℕ) : Prop :=
  d.At record fun r => r.owner.isSome

/-- The program counters between taking and releasing the mutex. -/
def Pc.Locked : Pc Thread Name Data → Prop
  | .createGet .. | .createData .. | .createOwner .. | .createNotify .. | .destroyErase ..
  | .destroyRelease .. | .openGet .. | .openPush .. | .openRelease .. | .closeErase ..
  | .closeRelease => True
  | _ => False

/-- What a thread at a program counter knows of its record pointer. -/
def Pc.Facts (d : FuriRecordData D H Thread Data) (t : Thread) : Pc Thread Name Data → Prop
  | .createData name record _ | .createNotify name record _ | .openPush name record =>
    Dict.get d.records name = some record
  | .createOwner name record => Dict.get d.records name = some record
  | .openRelease name record | .openCheck name record | .openWait name record =>
    Holds d t name record
  | .openReturn name record => Holds d t name record ∧ Owned d record
  | _ => True

section Holders

variable {d : FuriRecordData D H Thread Data} {u : Thread} {name : Name} {record q : ℕ}
  {r : FuriRecord H Thread Data}

theorem FuriRecordData.At.furiRecordGetOrCreate {P : FuriRecord H Thread Data → Prop}
    (h : d.At record P) (hw : WellFormed Name d)
    (hg : Dict.get d.records name = some record) (n : Name) :
    (furiRecordGetOrCreate d n).2.At record P := by
  obtain ⟨r, hr, hP⟩ := h
  exact ⟨r, (furiRecordGetOrCreate_keeps hw n hg).2 ▸ hr, hP⟩

theorem Holds.ne_of_size_eq_zero (hh : Holds d u name record) (hq : d.heap q = some r)
    (hs : DictSet.size r.holders = 0) : record ≠ q := by
  rintro rfl
  obtain ⟨-, r₁, hr₁, hm⟩ := hh
  obtain rfl : r₁ = r := Option.some.inj (hr₁.symm.trans hq)
  exact DictSet.not_mem_of_size_eq_zero hs u hm

end Holders

theorem furiRecordGetOrCreate_mutex (d : FuriRecordData D H Thread Data) (name : Name) :
    (furiRecordGetOrCreate d name).2.recordsMutex = d.recordsMutex := by
  obtain ⟨_, _, he⟩ | ⟨_, he⟩ := furiRecordGetOrCreate_cases d name <;> rw [he]

structure Inv (s : State D H Thread Name Data) : Prop where
  wellFormed : WellFormed Name s.registry
  locked : ∀ t, (s.pc t).Locked → s.registry.recordsMutex = some t
  facts : ∀ t, (s.pc t).Facts s.registry t

theorem inv_init : Inv (init : State D H Thread Name Data) where
  wellFormed := ⟨by simp [init, furiRecordInit], by simp [init, furiRecordInit],
    by simp [init, furiRecordInit]⟩
  locked _ h := h.elim
  facts _ := trivial

variable [DecidableEq Thread]

/-- One step of a thread at a program counter, with the shared state it leaves. -/
inductive Move (d : FuriRecordData D H Thread Data) (fl : ThreadFlags Thread) (t : Thread) :
    Pc Thread Name Data → FuriRecordData D H Thread Data → ThreadFlags Thread →
      Pc Thread Name Data → List (Event Thread Name Data) → Prop where
  | createAcquire {name data} : d.recordsMutex = none →
      Move d fl t (.createAcquire name data) { d with recordsMutex := some t } fl
        (.createGet name data) []
  | createGet {name data} :
      Move d fl t (.createGet name data) (furiRecordGetOrCreate d name).2 fl
        (.createData name (furiRecordGetOrCreate d name).1 data) []
  | createData {name record data r} : d.heap record = some r →
      Move d fl t (.createData name record data) (d.put record { r with data := data }) fl
        (.createOwner name record) [.created t name data]
  | createOwner {name record r} : d.heap record = some r →
      Move d fl t (.createOwner name record) (d.put record { r with owner := some t }) fl
        (.createNotify name record (DictSet.toList r.holders)) []
  | createNotify {name record holder rest} :
      Move d fl t (.createNotify name record (holder :: rest)) d
        (osThreadFlagsSet fl holder furiRecordFlagUpdated) (.createNotify name record rest) []
  | createRelease {name record} :
      Move d fl t (.createNotify name record []) d.release fl .idle []
  | destroyAcquire {name} : d.recordsMutex = none →
      Move d fl t (.destroyAcquire name) { d with recordsMutex := some t } fl
        (.destroyErase name) []
  | destroyAbsent {name} : Dict.get d.records name = none →
      Move d fl t (.destroyErase name) d fl (.destroyRelease false) []
  | destroyErase {name record r} : Dict.get d.records name = some record →
      d.heap record = some r → r.owner = some t → DictSet.size r.holders = 0 →
      Move d fl t (.destroyErase name) (d.free name record) fl (.destroyRelease true)
        [.destroyed t name]
  | destroyRefuse {name record r} : Dict.get d.records name = some record →
      d.heap record = some r → ¬ (r.owner = some t ∧ DictSet.size r.holders = 0) →
      Move d fl t (.destroyErase name) d fl (.destroyRelease false) []
  | destroyRelease {destroyed} : Move d fl t (.destroyRelease destroyed) d.release fl .idle []
  | openAcquire {name} : d.recordsMutex = none →
      Move d fl t (.openAcquire name) { d with recordsMutex := some t } fl (.openGet name) []
  | openGet {name} :
      Move d fl t (.openGet name) (furiRecordGetOrCreate d name).2 fl
        (.openPush name (furiRecordGetOrCreate d name).1) []
  | openPush {name record r} : d.heap record = some r →
      Move d fl t (.openPush name record)
        (d.put record { r with holders := DictSet.push r.holders t }) fl
        (.openRelease name record) []
  | openRelease {name record} :
      Move d fl t (.openRelease name record) d.release fl (.openCheck name record) []
  | openArrived {name record r} : d.heap record = some r → r.owner.isSome →
      Move d fl t (.openCheck name record) d fl (.openReturn name record) []
  | openMissing {name record r} : d.heap record = some r → r.owner = none →
      Move d fl t (.openCheck name record) d fl (.openWait name record) []
  | openWait {name record fl'} : osThreadFlagsWait fl t furiRecordFlagUpdated = some fl' →
      Move d fl t (.openWait name record) d fl' (.openAcquire name) []
  | openReturn {name record r} : d.heap record = some r →
      Move d fl t (.openReturn name record) d fl .idle [.opened t name r.data]
  | closeAcquire {name} : d.recordsMutex = none →
      Move d fl t (.closeAcquire name) { d with recordsMutex := some t } fl (.closeErase name) []
  | closeErase {name record r} : Dict.get d.records name = some record →
      d.heap record = some r →
      Move d fl t (.closeErase name)
        (d.put record { r with holders := DictSet.erase r.holders t }) fl .closeRelease []
  | closeRelease : Move d fl t .closeRelease d.release fl .idle []

theorem step_move {s s' : State D H Thread Name Data} {t : Thread} (h : step s t = some s') :
    ∃ d fl p evs, Move s.registry s.flags t (s.pc t) d fl p evs ∧
      s' = ⟨d, fl, Function.update s.pc t p, evs ++ s.history⟩ := by
  cases hpc : s.pc t
  case' createNotify name record rest => cases rest
  all_goals simp only [step, hpc, reduceCtorEq] at h
  case createGet | createNotify.nil | createNotify.cons | destroyRelease | openGet | openRelease |
      closeRelease =>
    cases h
    exact ⟨_, _, _, _, by constructor, rfl⟩
  case createAcquire | destroyAcquire | openAcquire | closeAcquire =>
    obtain ⟨d, hd, rfl⟩ := Option.map_eq_some_iff.mp h
    obtain ⟨hm, rfl⟩ := acquire_eq_some hd
    exact ⟨_, _, _, _, by constructor; exact hm, rfl⟩
  case createData | createOwner | openPush | openReturn =>
    obtain ⟨r, hr, rfl⟩ := Option.map_eq_some_iff.mp h
    exact ⟨_, _, _, _, by constructor; exact hr, rfl⟩
  case openWait =>
    obtain ⟨fl, hfl, rfl⟩ := Option.map_eq_some_iff.mp h
    exact ⟨_, _, _, _, .openWait hfl, rfl⟩
  case destroyErase name =>
    split at h
    · next hg =>
      cases h
      exact ⟨_, _, _, _, .destroyAbsent hg, rfl⟩
    · next record hg =>
      obtain ⟨r, hr, rfl⟩ := Option.map_eq_some_iff.mp h
      split
      · next hc => exact ⟨_, _, _, _, .destroyErase hg hr hc.1 hc.2, rfl⟩
      · next hc => exact ⟨_, _, _, _, .destroyRefuse hg hr hc, rfl⟩
  case openCheck =>
    obtain ⟨r, hr, rfl⟩ := Option.map_eq_some_iff.mp h
    split
    · next ho => exact ⟨_, _, _, _, .openArrived hr ho, rfl⟩
    · next ho => exact ⟨_, _, _, _, .openMissing hr (by simpa using ho), rfl⟩
  case closeErase =>
    obtain ⟨record, hg, h⟩ := Option.bind_eq_some_iff.mp h
    obtain ⟨r, hr, rfl⟩ := Option.map_eq_some_iff.mp h
    exact ⟨_, _, _, _, .closeErase hg hr, rfl⟩

variable {d d' : FuriRecordData D H Thread Data} {t u : Thread} {name : Name} {record q : ℕ}
variable {r r' : FuriRecord H Thread Data}
variable {fl fl' : ThreadFlags Thread}
variable {p p' : Pc Thread Name Data} {evs : List (Event Thread Name Data)}

theorem Move.wellFormed (h : Move d fl t p d' fl' p' evs) (hw : WellFormed Name d) :
    WellFormed Name d' := by
  cases h
  case createGet | openGet => exact hw.furiRecordGetOrCreate _
  case createData | createOwner | openPush | closeErase => exact hw.put _ _
  case destroyErase hg _ _ _ => exact hw.free hg
  all_goals exact ⟨hw.live, hw.inj, hw.bound⟩

/-- A step leaves a holder, and the record it holds, in place, unless it is the holder's close. -/
theorem Move.holds (h : Move d fl t p d' fl' p' evs) (hw : WellFormed Name d)
    (hu : u = t → p ≠ .closeErase name) (hh : Holds d u name record) :
    Holds d' u name record := by
  cases h
  case createGet | openGet =>
    exact ⟨(furiRecordGetOrCreate_keeps hw _ hh.1).1, hh.2.furiRecordGetOrCreate hw hh.1 _⟩
  case createData hq | createOwner hq => exact ⟨hh.1, hh.2.put hq id⟩
  case openPush hq => exact ⟨hh.1, hh.2.put hq fun hm => by simp [hm]⟩
  case closeErase n q r hg hq =>
    refine ⟨hh.1, ?_⟩
    by_cases hut : u = t
    · have hn : name ≠ n := by rintro rfl; exact hu hut rfl
      have hne : record ≠ q := fun he => hn (hw.inj name n q (he ▸ hh.1) hg)
      obtain ⟨r₁, hr₁, hm⟩ := hh.2
      exact ⟨r₁, by simp [FuriRecordData.put, hne, hr₁], hm⟩
    · exact hh.2.put hq (by simp [hut])
  case destroyErase n q r hg hq _ hs =>
    have hne := hh.ne_of_size_eq_zero hq hs
    refine ⟨?_, hh.2.free hne n⟩
    have hn : name ≠ n := by rintro rfl; exact hne (Option.some.inj (hh.1.symm.trans hg))
    simpa [FuriRecordData.free, Dict.get_erase_of_ne _ _ _ hn] using hh.1
  all_goals exact hh

theorem Move.owned (h : Move d fl t p d' fl' p' evs) (hw : WellFormed Name d)
    (hh : Holds d u name record) (ho : Owned d record) : Owned d' record := by
  cases h
  case createGet | openGet => exact ho.furiRecordGetOrCreate hw hh.1 _
  case createData hq | createOwner hq | openPush hq | closeErase hq => exact ho.put hq (by simp)
  case destroyErase hq _ hs => exact ho.free (hh.ne_of_size_eq_zero hq hs) _
  all_goals exact ho

/-- A step keeps the mutex, takes it while it is free, or gives back the one the thread holds. -/
theorem Move.mutex (h : Move d fl t p d' fl' p' evs) :
    (d'.recordsMutex = d.recordsMutex ∧ (p'.Locked ↔ p.Locked)) ∨
    (d.recordsMutex = none ∧ d'.recordsMutex = some t ∧ ¬ p.Locked) ∨
    (p.Locked ∧ ¬ p'.Locked) := by
  cases h
  case createAcquire hm | destroyAcquire hm | openAcquire hm | closeAcquire hm =>
    exact .inr (.inl ⟨hm, rfl, id⟩)
  case createRelease | destroyRelease | openRelease | closeRelease => exact .inr (.inr ⟨trivial, id⟩)
  case createGet | openGet => exact .inl ⟨furiRecordGetOrCreate_mutex _ _, Iff.rfl⟩
  all_goals exact .inl ⟨rfl, Iff.rfl⟩

theorem Move.facts_self (h : Move d fl t p d' fl' p' evs) (hf : p.Facts d t) : p'.Facts d' t := by
  cases h
  case createGet | openGet => exact get_furiRecordGetOrCreate _ _
  case openPush => exact ⟨hf, _, by simp [FuriRecordData.put]; rfl, by simp⟩
  case openArrived hr ho => exact ⟨hf, _, hr, ho⟩
  case createRelease | destroyRelease | closeRelease | openReturn | openWait => trivial
  all_goals exact hf

/-- What another thread knows stays true; it cannot be inside the mutex together with `t`. -/
theorem Move.facts_other (h : Move d fl t p d' fl' p' evs) (hw : WellFormed Name d)
    (hu : u ≠ t) {q : Pc Thread Name Data} (hex : p.Locked → ¬ q.Locked) (hf : q.Facts d u) :
    q.Facts d' u := by
  have hget : q.Locked → ∀ (name : Name) record, Dict.get d.records name = some record →
      Dict.get d'.records name = some record := by
    intro hq name record hg
    cases h
    case createGet | openGet => exact (furiRecordGetOrCreate_keeps hw _ hg).1
    case destroyErase => exact absurd hq (hex trivial)
    all_goals exact hg
  cases q
  case createData | createOwner | createNotify | openPush => exact hget trivial _ _ hf
  case openRelease | openCheck | openWait => exact h.holds hw (absurd · hu) hf
  case openReturn => exact ⟨h.holds hw (absurd · hu) hf.1, h.owned hw hf.1 hf.2⟩
  all_goals trivial

theorem Inv.move {s : State D H Thread Name Data} (hi : Inv s)
    (h : Move s.registry s.flags t (s.pc t) d' fl' p' evs) :
    Inv (⟨d', fl', Function.update s.pc t p', evs ++ s.history⟩ : State D H Thread Name Data) := by
  refine ⟨h.wellFormed hi.wellFormed, fun u hu => ?_, fun u => ?_⟩
  · by_cases hut : u = t
    · subst hut
      simp only [Function.update_self] at hu
      obtain ⟨hm, hl⟩ | ⟨_, hm, _⟩ | ⟨_, hn⟩ := h.mutex
      · exact hm.trans (hi.locked u (hl.mp hu))
      · exact hm
      · exact absurd hu hn
    · simp only [Function.update_of_ne hut] at hu
      have hmu := hi.locked u hu
      obtain ⟨hm, -⟩ | ⟨hm, -⟩ | ⟨hl, -⟩ := h.mutex
      · exact hm.trans hmu
      · simp [hmu] at hm
      · exact absurd (Option.some.inj (hmu.symm.trans (hi.locked t hl))) hut
  · by_cases hut : u = t
    · subst hut
      simpa using h.facts_self (hi.facts u)
    · simp only [Function.update_of_ne hut]
      refine h.facts_other hi.wellFormed hut (fun hl hq => hut ?_) (hi.facts u)
      exact Option.some.inj ((hi.locked u hq).symm.trans (hi.locked t hl))

theorem Inv.call {s s' : State D H Thread Name Data} {c : Call Name Data} (hi : Inv s)
    (h : call s t c = some s') : Inv s' := by
  obtain ⟨-, evs, rfl, -⟩ := call_cases h
  refine ⟨hi.wellFormed, fun u hu => ?_, fun u => ?_⟩ <;> by_cases hut : u = t
  · subst hut; cases c <;> simp [Call.entry, Pc.Locked] at hu
  · exact hi.locked u (by simpa [hut] using hu)
  · subst hut; cases c <;> simp [Call.entry, Pc.Facts]
  · simpa [hut] using hi.facts u

theorem Inv.next {s s' : State D H Thread Name Data} {l : Label Thread Name Data} (hi : Inv s)
    (h : next s l = some s') : Inv s' := by
  cases l with
  | call t c => exact hi.call h
  | step t =>
    obtain ⟨_, _, _, _, hm, rfl⟩ := step_move h
    exact hi.move hm

theorem inv_of_reachable {s : State D H Thread Name Data}
    (h : (machine D H Thread Name Data).Reachable s) : Inv s :=
  h.invariant inv_init fun _ _ _ hi hs => hi.next hs

end FlipperZero.Record
