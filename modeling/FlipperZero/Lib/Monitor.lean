import Mathlib.Data.List.Induction
import Mathlib.Logic.Function.Basic
import FlipperZero.Lib.Machine

/-! # Calls that run under one mutex

The calls on an object ask for its mutex, work in steps while they hold it and give it back with
a result. A step may emit events. Whatever the threads do, the events are those of one call after
another, and the object is what the calls make of it in that order. A thread that asks for the
mutex inside a call of its own stops every call for good.
-/

namespace FlipperZero.Lib

/-- What the calls of an object do while they hold its mutex. -/
structure Monitor (θ σ ο κ ε ρ : Type*) where
  init : σ
  enter : θ → ο → σ → κ
  work : κ → σ → σ × List ε × (κ ⊕ ρ)

namespace Monitor

variable {θ σ ο κ ε ρ : Type*}

inductive Status (ο κ : Type*) where
  | idle
  | asking (op : ο)
  | inside (op : ο) (k : κ)
  | locked (op : ο) (k : κ)

/-- What is seen of the calls: the events, and the results as the mutex is given back. -/
inductive Observed (θ ο ε ρ : Type*) where
  | emit (t : θ) (e : ε)
  | ret (t : θ) (op : ο) (r : ρ)
deriving DecidableEq

structure State (θ σ ο κ ε ρ : Type*) where
  object : σ
  mutex : Option θ
  status : θ → Status ο κ
  trace : List (Observed θ ο ε ρ)

inductive Label (θ ο : Type*) where
  | call (t : θ) (op : ο)
  | acquire (t : θ)
  | work (t : θ)
  | again (t : θ)

structure Call (θ ο ε ρ : Type*) where
  thread : θ
  op : ο
  events : List ε
  result : ρ

def Call.observed (c : Call θ ο ε ρ) : List (Observed θ ο ε ρ) :=
  c.events.map (.emit c.thread) ++ [.ret c.thread c.op c.result]

variable (M : Monitor θ σ ο κ ε ρ)

section Sequential

/-- Some steps of a call that do not end it, with the events they emit. -/
inductive Works : κ → σ → List ε → κ → σ → Prop
  | refl (k : κ) (s : σ) : Works k s [] k s
  | step {k k' k'' : κ} {s s' s'' : σ} {es es' : List ε} (h : Works k s es k' s')
      (hw : M.work k' s' = (s'', es', .inl k'')) : Works k s (es ++ es') k'' s''

/-- A whole call, when no other thread works. -/
inductive Completes (s : σ) (c : Call θ ο ε ρ) (s' : σ) : Prop
  | intro {k : κ} {s₁ : σ} {es es' : List ε} (h : M.Works (M.enter c.thread c.op s) s es k s₁)
      (hw : M.work k s₁ = (s', es', .inr c.result)) (hes : c.events = es ++ es') : Completes s c s'

inductive Serial : List (Call θ ο ε ρ) → σ → Prop
  | nil : Serial [] M.init
  | snoc {cs : List (Call θ ο ε ρ)} {c : Call θ ο ε ρ} {s s' : σ} (h : Serial cs s)
      (hc : M.Completes s c s') : Serial (cs ++ [c]) s'

variable {M} {k k' : κ} {s s' : σ} {es es' : List ε} {c : Call θ ο ε ρ}
  {cs cs' : List (Call θ ο ε ρ)}

theorem Works.of_inr {r : ρ} (hw : M.work k s = (s', es', .inr r)) {k₁ : κ} {s₁ : σ}
    (h : M.Works k s es k₁ s₁) : k₁ = k ∧ s₁ = s ∧ es = [] := by
  induction h with
  | refl => exact ⟨rfl, rfl, rfl⟩
  | step _ hstep ih =>
    obtain ⟨rfl, rfl, -⟩ := ih hw
    rw [hw] at hstep
    cases hstep

theorem Completes.of_inr {r : ρ} (hw : M.work (M.enter c.thread c.op s) s = (s', es', .inr r))
    {s₁ : σ} (h : M.Completes s c s₁) : s₁ = s' ∧ c.events = es' ∧ c.result = r := by
  obtain ⟨hworks, hend, hes⟩ := h
  obtain ⟨rfl, rfl, rfl⟩ := hworks.of_inr hw
  rw [hw] at hend
  cases hend
  exact ⟨rfl, hes, rfl⟩

theorem Serial.append_inv (h : M.Serial (cs ++ c :: cs') s) :
    ∃ s₁ s₂, M.Serial cs s₁ ∧ M.Completes s₁ c s₂ := by
  induction cs' using List.reverseRecOn generalizing s with
  | nil =>
    generalize hl : cs ++ [c] = l at h
    cases h with
    | nil => simp at hl
    | snoc h hc =>
      obtain ⟨rfl, hcc⟩ := List.append_inj' hl rfl
      obtain rfl : c = _ := by simpa using hcc
      exact ⟨_, _, h, hc⟩
  | append_singleton cs' c' ih =>
    generalize hl : cs ++ c :: (cs' ++ [c']) = l at h
    cases h with
    | nil => simp at hl
    | snoc h hc =>
      rw [← List.cons_append, ← List.append_assoc] at hl
      obtain ⟨rfl, -⟩ := List.append_inj' hl rfl
      exact ih h

/-- What a call that begins with the object `s` may have emitted so far. -/
def Emits (M : Monitor θ σ ο κ ε ρ) (s : σ) (t : θ) (op : ο) (es : List ε) : Prop :=
  (∃ k s', M.Works (M.enter t op s) s es k s') ∨
    ∃ c s', M.Completes s c s' ∧ c.thread = t ∧ c.op = op ∧ c.events = es

theorem observed_split {x : Observed θ ο ε ρ} {a b : List (Observed θ ο ε ρ)}
    (h : c.observed = a ++ x :: b) :
    (∃ e es es', x = .emit c.thread e ∧ c.events = es ++ e :: es' ∧
      a = es.map (.emit c.thread)) ∨
    (x = .ret c.thread c.op c.result ∧ a = c.events.map (.emit c.thread)) := by
  rcases List.append_eq_append_iff.mp h with ⟨l, rfl, hl⟩ | ⟨l, hl, hl'⟩
  · cases l with
    | nil =>
      obtain ⟨rfl, -⟩ := by simpa using hl
      exact .inr ⟨rfl, by simp⟩
    | cons y l => simp at hl
  · cases l with
    | nil =>
      obtain ⟨rfl, -⟩ := by simpa using hl'
      exact .inr ⟨rfl, by simpa using hl.symm⟩
    | cons y l =>
      obtain ⟨rfl, hl'⟩ := List.cons.inj hl'
      obtain ⟨es, es', hes, ha, hb⟩ := List.map_eq_append_iff.mp hl
      obtain ⟨e, es'', rfl, rfl, -⟩ := List.map_eq_cons_iff.mp hb
      exact .inl ⟨e, es, es'', rfl, hes, ha.symm⟩

theorem flatMap_split {x : Observed θ ο ε ρ} {a b tail : List (Observed θ ο ε ρ)}
    (h : cs.flatMap Call.observed ++ tail = a ++ x :: b) :
    (∃ l, a = cs.flatMap Call.observed ++ l ∧ tail = l ++ x :: b) ∨
    ∃ cs₁ c cs₂ l l', cs = cs₁ ++ c :: cs₂ ∧ c.observed = l ++ x :: l' ∧
      a = cs₁.flatMap Call.observed ++ l := by
  induction cs generalizing a with
  | nil => exact .inl ⟨a, rfl, h⟩
  | cons c cs ih =>
    rw [List.flatMap_cons, List.append_assoc] at h
    rcases List.append_eq_append_iff.mp h with ⟨l, rfl, hl⟩ | ⟨l, hl, hl'⟩
    · rcases ih hl with ⟨l', rfl, htail⟩ | ⟨cs₁, c', cs₂, l₁, l₂, rfl, hc, rfl⟩
      · exact .inl ⟨l', by simp, htail⟩
      · exact .inr ⟨c :: cs₁, c', cs₂, l₁, l₂, rfl, hc, by simp⟩
    · cases l with
      | nil =>
        rw [List.append_nil] at hl
        rcases ih (a := []) hl'.symm with ⟨l', hnil, htail⟩ | ⟨cs₁, c', cs₂, l₁, l₂, rfl, hc, hnil⟩
        · obtain ⟨hcs, rfl⟩ := List.append_eq_nil_iff.mp hnil.symm
          exact .inl ⟨[], by simp [hl, hcs], htail⟩
        · obtain ⟨hcs, rfl⟩ := List.append_eq_nil_iff.mp hnil.symm
          exact .inr ⟨c :: cs₁, c', cs₂, [], l₂, rfl, hc, by simp [hl, hcs]⟩
      | cons y l =>
        obtain ⟨rfl, hl'⟩ := List.cons.inj hl'
        exact .inr ⟨[], c, cs, a, l, rfl, hl, rfl⟩

end Sequential

section Concurrent

def start : State θ σ ο κ ε ρ :=
  { object := M.init, mutex := none, status := fun _ => .idle, trace := [] }

def Status.holding : Status ο κ → Option (ο × κ)
  | .inside op k => some (op, k)
  | .locked op k => some (op, k)
  | _ => none

/-- The calls so far ended one after another with the object `s`, and the holder of the mutex has
worked on it since. -/
structure Explained (M : Monitor θ σ ο κ ε ρ) (st : State θ σ ο κ ε ρ)
    (cs : List (Call θ ο ε ρ)) (s : σ) : Prop where
  serial : M.Serial cs s
  free : st.mutex = none → st.object = s ∧ st.trace = cs.flatMap Call.observed
  held : ∀ t, st.mutex = some t → ∃ op k es, (st.status t).holding = some (op, k) ∧
    M.Works (M.enter t op s) s es k st.object ∧
    st.trace = cs.flatMap Call.observed ++ es.map (.emit t)
  others : ∀ t, st.mutex ≠ some t → (st.status t).holding = none

theorem explained_start : Explained M M.start [] M.init where
  serial := .nil
  free _ := ⟨rfl, rfl⟩
  held _ h := nomatch h
  others _ _ := rfl

variable [DecidableEq θ]

def call (st : State θ σ ο κ ε ρ) (t : θ) (op : ο) : Option (State θ σ ο κ ε ρ) :=
  match st.status t with
  | .idle => some { st with status := Function.update st.status t (.asking op) }
  | _ => none

def acquire (st : State θ σ ο κ ε ρ) (t : θ) : Option (State θ σ ο κ ε ρ) :=
  match st.status t, st.mutex with
  | .asking op, none => some
      { st with
        mutex := some t
        status := Function.update st.status t (.inside op (M.enter t op st.object)) }
  | _, _ => none

def advance (st : State θ σ ο κ ε ρ) (t : θ) : Option (State θ σ ο κ ε ρ) :=
  match st.status t with
  | .inside op k =>
    match M.work k st.object with
    | (s, es, .inl k') => some
        { st with
          object := s
          status := Function.update st.status t (.inside op k')
          trace := st.trace ++ es.map (.emit t) }
    | (s, es, .inr r) => some
        { object := s
          mutex := none
          status := Function.update st.status t .idle
          trace := st.trace ++ (es.map (.emit t) ++ [.ret t op r]) }
  | _ => none

def again (st : State θ σ ο κ ε ρ) (t : θ) : Option (State θ σ ο κ ε ρ) :=
  match st.status t with
  | .inside op k => some { st with status := Function.update st.status t (.locked op k) }
  | _ => none

def next (st : State θ σ ο κ ε ρ) : Label θ ο → Option (State θ σ ο κ ε ρ)
  | .call t op => call st t op
  | .acquire t => M.acquire st t
  | .work t => M.advance st t
  | .again t => again st t

def machine : Machine (State θ σ ο κ ε ρ) (Label θ ο) where
  init := M.start
  next := M.next

variable {M} {st st' : State θ σ ο κ ε ρ} {t : θ} {op : ο} {k k' : κ} {s s' : σ} {es : List ε}
  {r : ρ} {cs : List (Call θ ο ε ρ)}

theorem Explained.update (h : Explained M st cs s) (hs : (st.status t).holding = none)
    {x : Status ο κ} (hx : x.holding = none) :
    Explained M { st with status := Function.update st.status t x } cs s where
  serial := h.serial
  free := h.free
  held u hu := by
    have hut : u ≠ t := by
      rintro rfl
      obtain ⟨op, k, es, hk, -⟩ := h.held u hu
      rw [hs] at hk
      cases hk
    simp only [Function.update_of_ne hut]
    exact h.held u hu
  others u hu := by
    by_cases hut : u = t
    · subst hut
      simp only [Function.update_self, hx]
    · simp only [Function.update_of_ne hut]
      exact h.others u hu

theorem Explained.call (h : Explained M st cs s) (hs : call st t op = some st') :
    Explained M st' cs s := by
  unfold Monitor.call at hs
  split at hs
  · next hidle =>
    obtain rfl := Option.some.inj hs
    refine h.update ?_ rfl
    rw [hidle]
    rfl
  · cases hs

theorem Explained.acquire (h : Explained M st cs s) (hs : M.acquire st t = some st') :
    Explained M st' cs s := by
  unfold Monitor.acquire at hs
  split at hs
  · next op hask hfree =>
    obtain rfl := Option.some.inj hs
    obtain ⟨hobject, htrace⟩ := h.free hfree
    constructor
    · exact h.serial
    · rintro ⟨⟩
    · rintro u ⟨⟩
      refine ⟨op, M.enter t op st.object, [], by simp only [Function.update_self, Status.holding],
        ?_, by simpa using htrace⟩
      rw [← hobject]
      exact .refl _ _
    · intro u hu
      have hut : u ≠ t := fun hut => hu (congrArg some hut.symm)
      simp only [Function.update_of_ne hut]
      exact h.others u (by rw [hfree]; exact nofun)
  · cases hs

theorem advance_inl (hs : st.status t = .inside op k) (hw : M.work k st.object = (s, es, .inl k')) :
    M.advance st t = some
      { st with
        object := s
        status := Function.update st.status t (.inside op k')
        trace := st.trace ++ es.map (.emit t) } := by
  simp only [Monitor.advance, hs, hw]

theorem advance_inr (hs : st.status t = .inside op k) (hw : M.work k st.object = (s, es, .inr r)) :
    M.advance st t = some
      { object := s
        mutex := none
        status := Function.update st.status t .idle
        trace := st.trace ++ (es.map (.emit t) ++ [.ret t op r]) } := by
  simp only [Monitor.advance, hs, hw]

theorem exec_inr (hs : st.status t = .inside op k) (hw : M.work k st.object = (s, es, .inr r)) :
    ∃ st', M.machine.exec st [.work t] = some st' ∧ st'.mutex = none ∧
      st'.trace = st.trace ++ (es.map (.emit t) ++ [.ret t op r]) := by
  have hstep : M.machine.next st (.work t) = _ := advance_inr hs hw
  exact ⟨_, Machine.exec_cons hstep, rfl, rfl⟩

theorem mutex_of_inside (h : Explained M st cs s) (ht : (st.status t).holding = some (op, k)) :
    st.mutex = some t := by
  by_contra hne
  rw [h.others t hne] at ht
  cases ht

theorem Explained.advance (h : Explained M st cs s) (hs : M.advance st t = some st') :
    ∃ cs' s', Explained M st' cs' s' := by
  unfold Monitor.advance at hs
  split at hs
  · next op k hin =>
    have hk : (st.status t).holding = some (op, k) := by
      rw [hin]
      rfl
    have hmutex := mutex_of_inside h hk
    obtain ⟨op', k', es, hk', hworks, htrace⟩ := h.held t hmutex
    obtain ⟨rfl, rfl⟩ : op' = op ∧ k' = k := by simpa [hk, eq_comm] using hk'
    have hothers : ∀ u x, u ≠ t → (Function.update st.status t x u).holding = none := by
      intro u x hut
      simp only [Function.update_of_ne hut]
      refine h.others u ?_
      rw [hmutex]
      exact fun heq => hut (Option.some.inj heq).symm
    split at hs
    · next s₁ es' k₁ hw =>
      obtain rfl := Option.some.inj hs
      refine ⟨cs, s, h.serial, ?_, ?_, ?_⟩
      · intro hfree
        rw [hmutex] at hfree
        cases hfree
      · intro u hu
        obtain rfl := Option.some.inj (hmutex.symm.trans hu)
        refine ⟨_, k₁, es ++ es', by simp only [Function.update_self, Status.holding], hworks.step hw, ?_⟩
        rw [htrace, List.map_append, List.append_assoc]
      · intro u hu
        refine hothers u _ ?_
        rintro rfl
        exact hu hmutex
    · next s₁ es' r hw =>
      obtain rfl := Option.some.inj hs
      let c : Call θ ο ε ρ := ⟨t, op', es ++ es', r⟩
      have hc : M.Completes s c s₁ := .intro hworks hw rfl
      refine ⟨cs ++ [c], s₁, h.serial.snoc hc, ?_, nofun, ?_⟩
      · intro _
        refine ⟨rfl, ?_⟩
        simp [htrace, c, Call.observed]
      · intro u _
        by_cases hut : u = t
        · subst hut
          simp only [Function.update_self, Status.holding]
        · exact hothers u _ hut
  · cases hs

theorem Explained.again (h : Explained M st cs s) (hs : again st t = some st') :
    Explained M st' cs s := by
  unfold Monitor.again at hs
  split at hs
  · next op k hin =>
    obtain rfl := Option.some.inj hs
    have hk : (st.status t).holding = some (op, k) := by
      rw [hin]
      rfl
    have hmutex := mutex_of_inside h hk
    refine ⟨h.serial, h.free, ?_, ?_⟩
    · intro u hu
      obtain ⟨op', k', es, hk', hworks, htrace⟩ := h.held u hu
      by_cases hut : u = t
      · subst hut
        rw [hk] at hk'
        refine ⟨op', k', es, ?_, hworks, htrace⟩
        simp only [Function.update_self, Status.holding, ← hk']
      · simp only [Function.update_of_ne hut]
        exact ⟨op', k', es, hk', hworks, htrace⟩
    · intro u hu
      have hut : u ≠ t := by
        rintro rfl
        exact hu hmutex
      simp only [Function.update_of_ne hut]
      exact h.others u hu
  · cases hs

theorem explained (h : M.machine.Reachable st) : ∃ cs s, Explained M st cs s := by
  refine h.invariant (P := fun st => ∃ cs s, Explained M st cs s) ⟨[], M.init, M.explained_start⟩ ?_
  rintro st l st' ⟨cs, s, hst⟩ hs
  cases l with
  | call t op => exact ⟨cs, s, hst.call hs⟩
  | acquire t => exact ⟨cs, s, hst.acquire hs⟩
  | work t => exact hst.advance hs
  | again t => exact ⟨cs, s, hst.again hs⟩

theorem explained_at {x : Observed θ ο ε ρ} {a b : List (Observed θ ο ε ρ)}
    (h : M.machine.Reachable st) (hx : st.trace = a ++ x :: b) : ∃ cs s, M.Serial cs s ∧
      ((∃ t op e es es', x = .emit t e ∧ M.Emits s t op (es ++ e :: es') ∧
        a = cs.flatMap Call.observed ++ es.map (.emit t)) ∨
      ∃ c s', M.Completes s c s' ∧ x = .ret c.thread c.op c.result ∧
        a = cs.flatMap Call.observed ++ c.events.map (.emit c.thread)) := by
  obtain ⟨cs, s, hst⟩ := explained h
  obtain ⟨tail, htrace, htail⟩ : ∃ tail, st.trace = cs.flatMap Call.observed ++ tail ∧
      ∀ l l', tail = l ++ x :: l' → ∃ t op e es es', x = .emit t e ∧
        M.Emits s t op (es ++ e :: es') ∧ l = es.map (.emit t) := by
    cases hmutex : st.mutex with
    | none => exact ⟨[], by simpa using (hst.free hmutex).2, by simp⟩
    | some t =>
      obtain ⟨op, k, es, -, hworks, htrace⟩ := hst.held t hmutex
      refine ⟨_, htrace, ?_⟩
      intro l l' hl
      obtain ⟨es₁, es₂, rfl, rfl, h₂⟩ := List.map_eq_append_iff.mp hl
      obtain ⟨e, es₃, rfl, rfl, -⟩ := List.map_eq_cons_iff.mp h₂
      exact ⟨t, op, e, es₁, es₃, rfl, .inl ⟨k, _, hworks⟩, rfl⟩
  rcases flatMap_split (htrace.symm.trans hx) with ⟨l, rfl, hl⟩ | ⟨cs₁, c, cs₂, l, l', rfl, hc, rfl⟩
  · obtain ⟨t, op, e, es, es', rfl, hemits, rfl⟩ := htail l b hl
    exact ⟨cs, s, hst.serial, .inl ⟨t, op, e, es, es', rfl, hemits, rfl⟩⟩
  · obtain ⟨s₁, s₂, hserial, hcomplete⟩ := hst.serial.append_inv
    refine ⟨cs₁, s₁, hserial, ?_⟩
    rcases observed_split hc with ⟨e, es, es', rfl, hes, rfl⟩ | ⟨rfl, rfl⟩
    · exact .inl ⟨c.thread, c.op, e, es, es', rfl, .inr ⟨c, s₂, hcomplete, rfl, rfl, hes⟩, rfl⟩
    · exact .inr ⟨c, s₂, hcomplete, rfl, rfl⟩

def Deadlocked (st : State θ σ ο κ ε ρ) : Prop :=
  ∃ t op k, st.status t = .locked op k ∧ st.mutex = some t ∧
    ∀ u, u ≠ t → (st.status u).holding = none

theorem deadlocked_of_locked (h : M.machine.Reachable st) (ht : st.status t = .locked op k) :
    Deadlocked st := by
  obtain ⟨cs, s, hst⟩ := explained h
  have hholding : (st.status t).holding = some (op, k) := by
    rw [ht]
    rfl
  have hmutex := mutex_of_inside hst hholding
  refine ⟨t, op, k, ht, hmutex, ?_⟩
  intro u hut
  refine hst.others u ?_
  rw [hmutex]
  exact fun heq => hut (Option.some.inj heq).symm

theorem Deadlocked.next {l : Label θ ο} (h : Deadlocked st) (hs : M.next st l = some st') :
    Deadlocked st' ∧ st'.trace = st.trace := by
  obtain ⟨t, op, k, ht, hmutex, hothers⟩ := h
  cases l with
  | call u op' =>
    simp only [Monitor.next, Monitor.call] at hs
    split at hs
    · next hidle =>
      obtain rfl := Option.some.inj hs
      have hut : t ≠ u := by
        rintro rfl
        rw [ht] at hidle
        cases hidle
      refine ⟨⟨t, op, k, by simp only [Function.update_of_ne hut, ht], hmutex, ?_⟩, rfl⟩
      intro v hvt
      by_cases hvu : v = u
      · subst hvu
        simp only [Function.update_self, Status.holding]
      · simp only [Function.update_of_ne hvu]
        exact hothers v hvt
    · cases hs
  | acquire u =>
    simp only [Monitor.next, Monitor.acquire] at hs
    split at hs
    · next hfree =>
      rw [hmutex] at hfree
      cases hfree
    · cases hs
  | work u =>
    simp only [Monitor.next, Monitor.advance] at hs
    split at hs
    · next hin =>
      have hut : u ≠ t := by
        rintro rfl
        rw [ht] at hin
        cases hin
      have hnone := hothers u hut
      rw [hin] at hnone
      cases hnone
    · cases hs
  | again u =>
    simp only [Monitor.next, Monitor.again] at hs
    split at hs
    · next hin =>
      have hut : u ≠ t := by
        rintro rfl
        rw [ht] at hin
        cases hin
      have hnone := hothers u hut
      rw [hin] at hnone
      cases hnone
    · cases hs

theorem Deadlocked.exec {ls : List (Label θ ο)} (h : Deadlocked st)
    (hs : M.machine.exec st ls = some st') : st'.trace = st.trace := by
  induction ls generalizing st with
  | nil => rw [← Option.some.inj hs]
  | cons l ls ih =>
    cases hn : M.next st l with
    | none => simp [Machine.exec, Machine.execWith, machine, hn] at hs
    | some st₁ =>
      obtain ⟨h₁, htrace⟩ := h.next hn
      rw [Machine.exec_cons (M := M.machine) hn] at hs
      rw [ih h₁ hs, htrace]

/-- As long as no thread waits for itself, one that is in a call or asks for it can go on. -/
theorem can_move (h : M.machine.Reachable st) (hl : ∀ t op k, st.status t ≠ .locked op k)
    (hbusy : ∃ t, st.status t ≠ .idle) :
    ∃ t, (M.advance st t).isSome ∨ (M.acquire st t).isSome := by
  obtain ⟨cs, s, hst⟩ := explained h
  cases hmutex : st.mutex with
  | none =>
    obtain ⟨t, ht⟩ := hbusy
    refine ⟨t, .inr ?_⟩
    have hnone : (st.status t).holding = none := hst.others t (by rw [hmutex]; exact nofun)
    cases hstatus : st.status t with
    | idle => exact (ht hstatus).elim
    | asking op => simp [Monitor.acquire, hstatus, hmutex]
    | inside op k => simp [hstatus, Status.holding] at hnone
    | locked op k => exact (hl t op k hstatus).elim
  | some t =>
    refine ⟨t, .inl ?_⟩
    obtain ⟨op, k, es, hk, -⟩ := hst.held t hmutex
    cases hstatus : st.status t with
    | idle => simp [hstatus, Status.holding] at hk
    | asking op => simp [hstatus, Status.holding] at hk
    | inside op k =>
      unfold Monitor.advance
      simp only [hstatus]
      split <;> rfl
    | locked op k => exact (hl t op k hstatus).elim

end Concurrent

end Monitor

end FlipperZero.Lib
