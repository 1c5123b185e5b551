import FlipperZero.AppLoader.Basic
import Mathlib.Data.List.Infix

/-! # Requests that do not overlap

When no request passes its check while another one is past its own, at most one request is
past its check at any time, and then no application thread is alive; otherwise at most one
is, and the state of the thread object tells where it is.
-/

namespace FlipperZero.AppLoader

open Lib

variable {b : Build} {Thread : Type} {s s' : AppLoaderState Thread}
  {t u : Thread} {l : AppLoaderLabel Thread} {o : Op} {ops rest : List Op} {r : StartRequest} {i j : ℕ}

def Active : List Op → Prop
  | [] => False
  | o :: _ => o ≠ .check

instance : DecidablePred Active
  | [] => inferInstanceAs (Decidable False)
  | _ :: _ => inferInstanceAs (Decidable (_ ≠ _))

/-- The state of the thread object before the next access of an active request. -/
def stageState : List Op → FuriThreadState
  | [.threadNew] => .starting
  | [.setStopped, .stateCallback] => .starting
  | _ => .stopped

def Tail (b : Build) (r : StartRequest) (ops : List Op) : Prop :=
  ops <:+ r.ops b ∨ ops <:+ [.setStopped, .stateCallback]

/-- An application thread that has not set the thread object to stopped. -/
def AppPc.Live : AppPc → Prop
  | .body | .call | .running _ _ | .returned => True
  | .none | .stateCallback | .exited => False

/-- The state of the thread object while an application thread lives. -/
def AppPc.state : AppPc → FuriThreadState
  | .body => .starting
  | _ => .running

/-- An access that writes to the thread object, the loader or the counter, and not to the state. -/
def Op.Writes : Op → Prop
  | .insomniaEnter | .setCurrentApp _ | .setArgs _ | .setName _ | .setStackSize _ | .setContext
  | .setCallback _ => True
  | _ => False

theorem ops_start (b : Build) (name : String) (args : Option String) :
    (StartRequest.start name args).ops b = [] ∨
      ∃ app, b.flipperApps.find? (fun app => app.name = name) = some app ∧
        (StartRequest.start name args).ops b = appLoaderStart b app args := by
  rcases hfind : b.flipperApps.find? fun app => app.name = name with _ | app
  · exact .inl (by simp [StartRequest.ops, hfind])
  · exact .inr ⟨app, hfind, by simp [StartRequest.ops, hfind]⟩

theorem not_active_ops (r : StartRequest) : ¬Active (r.ops b) := by
  rcases r with app | app | ⟨name, args⟩
  · exact fun h => h rfl
  · exact fun h => h rfl
  · rcases ops_start b name args with h | ⟨app, -, h⟩ <;> rw [h]
    · exact id
    · exact fun h => h rfl

theorem suffix_appLoaderCallback {app : FlipperApplication}
    (h : o :: rest <:+ appLoaderCallback app) :
    (o = .check ∨ o.Writes) ∧ Active rest ∧ stageState (o :: rest) = .stopped ∧
        stageState rest = .stopped ∨
      o = .threadStart ∧ rest = [.threadNew] ∨ o = .threadNew ∧ rest = [] := by
  simp only [appLoaderCallback, List.suffix_cons_iff, List.suffix_nil, List.cons.injEq,
    reduceCtorEq, or_false] at h
  rcases h with ⟨rfl, rfl⟩ | ⟨rfl, rfl⟩ | ⟨rfl, rfl⟩ | ⟨rfl, rfl⟩ | ⟨rfl, rfl⟩ | ⟨rfl, rfl⟩ |
    ⟨rfl, rfl⟩ | ⟨rfl, rfl⟩ <;> simp [Active, Op.Writes, stageState]

theorem suffix_appLoaderStart {app : FlipperApplication} {args : Option String}
    (h : o :: rest <:+ appLoaderStart b app args) :
    (o = .check ∨ o.Writes) ∧ Active rest ∧ stageState (o :: rest) = .stopped ∧
        stageState rest = .stopped ∨
      o = .threadStart ∧ rest = [.threadNew] ∨ o = .threadNew ∧ rest = [] := by
  simp only [appLoaderStart, List.suffix_cons_iff, List.suffix_nil, List.cons.injEq,
    reduceCtorEq, or_false] at h
  rcases h with ⟨rfl, rfl⟩ | ⟨rfl, rfl⟩ | ⟨rfl, rfl⟩ | ⟨rfl, rfl⟩ | ⟨rfl, rfl⟩ | ⟨rfl, rfl⟩ |
    ⟨rfl, rfl⟩ | ⟨rfl, rfl⟩ | ⟨rfl, rfl⟩ <;> simp [Active, Op.Writes, stageState]

theorem Tail.cases (h : Tail b r (o :: rest)) :
    (o = .check ∨ o.Writes) ∧ Active rest ∧ stageState (o :: rest) = .stopped ∧
        stageState rest = .stopped ∨
      o = .threadStart ∧ rest = [.threadNew] ∨ o = .threadNew ∧ rest = [] ∨
      o = .setStopped ∧ rest = [.stateCallback] ∨ o = .stateCallback ∧ rest = [] := by
  rcases h with h | h
  · rcases r with app | app | ⟨name, args⟩
    · exact (suffix_appLoaderCallback h).imp_right (Or.imp_right .inl)
    · exact (suffix_appLoaderCallback h).imp_right (Or.imp_right .inl)
    · rcases ops_start b name args with hnil | ⟨app, -, hops⟩
      · rw [hnil, List.suffix_nil] at h
        cases h
      · exact (suffix_appLoaderStart (hops ▸ h)).imp_right (Or.imp_right .inl)
  · simp only [List.suffix_cons_iff, List.suffix_nil, List.cons.injEq, reduceCtorEq, or_false] at h
    rcases h with ⟨rfl, rfl⟩ | ⟨rfl, rfl⟩ <;> simp

theorem Tail.tail (h : Tail b r (o :: rest)) : Tail b r rest :=
  h.imp (List.suffix_cons o rest).trans (List.suffix_cons o rest).trans

/-- No request passes its check while another one is past its own. -/
def Alone (s : AppLoaderState Thread) : AppLoaderLabel Thread → Prop
  | .op t => (∃ rest, s.clients t = .check :: rest) → s.thread.state = .stopped →
      ∀ u, ¬Active (s.clients u)
  | _ => True

def heldState (s : AppLoaderState Thread) : Option (Thread ⊕ ℕ) → FuriThreadState
  | none => .stopped
  | some (.inl t) => stageState (s.clients t)
  | some (.inr i) => (s.apps i).pc.state

/-- Who uses the thread object: a request past its check, a living application, or nobody. -/
structure Held (s : AppLoaderState Thread) (holder : Option (Thread ⊕ ℕ)) : Prop where
  active : ∀ t, Active (s.clients t) ↔ holder = some (.inl t)
  live : ∀ i, (s.apps i).pc.Live ↔ holder = some (.inr i)
  state : s.thread.state = heldState s holder

variable {holder : Option (Thread ⊕ ℕ)}
variable {pc : AppPc} {name : Option String}

theorem Held.app (h : Held s (some (.inr i))) (hclients : s'.clients = s.clients)
    (happs : s'.apps = Function.update s.apps i ⟨name, pc⟩) (hpc : pc.Live)
    (hstate : s'.thread.state = pc.state) : Held s' (some (.inr i)) := by
  refine ⟨fun u => ?_, fun j => ?_, by simpa [heldState, happs] using hstate⟩
  · rw [hclients]
    exact h.active u
  · rw [happs]
    by_cases hj : j = i
    · subst hj
      simp [hpc]
    · simp [hj, h.live j]

theorem Held.appStops (h : Held s (some (.inr i))) (hclients : s'.clients = s.clients)
    (happs : s'.apps = Function.update s.apps i ⟨name, pc⟩) (hpc : ¬pc.Live)
    (hstate : s'.thread.state = .stopped) : Held s' none := by
  refine ⟨fun u => ?_, fun j => ?_, hstate⟩
  · rw [hclients]
    simp [h.active u]
  · rw [happs]
    by_cases hj : j = i
    · subst hj
      simp [hpc]
    · simp [hj, h.live j, Ne.symm hj]

theorem Held.appIdle (h : Held s holder) (hclients : s'.clients = s.clients)
    (happs : s'.apps = Function.update s.apps i ⟨name, pc⟩) (hi : ¬(s.apps i).pc.Live) (hpc : ¬pc.Live)
    (hstate : s'.thread.state = s.thread.state) : Held s' holder := by
  have hne : holder ≠ some (.inr i) := fun he => hi ((h.live i).mpr he)
  refine ⟨fun u => ?_, fun j => ?_, ?_⟩
  · rw [hclients]
    exact h.active u
  · rw [happs]
    by_cases hj : j = i
    · subst hj
      simp [hpc, hne]
    · simp [hj, h.live j]
  · rw [hstate, h.state]
    rcases holder with _ | u | j
    · rfl
    · simp [heldState, hclients]
    · have hj : j ≠ i := fun he => hne (he ▸ rfl)
      simp [heldState, happs, hj]

open AppLoaderState

theorem others_eq (s : AppLoaderState Thread) (enter : Bool) :
    ∃ insomnia, s.others enter = { s with insomnia } := by
  cases enter with
  | false => exact ⟨_, rfl⟩
  | true => exact ⟨_, rfl⟩

theorem furiAssert_cases (p : Bool) (s : AppLoaderState Thread) :
    furiAssert b p s = none ∨ furiAssert b p s = some s := by
  unfold furiAssert
  split
  · exact .inl rfl
  · exact .inr rfl

theorem furiAssert_eq_some {p : Bool} {s s' : AppLoaderState Thread}
    (h : furiAssert b p s' = some s) : s = s' := by
  unfold furiAssert at h
  split at h
  · cases h
  · exact (Option.some.inj h).symm

theorem perform_writes (ho : o.Writes) (h : s.perform b o = some s') :
    s'.thread.state = s.thread.state ∧ s'.clients = s.clients ∧ s'.apps = s.apps ∧
      s'.created = s.created ∧ s'.requests = s.requests := by
  cases o with
  | insomniaEnter | setCurrentApp | setArgs =>
    cases h
    exact ⟨rfl, rfl, rfl, rfl, rfl⟩
  | setName | setStackSize | setContext | setCallback =>
    obtain rfl := furiAssert_eq_some h
    exact ⟨rfl, rfl, rfl, rfl, rfl⟩
  | _ => exact ho.elim

theorem Held.of_stopped (h : Held s holder)
    (hs : s.thread.state = .stopped) (hactive : ∀ u, ¬Active (s.clients u)) : holder = none := by
  rcases holder with _ | u | i
  · rfl
  · exact absurd ((h.active u).mpr rfl) (hactive u)
  · have hlive := (h.live i).mpr rfl
    have hstate := h.state.symm.trans hs
    unfold heldState at hstate
    cases hpc : (s.apps i).pc <;> simp [hpc, AppPc.state] at hstate

theorem Held.of_active (h : Held s holder)
    (ht : Active (s.clients t)) : Held s (some (.inl t)) := (h.active t).mp ht ▸ h

theorem Held.of_live (h : Held s holder)
    (hi : (s.apps i).pc.Live) : Held s (some (.inr i)) := (h.live i).mp hi ▸ h

variable [DecidableEq Thread]

theorem Held.request (h : Held s holder) (hclients : s'.clients = Function.update s.clients t ops)
    (happs : s'.apps = s.apps) (hold : holder = none ∨ holder = some (.inl t))
    (hops : Active ops) (hstate : s'.thread.state = stageState ops) :
    Held s' (some (.inl t)) := by
  refine ⟨fun u => ?_, fun i => ?_, by simpa [heldState, hclients] using hstate⟩
  · rw [hclients]
    by_cases hne : u = t
    · subst hne
      simp [hops]
    · have hu := h.active u
      rcases hold with rfl | rfl <;> simp_all [Ne.symm hne]
  · have hi := h.live i
    rw [happs]
    rcases hold with rfl | rfl <;> simp_all

theorem Held.leave (h : Held s (some (.inl t)))
    (hclients : s'.clients = Function.update s.clients t ops)
    (happs : s'.apps = s.apps) (hops : ¬Active ops)
    (hstate : s'.thread.state = .stopped) : Held s' none := by
  refine ⟨fun u => ?_, fun i => ?_, hstate⟩
  · rw [hclients]
    by_cases hne : u = t
    · subst hne
      simp [hops]
    · simp [hne, h.active u, Ne.symm hne]
  · rw [happs]
    simp [h.live i]

theorem Held.idle (h : Held s holder) (hclients : s'.clients = Function.update s.clients t ops)
    (happs : s'.apps = s.apps) (ht : ¬Active (s.clients t)) (hops : ¬Active ops)
    (hstate : s'.thread.state = s.thread.state) : Held s' holder := by
  have hne : holder ≠ some (.inl t) := fun he => ht ((h.active t).mpr he)
  refine ⟨fun u => ?_, fun i => ?_, ?_⟩
  · rw [hclients]
    by_cases hu : u = t
    · subst hu
      simp [hops, hne]
    · simp [hu, h.active u]
  · rw [happs]
    exact h.live i
  · rw [hstate, h.state]
    rcases holder with _ | u | i
    · rfl
    · have hu : u ≠ t := fun he => hne (he ▸ rfl)
      simp [heldState, hclients, hu]
    · simp [heldState, happs]

theorem Held.new (h : Held s (some (.inl t)))
    (hclients : s'.clients = Function.update s.clients t [])
    (happs : s'.apps = Function.update s.apps i ⟨name, .body⟩)
    (hstate : s'.thread.state = .starting) : Held s' (some (.inr i)) := by
  refine ⟨fun u => ?_, fun j => ?_, by simpa [heldState, happs, AppPc.state] using hstate⟩
  · rw [hclients]
    by_cases hu : u = t
    · subst hu
      simp [Active]
    · simp [hu, h.active u, Ne.symm hu]
  · rw [happs]
    by_cases hj : j = i
    · subst hj
      simp [AppPc.Live]
    · simp [hj, h.live j, Ne.symm hj]

structure Shape (b : Build) (s : AppLoaderState Thread) : Prop where
  tail : ∀ t, ∃ r, Tail b r (s.clients t)
  held : ∃ holder, Held s holder
  created : ∀ i, s.created ≤ i → (s.apps i).pc = .none

theorem shape_init (level : ℕ) : Shape b (appLoader b Thread level).init := by
  refine ⟨fun t => ⟨.start "" none, .inr List.nil_suffix⟩, ⟨none, ?_, ?_, rfl⟩, fun _ _ => rfl⟩
  · exact fun t => ⟨False.elim, fun h => by cases h⟩
  · exact fun t => ⟨False.elim, fun h => by cases h⟩

/-- The steps of requests that do not overlap. -/
inductive Move (b : Build) (s : AppLoaderState Thread) :
    AppLoaderLabel Thread → AppLoaderState Thread → Prop
  | crash {l : AppLoaderLabel Thread} : Move b s l s.crash
  | request (t : Thread) (r : StartRequest) : s.clients t = [] →
      Move b s (.request t r) { s.setClient t (r.ops b) with requests := r :: s.requests }
  | refuse (t : Thread) {rest : List Op} : s.clients t = .check :: rest →
      Move b s (.op t) (s.setClient t [])
  | pass (t : Thread) {rest : List Op} : s.clients t = .check :: rest → Held s none →
      Active rest → stageState rest = .stopped → Move b s (.op t) (s.setClient t rest)
  | write (t : Thread) {o : Op} {rest : List Op} {s' : AppLoaderState Thread} :
      s.clients t = o :: rest → o.Writes → Held s (some (.inl t)) → Active rest →
      stageState rest = .stopped → s.perform b o = some s' → s'.thread.state = .stopped →
      Move b s (.op t) (s'.setClient t rest)
  | start (t : Thread) : s.clients t = [.threadStart, .threadNew] → Held s (some (.inl t)) →
      Move b s (.op t) ((s.setThread { s.thread with state := .starting }).setClient t [.threadNew])
  | new (t : Thread) : s.clients t = [.threadNew] → Held s (some (.inl t)) →
      Move b s (.op t) ({ s with
        apps := Function.update s.apps s.created ⟨s.thread.name, .body⟩
        created := s.created + 1 }.setClient t [])
  | newFails (t : Thread) : s.clients t = [.threadNew] → Held s (some (.inl t)) →
      Move b s (.newFails t) (s.setClient t [.setStopped, .stateCallback])
  | setStopped (t : Thread) : s.clients t = [.setStopped, .stateCallback] →
      Held s (some (.inl t)) →
      Move b s (.op t) ((s.setThread { s.thread with state := .stopped }).setClient t [.stateCallback])
  | failed (t : Thread) : s.clients t = [.stateCallback] → Held s (some (.inl t)) →
      Move b s (.op t) (s.insomniaExit.setClient t [])
  | body (i : ℕ) : (s.apps i).pc = .body → Held s (some (.inr i)) →
      Move b s (.body i) ((s.setThread { s.thread with state := .running }).setApp i .call)
  | call (i : ℕ) {callback : ℕ} : (s.apps i).pc = .call → Held s (some (.inr i)) →
      s.thread.callback = some callback →
      Move b s (.body i) (s.setApp i (.running callback s.thread.context))
  | exit (i : ℕ) {callback : ℕ} {context : Bool} : (s.apps i).pc = .running callback context →
      Held s (some (.inr i)) → Move b s (.exit i) (s.setApp i .returned)
  | stop (i : ℕ) : (s.apps i).pc = .returned → Held s (some (.inr i)) →
      Move b s (.body i) ((s.setThread { s.thread with state := .stopped }).setApp i .stateCallback)
  | exited (i : ℕ) : (s.apps i).pc = .stateCallback →
      Move b s (.body i) (s.insomniaExit.setApp i .exited)
  | others (enter : Bool) : Move b s (.others enter) (s.others enter)

theorem Shape.op (h : Shape b s) (hok : Alone s (.op t)) (hs : s.op b t = some s') :
    Move b s (.op t) s' := by
  obtain ⟨holder, hheld⟩ := h.held
  obtain ⟨r, htail⟩ := h.tail t
  unfold AppLoaderState.op at hs
  split at hs
  · cases hs
  · next rest hc =>
    cases hs
    split
    · next hstopped =>
      have hstate : s.thread.state = .stopped := of_decide_eq_true hstopped
      obtain rfl := hheld.of_stopped hstate (hok ⟨rest, hc⟩ hstate)
      obtain ⟨-, hactive, -, hstage⟩ := (hc ▸ htail).cases.resolve_right (by simp)
      exact .pass t hc hheld hactive hstage
    · exact .refuse t hc
  · next o rest hne hc =>
    cases hs
    have hactive : Active (s.clients t) := by
      rw [hc]
      exact hne
    have hheld := hheld.of_active hactive
    rcases (hc ▸ htail).cases with ⟨ho, hrest, hstage, hstage'⟩ | ⟨rfl, rfl⟩ | ⟨rfl, rfl⟩ |
      ⟨rfl, rfl⟩ | ⟨rfl, rfl⟩
    · rcases hp : s.perform b o with _ | s'
      · exact .crash
      · have ho' := ho.resolve_left hne
        refine .write t hc ho' hheld hrest hstage' hp ?_
        rw [(perform_writes ho' hp).1, hheld.state, heldState, hc, hstage]
    · have hp : s.perform b .threadStart = none ∨ s.perform b .threadStart =
          some (s.setThread { s.thread with state := .starting }) := furiAssert_cases _ _
      rcases hp with hp | hp <;> rw [hp]
      · exact .crash
      · exact .start t hc hheld
    · exact .new t hc hheld
    · have hp : s.perform b .setStopped = none ∨ s.perform b .setStopped =
          some (s.setThread { s.thread with state := .stopped }) := furiAssert_cases _ _
      rcases hp with hp | hp <;> rw [hp]
      · exact .crash
      · exact .setStopped t hc hheld
    · exact .failed t hc hheld

theorem Shape.body (h : Shape b s) (hs : s.furiThreadBody b i = some s') :
    Move b s (.body i) s' := by
  obtain ⟨holder, hheld⟩ := h.held
  unfold AppLoaderState.furiThreadBody at hs
  split at hs
  · next hpc =>
    cases hs
    have hheld := hheld.of_live (i := i) (by rw [hpc]; trivial)
    rcases furiAssert_cases (b := b) (s.thread.state = .starting)
      ((s.setThread { s.thread with state := .running }).setApp i .call) with hp | hp <;> rw [hp]
    · exact .crash
    · exact .body i hpc hheld
  · next hpc =>
    split at hs
    · next callback hc =>
      cases hs
      exact .call i hpc (hheld.of_live (by rw [hpc]; trivial)) hc
    · cases hs
      exact .crash
  · next hpc =>
    cases hs
    have hheld := hheld.of_live (i := i) (by rw [hpc]; trivial)
    rcases furiAssert_cases (b := b) (s.thread.state = .running)
      ((s.setThread { s.thread with state := .stopped }).setApp i .stateCallback) with hp | hp <;>
      rw [hp]
    · exact .crash
    · exact .stop i hpc hheld
  · next hpc =>
    cases hs
    exact .exited i hpc
  · cases hs

theorem Shape.newFails (h : Shape b s) (hs : s.newFails t = some s') :
    Move b s (.newFails t) s' := by
  obtain ⟨holder, hheld⟩ := h.held
  unfold AppLoaderState.newFails at hs
  split at hs
  · next rest hc =>
    cases hs
    obtain ⟨r, htail⟩ := h.tail t
    have hcases := (hc ▸ htail).cases
    obtain rfl : rest = [] := by simpa [Op.Writes] using hcases
    exact .newFails t hc (hheld.of_active (by rw [hc]; simp [Active]))
  · cases hs

theorem Shape.move {level : ℕ} (h : Shape b s) (hok : Alone s l)
    (hs : (appLoader b Thread level).next s l = some s') : Move b s l s' := by
  have hcrashed : s.crashed = false := by
    by_contra hc
    simp [appLoader, hc] at hs
  simp only [appLoader, hcrashed, Bool.false_eq_true, ↓reduceIte] at hs
  cases l with
  | request t r =>
    simp only [AppLoaderState.request] at hs
    split at hs
    · next hc =>
      cases hs
      exact .request t r hc
    · cases hs
  | op t => exact h.op hok hs
  | newFails t => exact h.newFails hs
  | body i => exact h.body hs
  | exit i =>
    obtain ⟨holder, hheld⟩ := h.held
    simp only [AppLoaderState.exit] at hs
    split at hs
    · next callback context hpc =>
      cases hs
      exact .exit i hpc (hheld.of_live (by rw [hpc]; trivial))
    · cases hs
  | others enter =>
    cases hs
    exact .others enter

theorem Held.move (h : Held s holder) (hm : Move b s l s') :
    ∃ holder, Held s' holder := by
  cases hm with
  | crash => exact ⟨holder, h.active, h.live, h.state⟩
  | request t r hc =>
    exact ⟨holder, h.idle rfl rfl (by rw [hc]; exact id) (not_active_ops r) rfl⟩
  | refuse t hc => exact ⟨holder, h.idle rfl rfl (by rw [hc]; exact fun h => h rfl) id rfl⟩
  | pass t hc hheld hrest hstage =>
    exact ⟨_, hheld.request rfl rfl (.inl rfl) hrest (hheld.state.trans hstage.symm)⟩
  | @write t o rest s₁ hc ho hheld hrest hstage hp hstate =>
    obtain ⟨-, hclients, happs, -, -⟩ := perform_writes ho hp
    have hclients' : (s₁.setClient t rest).clients = Function.update s.clients t rest := by
      simp [setClient, hclients]
    exact ⟨_, hheld.request hclients' happs (.inr rfl) hrest (hstate.trans hstage.symm)⟩
  | start t hc hheld => exact ⟨_, hheld.request rfl rfl (.inr rfl) (by simp [Active]) rfl⟩
  | new t hc hheld =>
    refine ⟨_, hheld.new rfl rfl ?_⟩
    exact hheld.state.trans (by rw [heldState, hc]; rfl)
  | newFails t hc hheld =>
    refine ⟨_, hheld.request rfl rfl (.inr rfl) (by simp [Active]) ?_⟩
    exact hheld.state.trans (by rw [heldState, hc]; rfl)
  | setStopped t hc hheld => exact ⟨_, hheld.request rfl rfl (.inr rfl) (by simp [Active]) rfl⟩
  | failed t hc hheld =>
    refine ⟨_, hheld.leave rfl rfl id ?_⟩
    exact hheld.state.trans (by rw [heldState, hc]; rfl)
  | body i hpc hheld => exact ⟨_, hheld.app rfl rfl trivial rfl⟩
  | call i hpc hheld hc =>
    refine ⟨_, hheld.app rfl rfl trivial ?_⟩
    exact hheld.state.trans (by rw [heldState, hpc]; rfl)
  | exit i hpc hheld =>
    refine ⟨_, hheld.app rfl rfl trivial ?_⟩
    exact hheld.state.trans (by rw [heldState, hpc]; rfl)
  | stop i hpc hheld => exact ⟨_, hheld.appStops rfl rfl id rfl⟩
  | exited i hpc => exact ⟨holder, h.appIdle rfl rfl (by rw [hpc]; exact id) id rfl⟩
  | others enter =>
    obtain ⟨insomnia, heq⟩ := others_eq s enter
    rw [heq]
    exact ⟨holder, h.active, h.live, h.state⟩

theorem Move.clients (hm : Move b s l s') :
    s'.clients = s.clients ∨ ∃ t ops, s'.clients = Function.update s.clients t ops ∧
      (∀ r, Tail b r (s.clients t) → ∃ r', Tail b r' ops) := by
  cases hm with
  | crash | body | call | exit | stop | exited => exact .inl rfl
  | others enter =>
    obtain ⟨insomnia, heq⟩ := others_eq s enter
    rw [heq]
    exact .inl rfl
  | request t r => exact .inr ⟨t, _, rfl, fun _ _ => ⟨r, .inl List.suffix_rfl⟩⟩
  | refuse t hc => exact .inr ⟨t, _, rfl, fun r _ => ⟨r, .inl List.nil_suffix⟩⟩
  | pass t hc => exact .inr ⟨t, _, rfl, fun r hr => ⟨r, (hc ▸ hr).tail⟩⟩
  | write t hc ho _ _ _ hp =>
    obtain ⟨-, hclients, -⟩ := perform_writes ho hp
    exact .inr ⟨t, _, by simp only [setClient, hclients], fun r hr => ⟨r, (hc ▸ hr).tail⟩⟩
  | start t hc | new t hc | setStopped t hc | failed t hc =>
    exact .inr ⟨t, _, rfl, fun r hr => ⟨r, (hc ▸ hr).tail⟩⟩
  | newFails t hc => exact .inr ⟨t, _, rfl, fun r _ => ⟨r, .inr List.suffix_rfl⟩⟩

theorem Move.apps (hm : Move b s l s') :
    s'.apps = s.apps ∧ s'.created = s.created ∨
      s'.apps = Function.update s.apps s.created ⟨s.thread.name, .body⟩ ∧
        s'.created = s.created + 1 ∨
      ∃ i pc, s'.apps = Function.update s.apps i { s.apps i with pc := pc } ∧
        s'.created = s.created ∧ (s.apps i).pc ≠ .none := by
  cases hm with
  | crash | request | refuse | pass | start | newFails | setStopped | failed =>
    exact .inl ⟨rfl, rfl⟩
  | others enter =>
    obtain ⟨insomnia, heq⟩ := others_eq s enter
    rw [heq]
    exact .inl ⟨rfl, rfl⟩
  | write t hc ho _ _ _ hp =>
    obtain ⟨-, -, happs, hcreated, -⟩ := perform_writes ho hp
    exact .inl ⟨happs, hcreated⟩
  | new => exact .inr (.inl ⟨rfl, rfl⟩)
  | body i hpc | call i hpc | exit i hpc | stop i hpc | exited i hpc =>
    exact .inr (.inr ⟨i, _, rfl, rfl, by simp [hpc]⟩)

theorem Shape.of_move (h : Shape b s) (hm : Move b s l s') : Shape b s' := by
  obtain ⟨holder, hheld⟩ := h.held
  refine ⟨fun t => ?_, hheld.move hm, fun i hi => ?_⟩
  · rcases hm.clients with hc | ⟨u, ops, hc, hops⟩
    · exact hc ▸ h.tail t
    · rw [hc]
      by_cases ht : t = u
      · subst ht
        obtain ⟨r, hr⟩ := h.tail t
        simpa using hops r hr
      · simpa [ht] using h.tail t
  · rcases hm.apps with ⟨happs, hcreated⟩ | ⟨happs, hcreated⟩ | ⟨j, pc, happs, hcreated, hpc⟩
    · rw [happs]
      exact h.created i (hcreated ▸ hi)
    · rw [happs, Function.update_of_ne (by omega)]
      exact h.created i (by omega)
    · have hij : i ≠ j := by
        rintro rfl
        exact hpc (h.created i (hcreated ▸ hi))
      rw [happs, Function.update_of_ne hij]
      exact h.created i (hcreated ▸ hi)

end FlipperZero.AppLoader
