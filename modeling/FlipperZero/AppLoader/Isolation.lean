import FlipperZero.AppLoader.Shape
import Mathlib.Algebra.GroupWithZero.Nat

/-! # One application, from one request

While requests do not overlap, the application that runs has the callback and the name of
one request. It also has the arguments of this request where the context of the thread
object gives none to a request that does not set it.
-/

namespace FlipperZero.AppLoader

open Lib AppLoaderState

variable {b : Build} {Thread : Type} {s s' : AppLoaderState Thread}
  {t u : Thread} {l : AppLoaderLabel Thread} {o : Op} {ops rest : List Op} {r : StartRequest}
  {i j : ℕ} {app : FlipperApplication} {x : Option String} {holder : Option (Thread ⊕ ℕ)}

/-- The arguments that a context and the argument string give; an empty string gives none. -/
def received (context : Bool) (args : String) : Option String :=
  if context ∧ args ≠ "" then some args else none

/-- The application that a request asks for, and its arguments. -/
def StartRequest.target (b : Build) : StartRequest → Option (FlipperApplication × Option String)
  | .menu app | .cli app => some (app, none)
  | .start name args =>
    (b.flipperApps.find? fun app => app.name = name).map fun app =>
      (app, received true (b.argString args))

/-- No request passes its check while another one is past its own, and none that leaves the
context alone passes it while the context gives arguments. -/
def Isolated (s : AppLoaderState Thread) : AppLoaderLabel Thread → Prop
  | .op t => ∀ rest, s.clients t = .check :: rest → s.thread.state = .stopped →
      (∀ u, ¬Active (s.clients u)) ∧
        (.setContext ∉ rest → received s.thread.context s.args = none)
  | _ => True

theorem Isolated.alone (h : Isolated s l) : Alone s l := by
  cases l with
  | op t =>
    rintro ⟨rest, hc⟩ hs
    exact (h rest hc hs).1
  | _ => trivial

/-- Where the arguments stand when a request still has some accesses left. -/
def ArgsReady (b : Build) (s : AppLoaderState Thread) (ops : List Op) : StartRequest → Prop
  | .menu _ | .cli _ => received s.thread.context s.args = none
  | .start _ args => ((∀ y, .setArgs y ∉ ops) → s.args = b.argString args) ∧
      (.setContext ∉ ops → s.thread.context = true)

/-- What a request past its check has prepared. -/
structure Prepared (b : Build) (s : AppLoaderState Thread) (r : StartRequest)
    (app : FlipperApplication) (ops : List Op) : Prop where
  suffix : ops <:+ r.ops b
  name : (∀ n, .setName n ∉ ops) → s.thread.name = some app.name
  callback : (∀ c, .setCallback c ∉ ops) → s.thread.callback = some app.app
  args : ArgsReady b s ops r

/-- What an application thread runs, or is about to run. -/
def AppPc.Runs (s : AppLoaderState Thread) (app : FlipperApplication) (x : Option String) :
    AppPc → Prop
  | .body | .call => s.thread.callback = some app.app ∧ received s.thread.context s.args = x
  | .running callback context => callback = app.app ∧ received context s.args = x
  | _ => True

/-- A request past its check fails, or has prepared what it still needs. -/
def ActiveOk (b : Build) (s : AppLoaderState Thread) (t : Thread) : Prop :=
  s.clients t <:+ [.setStopped, .stateCallback] ∨
    ∃ r ∈ s.requests, ∃ app x, r.target b = some (app, x) ∧ Prepared b s r app (s.clients t)

/-- An application thread has the name, the callback and the arguments of one request. -/
def LiveOk (b : Build) (s : AppLoaderState Thread) (i : ℕ) : Prop :=
  ∃ r ∈ s.requests, ∃ app x, r.target b = some (app, x) ∧
    (s.apps i).name = some app.name ∧ (s.apps i).pc.Runs s app x

structure Content (b : Build) (s : AppLoaderState Thread) : Prop where
  waiting : ∀ t rest, s.clients t = .check :: rest → ∃ r ∈ s.requests, s.clients t = r.ops b
  active : ∀ t, Active (s.clients t) → ActiveOk b s t
  live : ∀ i, (s.apps i).pc.Live → LiveOk b s i

theorem target_of_ops (h : o ∈ r.ops b) : ∃ app x, r.target b = some (app, x) := by
  rcases r with app | app | ⟨name, args⟩
  · exact ⟨app, none, rfl⟩
  · exact ⟨app, none, rfl⟩
  · rcases ops_start b name args with hnil | ⟨app, hfind, -⟩
    · rw [hnil] at h
      cases h
    · exact ⟨app, received true (b.argString args), by simp [StartRequest.target, hfind]⟩

theorem mem_ops (h : o ∈ r.ops b) (ht : r.target b = some (app, x)) :
    (∀ n, o = .setName n → n = app.name) ∧ (∀ c, o = .setCallback c → c = app.app) ∧
      (∀ y, o = .setArgs y → ∃ name args, r = .start name args ∧ y = b.argString args) ∧
      (o = .setContext → ∃ name args, r = .start name args) := by
  rcases r with a | a | ⟨name, args⟩
  · obtain ⟨rfl, rfl⟩ := Prod.mk.inj (Option.some.inj ht)
    simp only [StartRequest.ops, appLoaderCallback, List.mem_cons, List.not_mem_nil, or_false] at h
    rcases h with rfl | rfl | rfl | rfl | rfl | rfl | rfl | rfl <;> simp
  · obtain ⟨rfl, rfl⟩ := Prod.mk.inj (Option.some.inj ht)
    simp only [StartRequest.ops, appLoaderCallback, List.mem_cons, List.not_mem_nil, or_false] at h
    rcases h with rfl | rfl | rfl | rfl | rfl | rfl | rfl | rfl <;> simp
  · rcases ops_start b name args with hnil | ⟨a, hfind, hops⟩
    · rw [hnil] at h
      cases h
    · simp only [StartRequest.target, hfind, Option.map_some, Option.some.injEq, Prod.mk.injEq] at ht
      obtain ⟨rfl, rfl⟩ := ht
      rw [hops] at h
      simp only [appLoaderStart, List.mem_cons, List.not_mem_nil, or_false] at h
      rcases h with rfl | rfl | rfl | rfl | rfl | rfl | rfl | rfl | rfl <;> simp

theorem ArgsReady.frame (h : ArgsReady b s (o :: rest) r) (hargs : ∀ y, o ≠ .setArgs y)
    (hcontext : o ≠ .setContext) (ha : s'.args = s.args)
    (hc : s'.thread.context = s.thread.context) : ArgsReady b s' rest r := by
  cases r with
  | menu | cli => rwa [ArgsReady, ha, hc]
  | start name args =>
    rw [ArgsReady, ha, hc]
    refine ⟨fun hy => h.1 fun y hy' => ?_, fun hrest => h.2 fun hrest' => ?_⟩
    · rcases List.mem_cons.mp hy' with rfl | hmem
      · exact hargs y rfl
      · exact hy y hmem
    · rcases List.mem_cons.mp hrest' with rfl | hmem
      · exact hcontext rfl
      · exact hrest hmem

theorem Prepared.write (h : Prepared b s r app (o :: rest)) (ht : r.target b = some (app, x))
    (ho : o.Writes) (hp : s.perform b o = some s') : Prepared b s' r app rest := by
  have hmem : o ∈ r.ops b := h.suffix.subset List.mem_cons_self
  obtain ⟨hname, hcallback, hargs, hcontext⟩ := mem_ops hmem ht
  have hsuffix := (List.suffix_cons o rest).trans h.suffix
  obtain ⟨-, hn, hc, ha⟩ := h
  cases o with
  | insomniaEnter | setCurrentApp =>
    cases hp
    exact ⟨hsuffix, fun hr => hn (by simpa using hr), fun hr => hc (by simpa using hr),
      ha.frame (by simp) (by simp) rfl rfl⟩
  | setArgs y =>
    cases hp
    obtain ⟨name, args, rfl, rfl⟩ := hargs y rfl
    refine ⟨hsuffix, fun hr => hn (by simpa using hr), fun hr => hc (by simpa using hr),
      fun _ => rfl, fun hr => ha.2 (by simpa using hr)⟩
  | setName n =>
    obtain rfl := hname n rfl
    obtain rfl := furiAssert_eq_some hp
    exact ⟨hsuffix, fun _ => rfl, fun hr => hc (by simpa using hr),
      ha.frame (by simp) (by simp) rfl rfl⟩
  | setStackSize =>
    obtain rfl := furiAssert_eq_some hp
    exact ⟨hsuffix, fun hr => hn (by simpa using hr), fun hr => hc (by simpa using hr),
      ha.frame (by simp) (by simp) rfl rfl⟩
  | setContext =>
    obtain rfl := furiAssert_eq_some hp
    obtain ⟨name, args, rfl⟩ := hcontext rfl
    exact ⟨hsuffix, fun hr => hn (by simpa using hr), fun hr => hc (by simpa using hr),
      fun hr => ha.1 (by simpa using hr), fun _ => rfl⟩
  | setCallback c =>
    obtain rfl := hcallback c rfl
    obtain rfl := furiAssert_eq_some hp
    exact ⟨hsuffix, fun hr => hn (by simpa using hr), fun _ => rfl,
      ha.frame (by simp) (by simp) rfl rfl⟩
  | _ => exact ho.elim

theorem Prepared.congr (h : Prepared b s r app ops) (hname : s'.thread.name = s.thread.name)
    (hcallback : s'.thread.callback = s.thread.callback)
    (hcontext : s'.thread.context = s.thread.context) (hargs : s'.args = s.args) :
    Prepared b s' r app ops := by
  obtain ⟨hsuffix, hn, hc, ha⟩ := h
  refine ⟨hsuffix, hname ▸ hn, hcallback ▸ hc, ?_⟩
  cases r <;> simpa only [ArgsReady, hcontext, hargs] using ha

theorem Prepared.runs (h : Prepared b s r app [.threadNew]) (ht : r.target b = some (app, x)) :
    s.thread.name = some app.name ∧ s.thread.callback = some app.app ∧
      received s.thread.context s.args = x := by
  refine ⟨h.name (by simp), h.callback (by simp), ?_⟩
  have ha := h.args
  rcases r with a | a | ⟨name, args⟩
  · obtain ⟨-, rfl⟩ := Prod.mk.inj (Option.some.inj ht)
    exact ha
  · obtain ⟨-, rfl⟩ := Prod.mk.inj (Option.some.inj ht)
    exact ha
  · obtain ⟨a, -, hx⟩ := Option.map_eq_some_iff.mp ht
    obtain ⟨-, rfl⟩ := Prod.mk.inj hx
    rw [ha.1 (by simp), ha.2 (by simp)]

theorem prepared_pass (hops : .check :: rest = r.ops b) (ht : r.target b = some (app, x))
    (hargs : .setContext ∉ rest → received s.thread.context s.args = none) :
    Prepared b s r app rest := by
  have hsuffix : rest <:+ r.ops b := hops ▸ List.suffix_cons _ _
  rcases r with a | a | ⟨name, args⟩
  · obtain rfl := (List.cons.inj hops).2
    exact ⟨hsuffix, fun h => absurd (by simp) (h a.name),
      fun h => absurd (by simp) (h a.app), hargs (by simp)⟩
  · obtain rfl := (List.cons.inj hops).2
    exact ⟨hsuffix, fun h => absurd (by simp) (h a.name),
      fun h => absurd (by simp) (h a.app), hargs (by simp)⟩
  · rcases ops_start b name args with hnil | ⟨a, hfind, ha⟩
    · rw [hnil] at hops
      cases hops
    · obtain rfl := (List.cons.inj (hops.trans ha)).2
      exact ⟨hsuffix, fun h => absurd (by simp) (h a.name),
        fun h => absurd (by simp) (h a.app),
        fun h => absurd (by simp) (h (b.argString args)), fun h => absurd h (by simp)⟩

theorem not_active_of_app (hheld : Held s (some (.inr i))) (u : Thread) : ¬Active (s.clients u) := by
  intro hu
  cases (hheld.active u).mp hu

theorem not_live_of_request (hheld : Held s holder) (hold : holder = none ∨ holder = some (.inl t))
    (i : ℕ) : ¬(s.apps i).pc.Live := by
  intro hi
  rcases hold with rfl | rfl <;> cases (hheld.live i).mp hi

theorem live_update {P : ℕ → Prop} {name : Option String} {pc : AppPc} (hheld : Held s holder)
    (hold : ∀ j, holder = some (.inr j) → j = i)
    (happs : s'.apps = Function.update s.apps i ⟨name, pc⟩) (hi : pc.Live → P i) :
    ∀ j, (s'.apps j).pc.Live → P j := by
  intro j hj
  rw [happs] at hj
  by_cases hne : j = i
  · subst hne
    rw [Function.update_self] at hj
    exact hi hj
  · rw [Function.update_of_ne hne, hheld.live j] at hj
    exact absurd (hold j hj) hne

theorem Content.of_app {name : Option String} {pc : AppPc} (h : Content b s)
    (hheld : Held s (some (.inr i))) (hclients : s'.clients = s.clients)
    (happs : s'.apps = Function.update s.apps i ⟨name, pc⟩) (hrequests : s'.requests = s.requests)
    (hi : pc.Live → LiveOk b s' i) : Content b s' := by
  refine ⟨?_, ?_, live_update hheld ?_ happs hi⟩
  · rw [hclients, hrequests]
    exact h.waiting
  · intro u hu
    rw [hclients] at hu
    exact absurd hu (not_active_of_app hheld u)
  · rintro j hj
    exact (Sum.inr.inj (Option.some.inj hj)).symm

theorem Content.liveOk (h : Content b s) (hheld : Held s (some (.inr i))) : LiveOk b s i :=
  h.live i ((hheld.live i).mpr rfl)

/-- A step that leaves alone what is shared keeps a request past its check and an application. -/
theorem Content.frame (h : Content b s) (hthread : s'.thread = s.thread) (hargs : s'.args = s.args)
    (hrequests : s.requests ⊆ s'.requests)
    (hwaiting : ∀ t rest, s'.clients t = .check :: rest → ∃ r ∈ s'.requests, s'.clients t = r.ops b)
    (hclients : ∀ t, Active (s'.clients t) → s'.clients t = s.clients t)
    (happs : ∀ i, (s'.apps i).pc.Live → s'.apps i = s.apps i) : Content b s' := by
  refine ⟨hwaiting, fun t ht => ?_, fun i hi => ?_⟩
  · have hc := hclients t ht
    rcases h.active t (hc ▸ ht) with hfail | ⟨r, hr, app, x, htarget, hprep⟩
    · exact .inl (hc ▸ hfail)
    · refine .inr ⟨r, hrequests hr, app, x, htarget, ?_⟩
      rw [hc]
      exact hprep.congr (by rw [hthread]) (by rw [hthread]) (by rw [hthread]) hargs
  · have ha := happs i hi
    obtain ⟨r, hr, app, x, htarget, hname, hruns⟩ := h.live i (ha ▸ hi)
    refine ⟨r, hrequests hr, app, x, htarget, ha ▸ hname, ?_⟩
    rw [ha]
    cases hpc : (s.apps i).pc <;> simp only [hpc, AppPc.Runs, hthread, hargs] at hruns ⊢ <;>
      exact hruns

variable [DecidableEq Thread]

theorem content_init (level : ℕ) : Content b (appLoader b Thread level).init := by
  refine ⟨?_, ?_, ?_⟩
  · rintro t rest ⟨⟩
  · rintro t ⟨⟩
  · rintro i ⟨⟩

section Frame

theorem waiting_update (h : Content b s) (hclients : s'.clients = Function.update s.clients t ops)
    (hrequests : s.requests ⊆ s'.requests)
    (hops : ∀ rest, ops = .check :: rest → ∃ r ∈ s'.requests, ops = r.ops b) :
    ∀ u rest, s'.clients u = .check :: rest → ∃ r ∈ s'.requests, s'.clients u = r.ops b := by
  intro u rest hu
  rw [hclients] at hu ⊢
  by_cases hne : u = t
  · subst hne
    rw [Function.update_self] at hu ⊢
    exact hops rest hu
  · rw [Function.update_of_ne hne] at hu ⊢
    obtain ⟨r, hr, heq⟩ := h.waiting u rest hu
    exact ⟨r, hrequests hr, heq⟩

theorem active_update {P : Thread → Prop} (hheld : Held s holder)
    (hold : holder = none ∨ holder = some (.inl t))
    (hclients : s'.clients = Function.update s.clients t ops) (ht : Active ops → P t) :
    ∀ u, Active (s'.clients u) → P u := by
  intro u hu
  rw [hclients] at hu
  by_cases hne : u = t
  · subst hne
    rw [Function.update_self] at hu
    exact ht hu
  · rw [Function.update_of_ne hne, hheld.active u] at hu
    rcases hold with rfl | rfl
    · cases hu
    · exact absurd (Sum.inl.inj (Option.some.inj hu)).symm hne

end Frame

theorem Content.of_request (h : Content b s) (hheld : Held s holder)
    (hold : holder = none ∨ holder = some (.inl t))
    (hclients : s'.clients = Function.update s.clients t ops) (happs : s'.apps = s.apps)
    (hrequests : s.requests ⊆ s'.requests) (hops : ∀ rest, ops ≠ .check :: rest)
    (ht : Active ops → ActiveOk b s' t) : Content b s' := by
  refine ⟨waiting_update h hclients hrequests fun rest hr => absurd hr (hops rest),
    active_update hheld hold hclients ht, ?_⟩
  intro i hi
  rw [happs] at hi
  exact absurd hi (not_live_of_request hheld hold i)

theorem Content.pass (h : Content b s) (hheld : Held s none) (hok : Isolated s (.op t))
    (hc : s.clients t = .check :: rest) (hrest : Active rest) : Content b (s.setClient t rest) := by
  obtain ⟨-, hargs⟩ := hok rest hc hheld.state
  refine h.of_request hheld (.inl rfl) rfl rfl (List.Subset.refl _) ?_ fun _ => .inr ?_
  · rintro rest' rfl
    exact hrest rfl
  · obtain ⟨r, hr, hops⟩ := h.waiting t rest hc
    obtain ⟨app, x, ht⟩ := target_of_ops (b := b) (r := r) (hops ▸ hc ▸ List.mem_cons_self)
    have hp : Prepared b s r app rest := prepared_pass (hc.symm.trans hops) ht hargs
    refine ⟨r, hr, app, x, ht, ?_⟩
    have hself : (s.setClient t rest).clients t = rest := by simp [setClient]
    exact hself.symm ▸ hp.congr rfl rfl rfl rfl

theorem Content.write (h : Content b s) (hheld : Held s (some (.inl t)))
    (hc : s.clients t = o :: rest) (ho : o.Writes) (hrest : Active rest)
    (hp : s.perform b o = some s') : Content b (s'.setClient t rest) := by
  obtain ⟨-, hclients, happs, -, hrequests⟩ := perform_writes ho hp
  have hclients' : (s'.setClient t rest).clients = Function.update s.clients t rest := by
    simp [setClient, hclients]
  refine h.of_request hheld (.inr rfl) hclients' happs (hrequests ▸ List.Subset.refl _) ?_ fun _ => .inr ?_
  · rintro rest' rfl
    exact hrest rfl
  · rcases h.active t ((hheld.active t).mpr rfl) with hfail | ⟨r, hr, app, x, ht, hprep⟩
    · rw [hc] at hfail
      simp only [List.suffix_cons_iff, List.suffix_nil, List.cons.injEq, reduceCtorEq,
        or_false] at hfail
      rcases hfail with ⟨rfl, -⟩ | ⟨rfl, -⟩ <;> exact ho.elim
    · have hprep' := (hc ▸ hprep).write ht ho hp
      refine ⟨r, hrequests ▸ hr, app, x, ht, ?_⟩
      have hself : (s'.setClient t rest).clients t = rest := by simp [setClient]
      exact hself.symm ▸ hprep'.congr rfl rfl rfl rfl

theorem Content.start (h : Content b s) (hheld : Held s (some (.inl t)))
    (hc : s.clients t = [.threadStart, .threadNew]) :
    Content b ((s.setThread { s.thread with state := .starting }).setClient t [.threadNew]) := by
  refine h.of_request hheld (.inr rfl) rfl rfl (List.Subset.refl _) (by simp) fun _ => .inr ?_
  rcases h.active t ((hheld.active t).mpr rfl) with hfail | ⟨r, hr, app, x, ht, hprep⟩
  · rw [hc] at hfail
    simp [List.suffix_cons_iff] at hfail
  · refine ⟨r, hr, app, x, ht, ?_⟩
    rw [hc] at hprep
    obtain ⟨hsuffix, hn, hcall, ha⟩ := hprep
    have hprep' : Prepared b s r app [.threadNew] :=
      ⟨(List.suffix_cons _ _).trans hsuffix, fun hr => hn (by simp), fun hr => hcall (by simp),
        ha.frame (by simp) (by simp) rfl rfl⟩
    have hself : ((s.setThread { s.thread with state := .starting }).setClient t
        [.threadNew]).clients t = [.threadNew] := by simp [setClient]
    exact hself.symm ▸ hprep'.congr rfl rfl rfl rfl

theorem Content.new (h : Content b s) (hheld : Held s (some (.inl t)))
    (hc : s.clients t = [.threadNew]) :
    Content b ({ s with
      apps := Function.update s.apps s.created ⟨s.thread.name, .body⟩
      created := s.created + 1 }.setClient t []) := by
  refine ⟨waiting_update h rfl (List.Subset.refl _) (by simp),
    active_update hheld (.inr rfl) rfl (fun hnil => hnil.elim),
    live_update hheld (by simp) rfl fun _ => ?_⟩
  rcases h.active t ((hheld.active t).mpr rfl) with hfail | ⟨r, hr, app, x, ht, hprep⟩
  · rw [hc] at hfail
    simp [List.suffix_cons_iff] at hfail
  · obtain ⟨hname, hcallback, hargs⟩ := (hc ▸ hprep).runs ht
    refine ⟨r, hr, app, x, ht, ?_, ?_⟩
    · simpa [setClient] using hname
    · simpa [setClient, AppPc.Runs] using ⟨hcallback, hargs⟩

theorem Content.setClient (h : Content b s) (hc : ¬Active ops)
    (hthread : s'.thread = s.thread) (hargs : s'.args = s.args) (happs : s'.apps = s.apps)
    (hclients : s'.clients = Function.update s.clients t ops)
    (hrequests : s.requests ⊆ s'.requests)
    (hops : ∀ rest, ops = .check :: rest → ∃ r ∈ s'.requests, ops = r.ops b) : Content b s' := by
  refine h.frame hthread hargs hrequests (waiting_update h hclients hrequests hops) ?_
    fun i _ => by rw [happs]
  intro u hu
  rw [hclients] at hu ⊢
  by_cases hne : u = t
  · subst hne
    rw [Function.update_self] at hu
    exact absurd hu hc
  · rw [Function.update_of_ne hne]

theorem Content.next (h : Content b s) (hok : Isolated s l) (hm : Move b s l s') :
    Content b s' := by
  cases hm with
  | crash =>
    exact h.frame rfl rfl (List.Subset.refl _) h.waiting (fun _ _ => rfl) fun _ _ => rfl
  | request t r hc =>
    refine h.setClient (not_active_ops r) rfl rfl rfl rfl (List.subset_cons_self _ _) ?_
    exact fun _ _ => ⟨r, List.mem_cons_self, rfl⟩
  | refuse t hc => exact h.setClient id rfl rfl rfl rfl (List.Subset.refl _) (by simp)
  | pass t hc hheld hrest hstage => exact h.pass hheld hok hc hrest
  | write t hc ho hheld hrest hstage hp hstate => exact h.write hheld hc ho hrest hp
  | start t hc hheld => exact h.start hheld hc
  | new t hc hheld => exact h.new hheld hc
  | newFails t hc hheld | setStopped t hc hheld | failed t hc hheld =>
    refine h.of_request hheld (.inr rfl) rfl rfl (List.Subset.refl _) (by simp) fun _ => .inl ?_
    simp [AppLoaderState.setClient, List.suffix_cons_iff]
  | body i hpc hheld =>
    obtain ⟨r, hr, app, x, ht, hname, hruns⟩ := h.liveOk hheld
    refine h.of_app hheld rfl rfl rfl fun _ => ⟨r, hr, app, x, ht, ?_, ?_⟩
    · simpa [setApp, setThread] using hname
    · simpa [setApp, setThread, AppPc.Runs, hpc] using hruns
  | call i hpc hheld hc =>
    obtain ⟨r, hr, app, x, ht, hname, hruns⟩ := h.liveOk hheld
    refine h.of_app hheld rfl rfl rfl fun _ => ⟨r, hr, app, x, ht, ?_, ?_⟩
    · simpa [setApp] using hname
    · simpa [setApp, AppPc.Runs, hpc, hc] using hruns
  | exit i hpc hheld =>
    obtain ⟨r, hr, app, x, ht, hname, -⟩ := h.liveOk hheld
    refine h.of_app hheld rfl rfl rfl fun _ => ⟨r, hr, app, x, ht, ?_, ?_⟩
    · simpa [setApp] using hname
    · simp [setApp, AppPc.Runs]
  | stop i hpc hheld => exact h.of_app hheld rfl rfl rfl fun hi => hi.elim
  | exited i hpc =>
    refine h.frame rfl rfl (List.Subset.refl _) h.waiting (fun _ _ => rfl) fun j hj => ?_
    have hne : j ≠ i := by
      rintro rfl
      simp [setApp, AppPc.Live] at hj
    simp [setApp, insomniaExit, hne]
  | others enter =>
    obtain ⟨insomnia, heq⟩ := others_eq s enter
    rw [heq]
    exact h.frame rfl rfl (List.Subset.refl _) h.waiting (fun _ _ => rfl) fun _ _ => rfl

/-- In every run of isolated requests, at most one application runs, with the callback, the name and
the arguments of one request. -/
theorem app_loader_isolated (b : Build) (Thread : Type) [DecidableEq Thread] (level : ℕ)
    {s : AppLoaderState Thread} (hs : (appLoader b Thread level).ReachableWith Isolated s) :
    (∀ i j c d context context', (s.apps i).pc = .running c context →
      (s.apps j).pc = .running d context' → i = j) ∧
    ∀ i callback context, (s.apps i).pc = .running callback context →
      ∃ r ∈ s.requests, ∃ app, r.target b = some (app, received context s.args) ∧
        (s.apps i).name = some app.name ∧ callback = app.app := by
  have h : Shape b s ∧ Content b s := by
    refine hs.invariant (P := fun s => Shape b s ∧ Content b s)
      ⟨shape_init level, content_init level⟩ ?_
    rintro s l s' ⟨hshape, hcontent⟩ hok hstep
    have hm := hshape.move hok.alone hstep
    exact ⟨hshape.of_move hm, hcontent.next hok hm⟩
  obtain ⟨⟨-, ⟨holder, hheld⟩, -⟩, hcontent⟩ := h
  refine ⟨fun i j c d context context' hi hj => ?_, fun i callback context hi => ?_⟩
  · have hi' := (hheld.live i).mp (by rw [hi]; trivial)
    have hj' := (hheld.live j).mp (by rw [hj]; trivial)
    exact Sum.inr.inj (Option.some.inj (hi'.symm.trans hj'))
  · obtain ⟨r, hr, app, x, ht, hname, hruns⟩ := hcontent.live i (by rw [hi]; trivial)
    rw [hi] at hruns
    obtain ⟨hcallback, rfl⟩ := hruns
    exact ⟨r, hr, app, ht, hname, hcallback⟩

/-- A build with two applications, and arguments that need no trimming. -/
def plainBuild : Build := ⟨true, id, [⟨1, "irda", 1024⟩, ⟨2, "blink", 1024⟩]⟩

/-- Two threads. -/
local instance twoThreads : NeZero 2 := ⟨Nat.succ_ne_zero 1⟩

/-- One application is started with arguments and exits, then the other from the menu. -/
def staleRun : List (AppLoaderLabel (Fin 2)) :=
  AppLoaderLabel.request 0 (.start "irda" (some "remote")) :: List.replicate 9 (.op 0) ++
    [AppLoaderLabel.body 0, .body 0, .exit 0, .body 0, .body 0] ++
    AppLoaderLabel.request 1 (.menu ⟨2, "blink", 1024⟩) :: List.replicate 8 (.op 1) ++
    [AppLoaderLabel.body 1, .body 1]

/-- The state after the second start, in which the menu asked for no arguments. -/
theorem app_loader_stale_context :
    ∃ s, (appLoader plainBuild (Fin 2) 0).Reachable s ∧
      (s.apps 1).pc = .running 2 true ∧ received true s.args = some "remote" ∧
      ¬∃ r ∈ s.requests, ∃ app, r.target plainBuild = some (app, received true s.args) ∧
        (s.apps 1).name = some app.name ∧ 2 = app.app := by
  have hrun : ∃ s, (appLoader plainBuild (Fin 2) 0).exec
      (appLoader plainBuild (Fin 2) 0).init staleRun = some s ∧
      s.requests = [.menu ⟨2, "blink", 1024⟩, .start "irda" (some "remote")] ∧
      s.apps 1 = ⟨some "blink", .running 2 true⟩ ∧ s.args = "remote" := ⟨_, rfl, rfl, rfl, rfl⟩
  obtain ⟨s, hs, hrequests, happ, hargs⟩ := hrun
  refine ⟨s, Machine.exec_reachable .init hs, by rw [happ], by rw [hargs]; rfl, ?_⟩
  rw [hrequests, happ, hargs]
  rintro ⟨r, hr, app, ht, -, happ⟩
  simp only [List.mem_cons, List.not_mem_nil, or_false] at hr
  rcases hr with rfl | rfl
  · have hargs := (Prod.mk.inj (Option.some.inj ht)).2
    cases hargs
  · have htarget : StartRequest.target plainBuild (.start "irda" (some "remote")) =
        some (⟨1, "irda", 1024⟩, some "remote") := rfl
    obtain ⟨rfl, -⟩ := Prod.mk.inj (Option.some.inj (htarget.symm.trans ht))
    cases happ

instance {n : ℕ} (s : AppLoaderState (Fin n)) (l : AppLoaderLabel (Fin n)) :
    Decidable (Isolated s l) :=
  match l with
  | .op t => decidable_of_iff ((s.clients t).head? = some .check → s.thread.state = .stopped →
      (∀ u, ¬Active (s.clients u)) ∧
        (.setContext ∉ (s.clients t).tail → received s.thread.context s.args = none)) <| by
    constructor
    · intro h rest hc
      simpa [hc] using h
    · intro h hhead
      obtain ⟨rest, hc⟩ := List.head?_eq_some_iff.mp hhead
      simpa [hc] using h rest hc
  | .request _ _ | .newFails _ | .body _ | .exit _ | .others _ => inferInstanceAs (Decidable True)

def firstRun : List (AppLoaderLabel (Fin 2)) :=
  AppLoaderLabel.request 0 (.start "irda" (some "remote")) :: List.replicate 9 (.op 0) ++
    [AppLoaderLabel.body 0, .body 0]

theorem app_loader_isolated_first :
    ∃ s, (appLoader plainBuild (Fin 2) 0).execWith Isolated
        (appLoader plainBuild (Fin 2) 0).init firstRun = some s ∧
      (s.apps 0).pc = .running 1 true ∧
      ∃ r ∈ s.requests, ∃ app, r.target plainBuild = some (app, received true s.args) ∧
        (s.apps 0).name = some app.name ∧ 1 = app.app := by
  have hrun : ∃ s, (appLoader plainBuild (Fin 2) 0).execWith Isolated
      (appLoader plainBuild (Fin 2) 0).init firstRun = some s ∧
      (s.apps 0).pc = .running 1 true := ⟨_, rfl, rfl⟩
  obtain ⟨s, hs, hpc⟩ := hrun
  have hreach := Machine.execWith_reachableWith .init hs
  exact ⟨s, hs, hpc, (app_loader_isolated plainBuild (Fin 2) 0 hreach).2 0 1 true hpc⟩

end FlipperZero.AppLoader
