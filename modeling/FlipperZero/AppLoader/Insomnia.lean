import FlipperZero.AppLoader.Shape

/-! # The insomnia counter

The menu and the CLI enter insomnia before they start an application, and its end leaves
insomnia. `app_loader_start` enters none: each application it starts takes one from the
counter.
-/

namespace FlipperZero.AppLoader

open Lib AppLoaderState

variable {b : Build} {Thread : Type} {s s' : AppLoaderState Thread}
  {t u : Thread} {l : AppLoaderLabel Thread} {o : Op} {ops rest : List Op} {r : StartRequest}
  {i j level : ℕ} {holder : Option (Thread ⊕ ℕ)}

/-- Only requests that enter insomnia pass their checks, while no other request is past its own
and no application that ended has still to leave insomnia; nobody else uses the counter. -/
def Counted (s : AppLoaderState Thread) : AppLoaderLabel Thread → Prop
  | .op t => ∀ rest, s.clients t = .check :: rest → s.thread.state = .stopped →
      (∀ u, ¬Active (s.clients u)) ∧ .insomniaEnter ∈ rest ∧
        ∀ i < s.created, (s.apps i).pc ≠ .stateCallback
  | .others _ => False
  | _ => True

theorem Counted.alone (h : Counted s l) : Alone s l := by
  cases l with
  | op t =>
    rintro ⟨rest, hc⟩ hs
    exact (h rest hc hs).1
  | _ => trivial

/-- An application thread that has not left insomnia. -/
def AppPc.Awake (pc : AppPc) : Prop := pc.Live ∨ pc = .stateCallback

/-- The share of a request past its check in the counter. -/
def entered (ops : List Op) : ℕ := if .insomniaEnter ∈ ops then 0 else 1

structure Balance (level : ℕ) (s : AppLoaderState Thread) : Prop where
  request : ∀ t, Active (s.clients t) → s.insomnia = level + entered (s.clients t)
  app : ∀ i, (s.apps i).pc.Awake → s.insomnia = level + 1
  idle : (∀ t, ¬Active (s.clients t)) → (∀ i, ¬(s.apps i).pc.Awake) → s.insomnia = level
  ends : ∀ i, (s.apps i).pc = .stateCallback →
    (∀ t, ¬Active (s.clients t)) ∧ ∀ j, (s.apps j).pc.Awake → j = i

theorem Tail.entered (h : Tail b r (.insomniaEnter :: rest)) : entered rest = 1 := by
  have hcallback : ∀ app, .insomniaEnter :: rest <:+ appLoaderCallback app →
      .insomniaEnter ∉ rest := by
    intro app h
    simp only [appLoaderCallback, List.suffix_cons_iff, List.suffix_nil, List.cons.injEq,
      reduceCtorEq, false_and, true_and, or_false, false_or] at h
    simp [h]
  have hmem : .insomniaEnter ∉ rest := by
    rcases h with h | h
    · rcases r with app | app | ⟨name, args⟩
      · exact hcallback app h
      · exact hcallback app h
      · rcases ops_start b name args with hnil | ⟨app, -, hops⟩
        · rw [hnil, List.suffix_nil] at h
          cases h
        · rw [hops] at h
          simp [appLoaderStart, List.suffix_cons_iff] at h
    · simp [List.suffix_cons_iff] at h
  exact if_neg hmem

theorem Balance.not_ending (h : Balance level s) (hheld : Held s holder) (hold : holder ≠ none)
    (i : ℕ) : (s.apps i).pc ≠ .stateCallback := by
  intro hi
  obtain ⟨hactive, hawake⟩ := h.ends i hi
  rcases holder with _ | t | j
  · exact hold rfl
  · exact hactive t ((hheld.active t).mpr rfl)
  · have hj := (hheld.live j).mpr rfl
    obtain rfl := hawake j (.inl hj)
    rw [hi] at hj
    exact hj

/-- After a step of a request past its check, the counter has what this request entered. -/
theorem Balance.of_request (hheld : Held s' (some (.inl t)))
    (hends : ∀ i, (s'.apps i).pc ≠ .stateCallback)
    (hcount : s'.insomnia = level + entered (s'.clients t)) : Balance level s' := by
  have hawake : ∀ i, ¬(s'.apps i).pc.Awake := by
    rintro i (hi | hi)
    · cases (hheld.live i).mp hi
    · exact hends i hi
  refine ⟨fun u hu => ?_, fun i hi => absurd hi (hawake i),
    fun hidle => absurd ((hheld.active t).mpr rfl) (hidle t), fun i hi => absurd hi (hends i)⟩
  obtain rfl : t = u := Sum.inl.inj (Option.some.inj ((hheld.active u).mp hu))
  exact hcount

/-- After a step of the application that runs, the counter has what its request entered. -/
theorem Balance.of_app (hheld : Held s' (some (.inr i)))
    (hends : ∀ i, (s'.apps i).pc ≠ .stateCallback) (hcount : s'.insomnia = level + 1) :
    Balance level s' := by
  refine ⟨fun u hu => ?_, fun _ _ => hcount, fun _ hawake => ?_, fun i hi => absurd hi (hends i)⟩
  · cases (hheld.active u).mp hu
  · exact absurd (.inl ((hheld.live i).mpr rfl)) (hawake i)

theorem Balance.frame (h : Balance level s) (hcount : s'.insomnia = s.insomnia)
    (hclients : ∀ t, Active (s'.clients t) ↔ Active (s.clients t))
    (hsame : ∀ t, Active (s.clients t) → s'.clients t = s.clients t) (happs : s'.apps = s.apps) :
    Balance level s' := by
  refine ⟨fun t ht => ?_, ?_, fun hidle => ?_, ?_⟩
  · have ht' := (hclients t).mp ht
    rw [hcount, hsame t ht']
    exact h.request t ht'
  · rw [hcount, happs]
    exact h.app
  · rw [hcount, happs]
    exact h.idle fun t ht => hidle t ((hclients t).mpr ht)
  · rw [happs]
    intro i hi
    obtain ⟨hactive, hawake⟩ := h.ends i hi
    exact ⟨fun t ht => hactive t ((hclients t).mp ht), hawake⟩

theorem Balance.later (h : Balance level s) (hheld : Held s (some (.inl t)))
    (hheld' : Held s' (some (.inl t))) (happs : s'.apps = s.apps)
    (hcount : s'.insomnia = s.insomnia) (he : entered (s'.clients t) = entered (s.clients t)) :
    Balance level s' := by
  refine .of_request hheld' (fun i => ?_) ?_
  · rw [happs]
    exact h.not_ending hheld (by simp) i
  · rw [hcount, he]
    exact h.request t ((hheld.active t).mpr rfl)

theorem Balance.runs {name : Option String} {pc : AppPc} (h : Balance level s)
    (hheld : Held s (some (.inr i))) (hheld' : Held s' (some (.inr i)))
    (happs : s'.apps = Function.update s.apps i ⟨name, pc⟩) (hpc : pc ≠ .stateCallback)
    (hcount : s'.insomnia = s.insomnia) : Balance level s' := by
  refine .of_app hheld' (fun j => ?_) ?_
  · rw [happs]
    by_cases hne : j = i
    · subst hne
      rw [Function.update_self]
      exact hpc
    · rw [Function.update_of_ne hne]
      exact h.not_ending hheld (by simp) j
  · rw [hcount]
    exact h.app i (.inl ((hheld.live i).mpr rfl))

theorem insomniaExit_insomnia (h : s.insomnia = level + 1) : s.insomniaExit.insomnia = level := by
  rw [AppLoaderState.insomniaExit, h]
  rfl

theorem Balance.stop (h : Balance level s) (hheld : Held s (some (.inr i)))
    (hpc : (s.apps i).pc = .returned) :
    Balance level ((s.setThread { s.thread with state := .stopped }).setApp i .stateCallback) := by
  have hactive : ∀ t, ¬Active (s.clients t) := by
    intro t ht
    cases (hheld.active t).mp ht
  have hawake : ∀ j, ((s.setThread { s.thread with state := .stopped }).setApp i
      .stateCallback).apps j |>.pc.Awake → j = i := by
    intro j hj
    by_contra hne
    have happ : ((s.setThread { s.thread with state := .stopped }).setApp i .stateCallback).apps j =
        s.apps j := by simp [setApp, setThread, hne]
    rw [happ] at hj
    rcases hj with hj | hj
    · exact hne (Sum.inr.inj (Option.some.inj ((hheld.live j).mp hj))).symm
    · exact h.not_ending hheld (by simp) j hj
  have hcount := h.app i (.inl ((hheld.live i).mpr rfl))
  refine ⟨fun t ht => absurd ht (hactive t), fun _ _ => hcount, fun _ hidle => ?_,
    fun j hj => ?_⟩
  · exact absurd (.inr (by simp [setApp])) (hidle i)
  · obtain rfl := hawake j (.inr hj)
    exact ⟨hactive, hawake⟩

theorem Balance.exited (h : Balance level s) (hpc : (s.apps i).pc = .stateCallback) :
    Balance level (s.insomniaExit.setApp i .exited) := by
  obtain ⟨hactive, hends⟩ := h.ends i hpc
  have hcount := h.app i (.inr hpc)
  have hawake : ∀ j, ¬((s.insomniaExit.setApp i .exited).apps j).pc.Awake := by
    intro j hj
    by_cases hne : j = i
    · subst hne
      rcases hj with hj | hj <;> simp [setApp, AppPc.Live] at hj
    · have happ : (s.insomniaExit.setApp i .exited).apps j = s.apps j := by
        simp [setApp, AppLoaderState.insomniaExit, hne]
      rw [happ] at hj
      exact hne (hends j hj)
  exact ⟨fun t ht => absurd ht (hactive t), fun j hj => absurd hj (hawake j),
    fun _ _ => insomniaExit_insomnia hcount, fun j hj => absurd (.inr hj) (hawake j)⟩

variable [DecidableEq Thread]

theorem balance_init (level : ℕ) : Balance level (appLoader b Thread level).init := by
  refine ⟨?_, ?_, fun _ _ => rfl, ?_⟩
  · rintro t ⟨⟩
  · rintro i (hi | hi)
    · exact False.elim hi
    · cases hi
  · rintro i ⟨⟩

theorem Balance.setClient (h : Balance level s) (ht : ¬Active (s.clients t)) (hops : ¬Active ops)
    (hcount : s'.insomnia = s.insomnia) (hclients : s'.clients = Function.update s.clients t ops)
    (happs : s'.apps = s.apps) : Balance level s' := by
  refine h.frame hcount (fun u => ?_) (fun u hu => ?_) happs <;> rw [hclients]
  · by_cases hne : u = t
    · subst hne
      simp [ht, hops]
    · rw [Function.update_of_ne hne]
  · have hne : u ≠ t := by
      rintro rfl
      exact ht hu
    rw [Function.update_of_ne hne]

theorem Balance.write (h : Balance level s) (hlevel : level + 1 < 2 ^ 32)
    (hheld : Held s (some (.inl t))) (hheld' : Held (s'.setClient t rest) (some (.inl t)))
    (htail : Tail b r (s.clients t)) (hc : s.clients t = o :: rest) (ho : o.Writes)
    (hp : s.perform b o = some s') : Balance level (s'.setClient t rest) := by
  obtain ⟨-, -, happs, -, -⟩ := perform_writes ho hp
  have hcount := h.request t ((hheld.active t).mpr rfl)
  rw [hc] at hcount htail
  have hself : (s'.setClient t rest).clients t = rest := by simp [AppLoaderState.setClient]
  refine .of_request hheld' (fun i => ?_) ?_
  · have hi := h.not_ending hheld (by simp) i
    rw [← happs] at hi
    exact hi
  · rw [hself]
    change s'.insomnia = _
    cases o with
    | insomniaEnter =>
      cases hp
      have hmod : (level + 1) % 2 ^ 32 = level + 1 := Nat.mod_eq_of_lt hlevel
      rw [htail.entered, AppLoaderState.insomniaEnter, hcount]
      exact hmod
    | setCurrentApp | setArgs =>
      cases hp
      simpa [entered] using hcount
    | setName | setStackSize | setContext | setCallback =>
      obtain rfl := furiAssert_eq_some hp
      simpa [entered, setThread] using hcount
    | _ => exact ho.elim

theorem Balance.failed (h : Balance level s) (hheld : Held s (some (.inl t)))
    (hc : s.clients t = [.stateCallback]) : Balance level (s.insomniaExit.setClient t []) := by
  have hcount := h.request t ((hheld.active t).mpr rfl)
  rw [hc] at hcount
  have hstate : s.thread.state = .stopped := hheld.state.trans (by rw [heldState, hc]; rfl)
  have hheld' : Held (s.insomniaExit.setClient t []) none := hheld.leave rfl rfl id hstate
  have hawake : ∀ i, ¬(s.apps i).pc.Awake := by
    rintro i (hi | hi)
    · cases (hheld.live i).mp hi
    · exact h.not_ending hheld (by simp) i hi
  refine ⟨fun u hu => ?_, fun i hi => absurd hi (hawake i),
    fun _ _ => insomniaExit_insomnia hcount, fun i hi => absurd (.inr hi) (hawake i)⟩
  cases (hheld'.active u).mp hu

theorem Balance.next (h : Balance level s) (hlevel : level + 1 < 2 ^ 32) (hshape : Shape b s)
    (hok : Counted s l) (hm : Move b s l s') : Balance level s' := by
  obtain ⟨holder', hheld'⟩ := (hshape.of_move hm).held
  cases hm with
  | crash => exact ⟨h.request, h.app, h.idle, h.ends⟩
  | request t r hc =>
    exact h.setClient (by rw [hc]; exact id) (not_active_ops r) rfl rfl rfl
  | refuse t hc => exact h.setClient (by rw [hc]; exact fun hne => hne rfl) id rfl rfl rfl
  | @pass t rest hc hheld hrest hstage =>
    obtain ⟨hactive, hmem, hending⟩ := hok rest hc hheld.state
    have hends : ∀ i, (s.apps i).pc ≠ .stateCallback := by
      intro i
      rcases Nat.lt_or_ge i s.created with hi | hi
      · exact hending i hi
      · rw [hshape.created i hi]
        simp
    have hself : (s.setClient t rest).clients t = rest := by simp [AppLoaderState.setClient]
    refine .of_request (t := t) (hheld'.of_active (by rwa [hself])) hends ?_
    rw [hself, entered, if_pos hmem]
    refine h.idle hactive ?_
    rintro i (hi | hi)
    · cases (hheld.live i).mp hi
    · exact hends i hi
  | write t hc ho hheld hrest hstage hp hstate =>
    obtain ⟨r, htail⟩ := hshape.tail t
    refine h.write hlevel hheld (hheld'.of_active ?_) htail hc ho hp
    simpa [AppLoaderState.setClient] using hrest
  | start t hc hheld =>
    refine h.later (t := t) hheld (hheld'.of_active ?_) rfl rfl ?_
    · simp [AppLoaderState.setClient, Active]
    · simp [AppLoaderState.setClient, hc, entered]
  | new t hc hheld =>
    have hcount := h.request t ((hheld.active t).mpr rfl)
    rw [hc] at hcount
    refine .of_app (i := s.created) (hheld'.of_live ?_) (fun j => ?_) hcount
    · simp [AppLoaderState.setClient, AppPc.Live]
    · by_cases hne : j = s.created
      · simp [AppLoaderState.setClient, hne]
      · simpa [AppLoaderState.setClient, hne] using h.not_ending hheld (by simp) j
  | newFails t hc hheld =>
    refine h.later (t := t) hheld (hheld'.of_active ?_) rfl rfl ?_
    · simp [AppLoaderState.setClient, Active]
    · simp [AppLoaderState.setClient, hc, entered]
  | setStopped t hc hheld =>
    refine h.later (t := t) hheld (hheld'.of_active ?_) rfl rfl ?_
    · simp [AppLoaderState.setClient, Active]
    · simp [AppLoaderState.setClient, hc, entered]
  | failed t hc hheld => exact h.failed hheld hc
  | body i hpc hheld =>
    exact h.runs hheld (hheld'.of_live (by simp [setApp, AppPc.Live])) rfl (by simp) rfl
  | call i hpc hheld hc =>
    exact h.runs hheld (hheld'.of_live (by simp [setApp, AppPc.Live])) rfl (by simp) rfl
  | exit i hpc hheld =>
    exact h.runs hheld (hheld'.of_live (by simp [setApp, AppPc.Live])) rfl (by simp) rfl
  | stop i hpc hheld => exact h.stop hheld hpc
  | exited i hpc => exact h.exited hpc
  | others => exact hok.elim

/-- In every run in which only requests that enter insomnia start an application, one at a time, and
nobody else uses the counter, it is one above its level while an application runs, at its level when none does, and
never decreased at zero. -/
theorem app_loader_insomnia_balanced (b : Build) (Thread : Type) [DecidableEq Thread] (level : ℕ)
    (hlevel : level + 1 < 2 ^ 32) {s : AppLoaderState Thread}
    (hs : (appLoader b Thread level).ReachableWith Counted s) :
    (∀ i callback context, (s.apps i).pc = .running callback context →
      s.insomnia = level + 1) ∧
    ((∀ t, ¬Active (s.clients t)) → (∀ i, ¬(s.apps i).pc.Awake) → s.insomnia = level) ∧
    (∀ t, s.clients t = [.stateCallback] → s.insomnia ≠ 0) ∧
    ∀ i, (s.apps i).pc = .stateCallback → s.insomnia ≠ 0 := by
  have h : Shape b s ∧ Balance level s := by
    refine hs.invariant (P := fun s => Shape b s ∧ Balance level s)
      ⟨shape_init level, balance_init level⟩ ?_
    rintro s l s' ⟨hshape, hbalance⟩ hok hstep
    have hm := hshape.move hok.alone hstep
    exact ⟨hshape.of_move hm, hbalance.next hlevel hshape hok hm⟩
  obtain ⟨-, hbalance⟩ := h
  refine ⟨fun i callback context hi => ?_, hbalance.idle, fun t ht => ?_, fun i hi => ?_⟩
  · exact hbalance.app i (.inl (by rw [hi]; trivial))
  · have hcount := hbalance.request t (by simp [ht, Active])
    rw [hcount, ht]
    exact Nat.succ_ne_zero level
  · rw [hbalance.app i (.inr hi)]
    exact Nat.succ_ne_zero level

instance {n : ℕ} (s : AppLoaderState (Fin n)) (l : AppLoaderLabel (Fin n)) :
    Decidable (Counted s l) :=
  match l with
  | .op t => decidable_of_iff ((s.clients t).head? = some .check → s.thread.state = .stopped →
      (∀ u, ¬Active (s.clients u)) ∧ .insomniaEnter ∈ (s.clients t).tail ∧
        ∀ i < s.created, (s.apps i).pc ≠ .stateCallback) <| by
    constructor
    · intro h rest hc
      simpa [hc] using h
    · intro h hhead
      obtain ⟨rest, hc⟩ := List.head?_eq_some_iff.mp hhead
      simpa [hc] using h rest hc
  | .others _ => inferInstanceAs (Decidable False)
  | .request _ _ | .newFails _ | .body _ | .exit _ => inferInstanceAs (Decidable True)

def singleBuild : Build := ⟨true, id, [⟨1, "irda", 1024⟩]⟩

def menuRun : List (AppLoaderLabel (Fin 2)) :=
  AppLoaderLabel.request 0 (.menu ⟨1, "irda", 1024⟩) :: List.replicate 8 (.op 0) ++
    [AppLoaderLabel.body 0, .body 0]

theorem app_loader_insomnia_balanced_menu :
    ∃ s, (appLoader singleBuild (Fin 2) 0).execWith Counted
        (appLoader singleBuild (Fin 2) 0).init menuRun = some s ∧
      (s.apps 0).pc = .running 1 false ∧ s.insomnia = 0 + 1 := by
  have hrun : ∃ s, (appLoader singleBuild (Fin 2) 0).execWith Counted
      (appLoader singleBuild (Fin 2) 0).init menuRun = some s ∧
      (s.apps 0).pc = .running 1 false := ⟨_, rfl, rfl⟩
  obtain ⟨s, hs, hpc⟩ := hrun
  have hreach := Machine.execWith_reachableWith .init hs
  exact ⟨s, hs, hpc,
    (app_loader_insomnia_balanced singleBuild (Fin 2) 0 (by decide) hreach).1 0 1 false hpc⟩

/-- An application is started by `app_loader_start` and exits. -/
def archiveRun : List (AppLoaderLabel (Fin 2)) :=
  AppLoaderLabel.request 0 (.start "irda" (some "remote")) :: List.replicate 9 (.op 0) ++
    [AppLoaderLabel.body 0, .body 0, .exit 0, .body 0, .body 0]

theorem app_loader_insomnia_wraps :
    ∃ s, (appLoader singleBuild (Fin 2) 0).Reachable s ∧ (∀ t, s.clients t = []) ∧
      s.created = 1 ∧ (s.apps 0).pc = .exited ∧ s.insomnia = 2 ^ 32 - 1 := by
  have hrun : ∃ s, (appLoader singleBuild (Fin 2) 0).exec (appLoader singleBuild (Fin 2) 0).init
      archiveRun = some s ∧ (∀ t, s.clients t = []) ∧ s.created = 1 ∧
      (s.apps 0).pc = .exited ∧ s.insomnia = 2 ^ 32 - 1 :=
    ⟨_, rfl, by decide, rfl, rfl, rfl⟩
  obtain ⟨s, hs, h⟩ := hrun
  exact ⟨s, Machine.exec_reachable .init hs, h⟩

end FlipperZero.AppLoader
