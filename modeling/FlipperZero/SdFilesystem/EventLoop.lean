import FlipperZero.SdFilesystem.Screen

/-! # Safety of the event loop

The rest of a running handler ends on a settled screen. A handler that can fail is the one of
`back` in the background alone; when `back` never comes there, no handler fails and the view
holder is allocated exactly when the state is not the one of the background.
-/

namespace FlipperZero.SdFilesystem

open Lib

variable {Client Buffer : Type}

namespace SdApp

variable {s t : SdApp Client Buffer} {c : Screen Buffer}

theorem choose_shows [DecidableEq Buffer] (h : s.Shows c) (data : FileSelectData Buffer)
    (line : FileLine) : (s.choose data line).Shows c :=
  h.congr rfl rfl rfl

theorem deliver_cases (ht : s.deliver = some t) :
    ∃ e, s.gui = some e ∧ t = { s with gui := none, eventQueue := s.eventQueue ++ [e] } := by
  unfold deliver at ht
  split at ht
  · next e he => exact ⟨e, he, (put_cases ht).2⟩
  · cases ht

section Exec

variable {o : AppOp Buffer}

def putEvents : AppOp Buffer → List (SdAppEvent Buffer)
  | .put e => [e]
  | _ => []

def putResults : AppOp Buffer → List (FileSelectResultEvent Buffer)
  | .putResult r => [r]
  | _ => []

/-- What an operation of a handler does besides what it shows. -/
structure Executes (s t : SdApp Client Buffer) (o : AppOp Buffer) : Prop where
  ops : t.ops = s.ops
  fault : t.fault = s.fault
  gui : t.gui = s.gui
  clients : t.clients = s.clients
  calls : t.calls = s.calls
  chosen : t.chosen = s.chosen
  returns : t.returns = s.returns
  eventQueue : t.eventQueue = s.eventQueue ++ putEvents o
  resultReceiver : t.resultReceiver = s.resultReceiver ++ putResults o
  memory : (∀ data, o ≠ .openFileSelect data) → t.memory = s.memory
  free : o = .freeViewHolder → s.gui = none

theorem editDialog_cases {left right : Bool} (h : s.editDialog left right = .ok t) :
    ∃ heap, t = { s with heap } := by
  unfold editDialog at h
  split at h
  · split at h
    · exact ⟨_, (Except.ok.inj h).symm⟩
    · cases h
  · cases h

theorem viewHolderEnabledSet_cases {enabled : Bool} (h : s.viewHolderEnabledSet enabled = .ok t) :
    ∃ heap, t = { s with heap } := by
  unfold viewHolderEnabledSet at h
  split at h
  · exact ⟨_, (Except.ok.inj h).symm⟩
  · cases h

theorem freeViewHolder_cases (h : s.freeViewHolder = .ok t) :
    ∃ heap viewHolder, t = { s with heap, viewHolder } := by
  unfold freeViewHolder at h
  split at h
  · exact ⟨_, _, (Except.ok.inj h).symm⟩
  · split at h
    · cases h
    · split at h
      · exact ⟨_, _, (Except.ok.inj h).symm⟩
      · split at h
        · cases h
        · exact ⟨_, _, (Except.ok.inj h).symm⟩

variable [DecidableEq Buffer]

theorem exec_executes (h : s.exec o = some (.ok t)) : Executes s t o := by
  cases o with
  | openDialog right state =>
    obtain rfl : s.openDialog right state = t := Except.ok.inj (Option.some.inj h)
    unfold openDialog
    split <;> constructor <;> simp [putEvents, putResults, allocViewHolder]
  | editDialog left right =>
    obtain ⟨heap, rfl⟩ := editDialog_cases (Option.some.inj h)
    constructor <;> simp [putEvents, putResults]
  | setState state =>
    obtain rfl : { s with sdAppState := state } = t := Except.ok.inj (Option.some.inj h)
    constructor <;> simp [putEvents, putResults]
  | openFileSelect data =>
    obtain rfl : s.openFileSelect data = t := Except.ok.inj (Option.some.inj h)
    unfold openFileSelect
    split <;> constructor <;> simp [putEvents, putResults, allocViewHolder]
  | viewHolderStart =>
    obtain ⟨heap, rfl⟩ := viewHolderEnabledSet_cases (Option.some.inj h)
    constructor <;> simp [putEvents, putResults]
  | viewHolderStop =>
    obtain ⟨heap, rfl⟩ := viewHolderEnabledSet_cases (Option.some.inj h)
    constructor <;> simp [putEvents, putResults]
  | freeViewHolder =>
    simp only [exec] at h
    split at h
    · cases h
    · next hgui =>
      obtain ⟨heap, viewHolder, rfl⟩ := freeViewHolder_cases (Option.some.inj h)
      have hgui : s.gui = none := by simpa using hgui
      constructor <;> simp [putEvents, putResults, hgui]
  | put e =>
    simp only [exec] at h
    split at h
    · obtain rfl := Except.ok.inj (Option.some.inj h)
      constructor <;> simp [putEvents, putResults]
    · cases h
  | putResult r =>
    simp only [exec] at h
    split at h
    · obtain rfl := Except.ok.inj (Option.some.inj h)
      constructor <;> simp [putEvents, putResults]
    · cases h

theorem Shows.op (h : s.Shows c) (ht : s.op = some t) (hfault : t.fault = none) :
    ∃ o ops c', s.ops = o :: ops ∧ c.exec o = some c' ∧ t.Shows c' ∧ t.ops = ops ∧
      Executes { s with ops } t o := by
  obtain ⟨o, ops, hops, hr | ⟨f, _, rfl⟩⟩ := op_cases ht
  · have hexec := exec_executes hr
    obtain ⟨c', hc', ht'⟩ := (h.congr (t := { s with ops }) rfl rfl rfl).exec hr
    exact ⟨o, ops, c', hops, hc', ht', hexec.ops, hexec⟩
  · cases hfault

theorem Shows.op_fault (h : s.Shows c) (ht : s.op = some t) (hfault : s.fault = none)
    (hrun : c.run s.ops ≠ none) : t.fault = none := by
  obtain ⟨o, ops, hops, hr | ⟨f, hr, _⟩⟩ := op_cases ht
  · exact (exec_executes hr).fault.trans hfault
  · have hnone : c.exec o = none := (h.congr (t := { s with ops }) rfl rfl rfl).exec hr
    rw [hops, Screen.run_cons, hnone] at hrun
    exact absurd rfl hrun

end Exec

section Others

variable [DecidableEq Client]

theorem fileSelect_cases {client : Client} {data : FileSelectData Buffer}
    (ht : s.fileSelect client data = some t) :
    s.clients client = .idle ∧
      t = { s with
        clients := Function.update s.clients client (.receiving { data with request := s.calls })
        calls := s.calls + 1
        eventQueue := s.eventQueue ++ [.fileSelect { data with request := s.calls }] } := by
  unfold SdApp.fileSelect at ht
  split at ht
  · next hidle => exact ⟨hidle, (put_cases ht).2⟩
  · cases ht

/-- The call as it is recorded when it takes its answer. -/
def answered (s : SdApp Client Buffer) (client : Client) (data : FileSelectData Buffer)
    (answer : FileSelectResultEvent Buffer) : Return Client Buffer :=
  ⟨client, data, answer, s.chosen data.request, data.result.map s.memory⟩

theorem receive_cases {client : Client} (ht : s.receive client = some t) :
    ∃ data answer results, s.clients client = .receiving data ∧
      s.resultReceiver = answer :: results ∧
      (answer.result = true ∧ t = { s with
          resultReceiver := results
          clients := Function.update s.clients client .idle
          returns := s.returns ++ [s.answered client data answer] } ∨
        answer.result = false ∧ t = { s with
          resultReceiver := results
          clients := Function.update s.clients client
            (.checking (s.answered client data answer)) }) := by
  unfold receive at ht
  split at ht
  · next data answer results hclient hresults =>
    refine ⟨data, answer, results, hclient, hresults, ?_⟩
    dsimp only at ht
    split at ht
    · next hanswer => exact .inl ⟨hanswer, (Option.some.inj ht).symm⟩
    · next hanswer => exact .inr ⟨Bool.not_eq_true _ ▸ hanswer, (Option.some.inj ht).symm⟩
  · cases ht

theorem checkError_cases {client : Client} (ht : s.checkError client = some t) :
    ∃ r, s.clients client = .checking r ∧ t = { s with
      clients := Function.update s.clients client .idle
      returns := s.returns ++ [r]
      eventQueue := s.eventQueue ++ [.checkError] } := by
  unfold SdApp.checkError at ht
  split at ht
  · next r hr => exact ⟨r, hr, (put_cases ht).2⟩
  · cases ht

variable [DecidableEq Buffer]

theorem step_post {e : SdAppEvent Buffer} (ht : s.step (.post e) = some t) :
    posted e = true ∧ t = { s with eventQueue := s.eventQueue ++ [e] } := by
  simp only [step] at ht
  split at ht
  · next he => exact ⟨he, (put_cases ht).2⟩
  · cases ht

theorem step_key {k : Key} (ht : s.step (.key k) = some t) :
    s.gui = none ∧ s.input k = some t := by
  simp only [step] at ht
  split at ht
  · cases ht
  · next hgui => exact ⟨by simpa using hgui, ht⟩

/-- The other threads do not touch what the application shows, nor the handler it is in. -/
theorem Shows.others {l : Label Client Buffer} (h : s.Shows c) (ht : s.step l = some t)
    (htake : ∀ card, l ≠ .take card) (hop : l ≠ .op) :
    t.Shows c ∧ t.ops = s.ops ∧ t.fault = s.fault := by
  cases l with
  | take card => exact absurd rfl (htake card)
  | op => exact absurd rfl hop
  | key k =>
    obtain ⟨_, _, rfl | ⟨rfl, _⟩ | ⟨data, line, _, _, rfl⟩⟩ := h.input (step_key ht).2
    · exact ⟨h.congr rfl rfl rfl, rfl, rfl⟩
    · exact ⟨h.congr rfl rfl rfl, rfl, rfl⟩
    · exact ⟨choose_shows h data line, rfl, rfl⟩
  | deliver =>
    obtain ⟨e, _, rfl⟩ := deliver_cases ht
    exact ⟨h.congr rfl rfl rfl, rfl, rfl⟩
  | post e =>
    obtain ⟨_, rfl⟩ := step_post ht
    exact ⟨h.congr rfl rfl rfl, rfl, rfl⟩
  | fileSelect client data =>
    obtain ⟨_, rfl⟩ := fileSelect_cases ht
    exact ⟨h.congr rfl rfl rfl, rfl, rfl⟩
  | receive client =>
    obtain ⟨data, answer, results, _, _, ⟨_, rfl⟩ | ⟨_, rfl⟩⟩ := receive_cases ht
    · exact ⟨h.congr rfl rfl rfl, rfl, rfl⟩
    · exact ⟨h.congr rfl rfl rfl, rfl, rfl⟩
  | checkError client =>
    obtain ⟨r, _, rfl⟩ := checkError_cases ht
    exact ⟨h.congr rfl rfl rfl, rfl, rfl⟩
  | mount status =>
    obtain rfl := Option.some.inj ht
    exact ⟨h.congr rfl rfl rfl, rfl, rfl⟩

end Others

/-- The shown screen, and a handler that leads from it to a settled one. -/
structure Sound (s : SdApp Client Buffer) : Prop where
  fault : s.fault = none
  shows_run : ∃ c c', s.Shows c ∧ c.run s.ops = some c' ∧ c'.Settled

theorem Sound.allocated_iff (h : s.Sound) (hops : s.ops = []) :
    s.viewHolder ≠ none ↔ s.sdAppState ≠ .background := by
  obtain ⟨c, c', hshows, hrun, hc'⟩ := h.shows_run
  rw [hops, Screen.run_nil] at hrun
  obtain rfl := Option.some.inj hrun
  rw [ne_eq, ne_eq, hshows.viewHolder_iff, hc'.view_eq_none_iff, hshows.state]

variable [DecidableEq Buffer]

theorem Sound.back_fault (h : s.Sound) {card : CardAnswer} (ht : s.take card = some t)
    (hback : s.eventQueue.head? = some .back) (hstate : s.sdAppState = .background) :
    ∃ t', t.op = some t' ∧ t'.fault = some .missing := by
  obtain ⟨e, events, hops, hevents, rfl⟩ := take_cases ht
  rw [hevents, List.head?_cons] at hback
  obtain rfl := Option.some.inj hback
  have hnone : s.viewHolder = none := by
    by_contra hsome
    exact (h.allocated_iff hops).mp hsome hstate
  refine ⟨{ s with eventQueue := events, ops := s.handle card .back, fault := some .missing }, ?_,
    rfl⟩
  simp only [op, handle, handleBack, hstate, appResetState, exec, viewHolderEnabledSet, holder,
    hnone]

variable [DecidableEq Client]

theorem next_step {l : Label Client Buffer} (ht : s.next l = some t) :
    s.fault = none ∧ s.step l = some t := by
  unfold next at ht
  split at ht
  · cases ht
  · next hfault => exact ⟨by simpa using hfault, ht⟩

/-- An event other than `back` may come at any time, and `back` only with a view. -/
def BackShown (s : SdApp Client Buffer) : Label Client Buffer → Prop
  | .take _ => s.eventQueue.head? = some .back → s.sdAppState ≠ .background
  | _ => True

instance (s : SdApp Client Buffer) (l : Label Client Buffer) : Decidable (s.BackShown l) :=
  match l with
  | .take _ => inferInstanceAs (Decidable (_ → _))
  | .op | .key _ | .deliver | .post _ | .fileSelect _ _ | .receive _ | .checkError _ | .mount _ =>
    inferInstanceAs (Decidable True)

theorem Sound.step {l : Label Client Buffer} (h : s.Sound) (hok : s.BackShown l)
    (ht : s.next l = some t) : t.Sound := by
  obtain ⟨hfault, ht⟩ := next_step ht
  obtain ⟨c, c', hshows, hrun, hc'⟩ := h.shows_run
  by_cases htake : ∃ card, l = .take card
  · obtain ⟨card, rfl⟩ := htake
    obtain ⟨e, events, hops, hevents, rfl⟩ := take_cases ht
    rw [hops, Screen.run_nil] at hrun
    obtain rfl := Option.some.inj hrun
    have hback : e = .back → s.sdAppState ≠ .background := by
      rintro rfl
      exact hok (by rw [hevents, List.head?_cons])
    obtain ⟨c₁, hc₁, hsettled⟩ := hshows.handle hc' card hback
    exact ⟨hfault, c, c₁, hshows.congr rfl rfl rfl, hc₁, hsettled⟩
  · by_cases hop : l = .op
    · subst hop
      have htfault := hshows.op_fault ht hfault (by simp [hrun])
      obtain ⟨o, ops, c₁, hops, hc₁, ht', htops, _⟩ := hshows.op ht htfault
      rw [hops, Screen.run_cons, hc₁] at hrun
      exact ⟨htfault, c₁, c', ht', htops ▸ hrun, hc'⟩
    · obtain ⟨hshows', hops, htfault⟩ :=
        hshows.others ht (fun card hl => htake ⟨card, hl⟩) hop
      exact ⟨htfault.trans hfault, c, c', hshows', hops ▸ hrun, hc'⟩

theorem sound_init (status : SDError) (memory : Buffer → List Char) :
    (sdFilesystemApp Client Buffer status memory).init.Sound :=
  ⟨rfl, ⟨none, .background⟩, _, .empty rfl rfl, rfl, rfl⟩

end SdApp

/-- In every run in which no `back` is taken in the background, no handler meets a fault, and
the view holder is allocated exactly outside the background whenever the loop waits. The other
way round, the handler of a `back` that is taken in the background meets one. -/
theorem event_loop_safety [DecidableEq Client] [DecidableEq Buffer] {status : SDError}
    {memory : Buffer → List Char} {s : SdApp Client Buffer}
    (h : (sdFilesystemApp Client Buffer status memory).ReachableWith SdApp.BackShown s) :
    s.fault = none ∧
      (s.ops = [] → (s.viewHolder ≠ none ↔ s.sdAppState ≠ .background)) ∧
      ∀ card t, s.take card = some t → ¬s.BackShown (.take card) →
        ∃ t', t.op = some t' ∧ t'.fault = some .missing := by
  have hs : s.Sound :=
    h.invariant (SdApp.sound_init status memory) fun _ _ _ h hok ht => h.step hok ht
  refine ⟨hs.fault, hs.allocated_iff, ?_⟩
  intro card t ht hback
  obtain ⟨hhead, hstate⟩ := Classical.not_imp.mp hback
  exact hs.back_fault ht hhead (Classical.not_not.mp hstate)

section Runs

/-- The menu shows the state of the card; `presses` times `back` before the loop goes on. -/
def infoRun (presses : ℕ) : List (SdApp.Label Unit Unit) :=
  let card : SdApp.CardAnswer := ⟨fun _ => .ok, true, true⟩
  [SdApp.Label.post .info, .take card, .op] ++
    (List.replicate presses [SdApp.Label.key .back, .deliver]).flatten ++
    [SdApp.Label.take card, .op, .op, .op]

def infoApp : Machine (SdApp Unit Unit) (SdApp.Label Unit Unit) :=
  sdFilesystemApp Unit Unit .ok fun _ => []

/-- The user closes the dialog, and the loop waits in the background again. -/
theorem event_loop_safety_info :
    ∃ s, infoApp.execWith SdApp.BackShown infoApp.init (infoRun 1) = some s ∧ s.ops = [] ∧
      (s.viewHolder ≠ none ↔ s.sdAppState ≠ .background) := by
  have hrun : ∃ s, infoApp.execWith SdApp.BackShown infoApp.init (infoRun 1) = some s ∧
      s.ops = [] := ⟨_, rfl, rfl⟩
  obtain ⟨s, hs, hops⟩ := hrun
  have hreachable := Machine.execWith_reachableWith .init hs
  exact ⟨s, hs, hops, (event_loop_safety hreachable).2.1 hops⟩

/-- Two presses before the first is handled: the second is handled in the background. -/
theorem not_event_loop_safety :
    ¬∀ s, infoApp.Reachable s →
      s.fault = none ∧ (s.ops = [] → (s.viewHolder ≠ none ↔ s.sdAppState ≠ .background)) := by
  have hrun : ∃ s, infoApp.exec infoApp.init
      (infoRun 2 ++ [SdApp.Label.take ⟨fun _ => .ok, true, true⟩, .op]) = some s ∧ s.fault = some .missing := ⟨_, rfl, rfl⟩
  obtain ⟨s, hs, hfault⟩ := hrun
  intro h
  exact nomatch hfault.symm.trans (h s (Machine.exec_reachable .init hs)).1

end Runs

end FlipperZero.SdFilesystem
