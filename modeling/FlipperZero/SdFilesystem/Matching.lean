import FlipperZero.SdFilesystem.Requests
import Mathlib.Data.Fintype.Basic

/-! # Matching of file select calls and results

With one call at a time, and no `ok` of a view posted while a request waits in the event queue,
every call gets the result of its own request, and `true` only with the name that the user
chose in its buffer.
-/

namespace FlipperZero.SdFilesystem

open Lib

variable {Client Buffer : Type}

/-- The call has the result of its own request, and `true` comes with the name that the user
chose for it, as far as the buffer has room. -/
def Return.Matches (r : Return Client Buffer) : Prop :=
  r.answer.request = some r.data ∧
    (r.answer.result = true → ∃ filename, r.chosen = some filename ∧
      (r.data.resultSize ≠ 0 →
        r.buffer = r.data.result.map fun _ => strlcpy filename r.data.resultSize.toNat))

/-- No `ok` stands behind a request. -/
def OkFirst : List (SdAppEvent Buffer) → Prop
  | [] => True
  | .fileSelect _ :: events => .ok ∉ events ∧ OkFirst events
  | _ :: events => OkFirst events

section OkFirst

variable {e : SdAppEvent Buffer} {events : List (SdAppEvent Buffer)}

theorem OkFirst.tail (h : OkFirst (e :: events)) : OkFirst events := by
  cases e with
  | fileSelect data => exact h.2
  | _ => exact h

theorem OkFirst.concat (h : OkFirst events) (hok : e = .ok → queued events = []) :
    OkFirst (events ++ [e]) := by
  induction events with
  | nil => cases e <;> simp [OkFirst]
  | cons e' events ih =>
    cases e' with
    | fileSelect data =>
      refine ⟨?_, ih h.2 fun he => nomatch hok he⟩
      intro hmem
      rcases List.mem_append.mp hmem with hmem | hmem
      · exact h.1 hmem
      · exact nomatch hok (List.mem_singleton.mp hmem).symm
    | _ => exact ih h hok

end OkFirst

def ClientState.waits : ClientState Client Buffer → Bool
  | .receiving _ => true
  | _ => false

namespace SdApp

/-- The user has chosen a file for the request, and its name is in the buffer. -/
def Chosen (s : SdApp Client Buffer) (data : FileSelectData Buffer) : Prop :=
  ∃ filename, s.chosen data.request = some filename ∧
    ∀ b, data.result = some b → data.resultSize ≠ 0 →
      s.memory b = strlcpy filename data.resultSize.toNat

/-- A file select view that is about to be opened is the one of the waiting call. -/
structure Opening (s : SdApp Client Buffer) (c : Screen Buffer)
    (call : Option (Client × FileSelectData Buffer)) (data : FileSelectData Buffer)
    (ops : List (AppOp Buffer)) : Prop where
  call : ∃ client, call = some (client, data)
  view : c.view = none
  ok : .ok ∉ s.eventQueue
  receiver : s.resultReceiver = []
  results : ∀ r ∈ opResults ops, r.result = false

/-- What holds with at most one call at a time; the call is the one that waits for a result. -/
structure Matching (s : SdApp Client Buffer) (c : Screen Buffer)
    (call : Option (Client × FileSelectData Buffer)) : Prop where
  shows : s.Shows c
  settled : (c.after s.ops).Settled
  tokens : s.tokens c = ((call.map fun p => some p.2).toList : Multiset _)
  clients : ∀ client data, s.clients client = .receiving data ↔ call = some (client, data)
  returned : ∀ r ∈ s.returns, r.Matches
  checking : ∀ client r, s.clients client = .checking r → r.Matches
  okFirst : OkFirst s.eventQueue
  gui : ∀ e, s.gui = some e → (e = .ok ∨ e = .back) ∧ c.view ≠ none
  opening : ∀ data ops, s.ops = .openFileSelect data :: ops → s.Opening c call data ops
  later : ∀ data, .openFileSelect data ∉ s.ops.tail
  posts : ∀ e, .put e ∈ s.ops → e = .back
  current : ∀ data client d, c.shown = some data → call = some (client, d) →
    data = d ∨ d ∈ queued s.eventQueue
  ok_chosen : ∀ data, (c.after s.ops).shown = some data →
    .ok ∈ s.eventQueue ∨ s.gui = some .ok → s.Chosen data
  true_chosen : ∀ r, r ∈ opResults s.ops ∨ r ∈ s.resultReceiver → r.result = true →
    ∃ data, r.request = some data ∧ s.Chosen data

variable {s t : SdApp Client Buffer} {c c' : Screen Buffer}
  {call : Option (Client × FileSelectData Buffer)} {data : FileSelectData Buffer}
  {ops : List (AppOp Buffer)}

theorem Matching.enqueue (h : Matching s c call) {e : SdAppEvent Buffer}
    (he : ∀ data, e ≠ .fileSelect data)
    (hok : e = .ok → queued s.eventQueue = [] ∧ c.view ≠ none ∧
      ∀ data, (c.after s.ops).shown = some data → s.Chosen data) :
    Matching { s with eventQueue := s.eventQueue ++ [e] } c call :=
  { h with
    shows := h.shows.congr rfl rfl rfl
    tokens := by
      rw [← h.tokens, SdApp.tokens, waiting_append, waiting_singleton he, add_zero]
      rfl
    okFirst := h.okFirst.concat fun he => (hok he).1
    opening := by
      intro data ops hops
      obtain ⟨hcall, hview, hq, hr, hresults⟩ := h.opening data ops hops
      refine ⟨hcall, hview, ?_, hr, hresults⟩
      intro hmem
      rcases List.mem_append.mp hmem with hmem | hmem
      · exact hq hmem
      · exact (hok (List.mem_singleton.mp hmem).symm).2.1 hview
    current := by
      intro data client d hshown hcall
      refine (h.current data client d hshown hcall).imp_right fun hmem => ?_
      rw [queued_append]
      exact List.mem_append_left _ hmem
    ok_chosen := by
      rintro data hshown (hmem | hgui)
      · rcases List.mem_append.mp hmem with hmem | hmem
        · exact h.ok_chosen data hshown (.inl hmem)
        · exact (hok (List.mem_singleton.mp hmem).symm).2.2 data hshown
      · exact h.ok_chosen data hshown (.inr hgui) }

theorem Matching.silence (h : Matching s c call) : Matching { s with gui := none } c call :=
  { h with
    shows := h.shows.congr rfl rfl rfl
    gui := nofun
    opening := fun data ops hops =>
      let h := h.opening data ops hops
      ⟨h.call, h.view, h.ok, h.receiver, h.results⟩
    ok_chosen := by
      rintro data hshown (hmem | hgui)
      · exact h.ok_chosen data hshown (.inl hmem)
      · cases hgui }

theorem Matching.deliver (h : Matching s c call) (ht : s.deliver = some t)
    (hok : s.gui = some .ok → queued s.eventQueue = []) : Matching t c call := by
  obtain ⟨e, he, rfl⟩ := deliver_cases ht
  obtain ⟨hback, hview⟩ := h.gui e he
  have hevent : ∀ data, e ≠ .fileSelect data := by
    rcases hback with rfl | rfl
    · exact nofun
    · exact nofun
  refine (h.enqueue hevent ?_).silence
  rintro rfl
  exact ⟨hok he, hview, fun data hshown => h.ok_chosen data hshown (.inr he)⟩

theorem Matching.post (h : Matching s c call) {e : SdAppEvent Buffer} (he : posted e = true) :
    Matching { s with eventQueue := s.eventQueue ++ [e] } c call := by
  apply h.enqueue
  · rintro data rfl
    cases he
  · rintro rfl
    cases he

theorem Matching.matches (h : Matching s c call) {client : Client} {data : FileSelectData Buffer}
    {r : FileSelectResultEvent Buffer} (hr : r ∈ s.resultReceiver)
    (hrequest : r.request = some data) : (s.answered client data r).Matches := by
  refine ⟨hrequest, ?_⟩
  intro htrue
  obtain ⟨data', hdata', filename, hfilename, hmemory⟩ := h.true_chosen r (.inr hr) htrue
  obtain rfl := Option.some.inj (hrequest.symm.trans hdata')
  refine ⟨filename, hfilename, ?_⟩
  intro hsize
  dsimp only [answered] at hsize ⊢
  cases hb : data.result with
  | none => rfl
  | some b => exact congrArg some (hmemory b hb hsize)

theorem Matching.idle (h : Matching s c call) {r : FileSelectResultEvent Buffer}
    {results : List (FileSelectResultEvent Buffer)} (hr : s.resultReceiver = r :: results)
    (hzero : { s with resultReceiver := results }.tokens c = 0)
    {clients : Client → ClientState Client Buffer} {returns : List (Return Client Buffer)}
    (hclients : ∀ client data, clients client ≠ .receiving data)
    (hreturns : ∀ r ∈ returns, r.Matches)
    (hchecking : ∀ client r, clients client = .checking r → r.Matches) :
    Matching { s with resultReceiver := results, clients, returns } c none := by
  obtain ⟨_, hshown, hresults, hnone⟩ := tokens_eq_zero hzero
  exact { h with
    shows := h.shows.congr rfl rfl rfl
    tokens := hzero
    clients := fun client data => iff_of_false (hclients client data) nofun
    returned := hreturns
    checking := hchecking
    opening := by
      intro data ops hops
      exact nomatch hr.symm.trans (h.opening data ops hops).receiver
    current := nofun
    ok_chosen := by
      intro data hdata _
      cases hshown.symm.trans hdata
    true_chosen := by
      rintro r' (hr' | hr')
      · rw [show opResults s.ops = [] from hresults] at hr'
        cases hr'
      · rw [show results = [] from hnone] at hr'
        cases hr' }

/-- The request that the running handler shows is shown already, or about to be opened. -/
theorem Matching.shown (h : Matching s c call) (hview : c.view ≠ none)
    (hshown : (c.after s.ops).shown = some data) : c.shown = some data := by
  refine Screen.shown_of_after ?_ hshown
  intro data' hmem
  cases hops : s.ops with
  | nil => simp [hops] at hmem
  | cons o ops =>
    rw [hops] at hmem
    rcases List.mem_cons.mp hmem with rfl | hmem
    · exact hview (h.opening data' ops hops).view
    · exact h.later data' (by rwa [hops])

theorem Matching.call_of_mem (h : Matching s c call) (hmem : some data ∈ s.tokens c) :
    ∃ client, call = some (client, data) := by
  rw [h.tokens] at hmem
  match call, hmem with
  | some (client, d), hmem =>
    have hd : some data = some d := by simpa using hmem
    exact ⟨client, by rw [Option.some.inj hd]⟩

theorem mem_tokens_result {r : FileSelectResultEvent Buffer}
    (hr : r ∈ opResults s.ops ∨ r ∈ s.resultReceiver) : r.request ∈ s.tokens c := by
  rcases hr with hr | hr
  · have : r.request ∈ requests (opResults s.ops) := List.mem_map_of_mem hr
    simp [SdApp.tokens, this]
  · have : r.request ∈ requests s.resultReceiver := List.mem_map_of_mem hr
    simp [SdApp.tokens, this]

theorem Matching.card (h : Matching s c call) :
    (queued s.eventQueue).length + (c.after s.ops).shown.toList.length +
      (opResults s.ops).length + s.resultReceiver.length ≤ 1 := by
  have hcard : (s.tokens c).card ≤ 1 := by
    rw [h.tokens]
    cases call <;> simp
  simpa [SdApp.tokens, waiting, onScreen, requests, Option.toList_map, add_assoc] using hcard

/-- While the request waits in the event queue there is no result, and its view is not shown. -/
theorem Matching.of_queued (h : Matching s c call) (hmem : data ∈ queued s.eventQueue) :
    (c.after s.ops).shown = none ∧ opResults s.ops = [] ∧ s.resultReceiver = [] := by
  have hcard := h.card
  have hlength := List.length_pos_of_mem hmem
  refine ⟨?_, List.length_eq_zero_iff.mp (by omega), List.length_eq_zero_iff.mp (by omega)⟩
  exact Option.toList_eq_nil_iff.mp (List.length_eq_zero_iff.mp (by omega))

section Choose

variable [DecidableEq Buffer]

theorem choose_chosen (s : SdApp Client Buffer) (data : FileSelectData Buffer)
    {line : FileLine} (hfile : line.isFile = true) : (s.choose data line).Chosen data := by
  have hchosen : line.file = some line.text := if_pos hfile
  refine ⟨line.text, (Function.update_self ..).trans hchosen, ?_⟩
  intro b hb hsize
  simp only [choose, writeBuffer, hb, if_neg hsize, Function.update_self]

theorem Matching.choose (h : Matching s c call) {data : FileSelectData Buffer}
    (hshown : c.shown = some data) (hview : c.view ≠ none) {line : FileLine}
    (hfile : line.isFile = true) : Matching (s.choose data line) c call :=
  { h with
    shows := choose_shows h.shows data line
    gui := by
      rintro e he
      exact ⟨.inl (Option.some.inj he).symm, hview⟩
    opening := fun data' ops hops => absurd (h.opening data' ops hops).view hview
    ok_chosen := by
      intro data' hdata' _
      obtain rfl := Option.some.inj (hshown.symm.trans (h.shown hview hdata'))
      exact choose_chosen s data hfile
    true_chosen := by
      intro r hr htrue
      obtain ⟨d, hd, _⟩ := h.true_chosen r hr htrue
      obtain ⟨client, hcall⟩ := h.call_of_mem (hd ▸ mem_tokens_result hr)
      refine ⟨d, hd, ?_⟩
      rcases h.current data client d hshown hcall with rfl | hqueued
      · exact choose_chosen s data hfile
      · obtain ⟨_, hresults, hreceiver⟩ := h.of_queued hqueued
        rcases hr with hr | hr
        · cases (show r ∈ ([] : List _) from hresults ▸ hr)
        · cases (show r ∈ ([] : List _) from hreceiver ▸ hr) }

theorem Matching.input (h : Matching s c call) {k : Key}
    (hfile : ∀ line, k = .ok line → line.isFile = true) (ht : s.input k = some t) :
    Matching t c call := by
  obtain ⟨m, hm, ht⟩ := h.shows.input ht
  have hview : c.view ≠ none := by
    rw [hm]
    exact nofun
  have hopening : ∀ data ops, s.ops ≠ .openFileSelect data :: ops :=
    fun data ops hops => hview (h.opening data ops hops).view
  rcases ht with rfl | ⟨rfl, left, right, rfl⟩ | ⟨data, line, rfl, hk, rfl⟩
  · exact { h with
      shows := h.shows.congr rfl rfl rfl
      gui := by
        rintro e he
        exact ⟨.inr (Option.some.inj he).symm, hview⟩
      opening := fun data ops hops => absurd hops (hopening data ops)
      ok_chosen := by
        rintro data hshown (hmem | hgui)
        · exact h.ok_chosen data hshown (.inl hmem)
        · cases hgui }
  · exact { h with
      shows := h.shows.congr rfl rfl rfl
      gui := by
        rintro e he
        exact ⟨.inl (Option.some.inj he).symm, hview⟩
      opening := fun data ops hops => absurd hops (hopening data ops)
      ok_chosen := by
        intro data hshown _
        have hshown := h.shown hview hshown
        rw [Screen.shown, hm] at hshown
        cases hshown }
  · exact h.choose (by rw [Screen.shown, hm]) hview (hfile line hk)

end Choose

theorem Matching.handle_opening (h : Matching s c call) {card : CardAnswer}
    {e : SdAppEvent Buffer} {events : List (SdAppEvent Buffer)}
    (hevents : s.eventQueue = e :: events) (hhandle : s.handle card e = .openFileSelect data :: ops) :
    Opening { s with eventQueue := events, ops := s.handle card e } c call data ops := by
  obtain ⟨rfl, hnone, hresults⟩ := (serves_handle s card e).opening data ops hhandle
  have hmem : data ∈ queued s.eventQueue := by
    rw [hevents]
    exact List.mem_cons_self ..
  have hfirst := h.okFirst
  rw [hevents] at hfirst
  constructor
  · apply h.call_of_mem
    have : some data ∈ waiting s.eventQueue := List.mem_map_of_mem hmem
    simp [SdApp.tokens, this]
  · exact h.shows.viewHolder_iff.mp hnone
  · exact hfirst.1
  · exact (h.of_queued hmem).2.2
  · exact hresults

theorem Matching.take (h : Matching s c call) {card : CardAnswer} (ht : s.take card = some t) :
    Matching t c call := by
  obtain ⟨e, events, hops, hevents, rfl⟩ := take_cases ht
  have hafter : c.after s.ops = c := by rw [hops, Screen.after_nil]
  have hc : c.Settled := hafter ▸ h.settled
  have hhandles := h.shows.handles hc card e
  have hserves := serves_handle s card e
  have hfirst := h.okFirst
  rw [hevents] at hfirst
  exact { h with
    shows := h.shows.congr rfl rfl rfl
    settled := hhandles.settled
    tokens := by
      have hwaiting : waiting s.eventQueue = waiting [e] + waiting events := by
        rw [hevents, ← List.singleton_append, waiting_append]
      have hnone : requests (opResults s.ops) = 0 := by
        rw [hops]
        rfl
      rw [← h.tokens, SdApp.tokens, SdApp.tokens, hwaiting, hafter, hnone, add_zero]
      have htokens := hhandles.tokens
      dsimp only
      rw [add_assoc (waiting events), htokens]
      ac_rfl
    okFirst := hfirst.tail
    opening := fun data ops hhandle => h.handle_opening hevents hhandle
    later := hserves.later
    posts := hserves.posts
    current := by
      intro data client d hshown hcall
      refine (h.current data client d hshown hcall).imp_right fun hmem => ?_
      by_cases he : ∃ data', e = .fileSelect data'
      · obtain ⟨data', rfl⟩ := he
        have hnone := (h.of_queued hmem).1
        rw [hafter] at hnone
        cases hnone.symm.trans hshown
      · rwa [hevents, queued_cons fun data' hdata' => he ⟨data', hdata'⟩] at hmem
    ok_chosen := by
      intro data hshown hok
      by_cases hopening : ∃ data' ops, s.handle card e = .openFileSelect data' :: ops
      · obtain ⟨data', ops, hhandle⟩ := hopening
        have hopening := h.handle_opening hevents hhandle
        rcases hok with hmem | hgui
        · exact absurd hmem hopening.ok
        · exact absurd hopening.view (h.gui _ hgui).2
      · have hnot : ∀ data', .openFileSelect data' ∉ s.handle card e := by
          intro data' hmem
          cases hhandle : s.handle card e with
          | nil => simp [hhandle] at hmem
          | cons o ops =>
            rw [hhandle] at hmem
            rcases List.mem_cons.mp hmem with rfl | hmem
            · exact hopening ⟨data', ops, hhandle⟩
            · have := hserves.later data'
              rw [hhandle] at this
              exact this hmem
        have hshown : (c.after s.ops).shown = some data := by
          rw [hafter]
          exact Screen.shown_of_after hnot hshown
        refine h.ok_chosen data hshown (hok.imp_left fun hmem => ?_)
        rw [hevents]
        exact List.mem_cons_of_mem _ hmem
    true_chosen := by
      rintro r (hr | hr) htrue
      · obtain ⟨rfl, hstate, hrequest⟩ := hserves.answers r hr htrue
        have hshown := hc.shown_iff.mpr (h.shows.state.trans hstate)
        obtain ⟨data, hdata⟩ := Option.ne_none_iff_exists'.mp hshown
        refine ⟨data, hrequest.trans (h.shows.shown.trans hdata), ?_⟩
        refine h.ok_chosen data (by rw [hafter, hdata]) (.inl ?_)
        rw [hevents]
        exact List.mem_cons_self ..
      · exact h.true_chosen r (.inr hr) htrue }

theorem Chosen.congr (h : s.Chosen data) (hchosen : t.chosen = s.chosen)
    (hmemory : t.memory = s.memory) : t.Chosen data := by
  obtain ⟨filename, hfilename, hbuffer⟩ := h
  refine ⟨filename, by rw [hchosen, hfilename], ?_⟩
  rw [hmemory]
  exact hbuffer

section Op

variable {o : AppOp Buffer}

theorem Matching.puts_back (h : Matching s c call) (hops : s.ops = o :: ops) :
    ∀ e ∈ putEvents o, e = .back := by
  intro e he
  cases o with
  | put e' =>
    obtain rfl := List.mem_singleton.mp he
    exact h.posts e (hops ▸ List.mem_cons_self ..)
  | _ => cases he

theorem Matching.waiting_puts (h : Matching s c call) (hops : s.ops = o :: ops) :
    waiting (putEvents o) = 0 := by
  have hputs := h.puts_back hops
  cases o with
  | put e =>
    apply waiting_singleton
    intro data he
    have hback := hputs e (List.mem_singleton.mpr rfl)
    cases hback.symm.trans he
  | _ => rfl

theorem Matching.op_current (h : Matching s c call) (hops : s.ops = o :: ops)
    (hc' : c.exec o = some c') {data d : FileSelectData Buffer} {client : Client}
    (hshown : c'.shown = some data) (hcall : call = some (client, d)) :
    data = d ∨ d ∈ queued s.eventQueue := by
  by_cases ho : ∃ data', o = .openFileSelect data'
  · obtain ⟨data', rfl⟩ := ho
    obtain ⟨⟨client', hcall'⟩, hview, _, _, _⟩ := h.opening data' ops hops
    have hc'' : c'.shown = some data' := by
      obtain ⟨view, state⟩ := c
      obtain rfl : view = none := hview
      obtain rfl := Option.some.inj hc'
      rfl
    left
    obtain rfl := Option.some.inj (hc''.symm.trans hshown)
    exact (Prod.mk.inj (Option.some.inj (hcall'.symm.trans hcall))).2
  · have hdata := Screen.shown_of_exec hc' (fun data' h => ho ⟨data', h⟩) hshown
    exact h.current data client d hdata hcall

/-- The dialog of a call opens only when no answer `true` is left to give. -/
theorem Matching.op_true_chosen (h : Matching s c call) (hops : s.ops = o :: ops) 
    {r : FileSelectResultEvent Buffer}
    (hr : r ∈ opResults ops ∨ r ∈ s.resultReceiver ++ putResults o) (htrue : r.result = true) :
    ∃ data, r.request = some data ∧ s.Chosen data ∧ ∀ data', o ≠ .openFileSelect data' := by
  have hresults : opResults s.ops = putResults o ++ opResults ops := by rw [hops]; rfl
  have hbefore : r ∈ opResults s.ops ∨ r ∈ s.resultReceiver := by
    rw [hresults, List.mem_append]
    rcases hr with hr | hr
    · exact .inl (.inr hr)
    · rcases List.mem_append.mp hr with hr | hr
      · exact .inr hr
      · exact .inl (.inl hr)
  obtain ⟨data, hdata, hmemory⟩ := h.true_chosen r hbefore htrue
  refine ⟨data, hdata, hmemory, ?_⟩
  rintro data' rfl
  have hopening := h.opening data' ops hops
  rcases hbefore with hr | hr
  · rw [hresults] at hr
    cases (hopening.results r hr).symm.trans htrue
  · rw [hopening.receiver] at hr
    cases hr

end Op

theorem Matching.op [DecidableEq Buffer] (h : Matching s c call) (ht : s.op = some t)
    (hfault : t.fault = none) : ∃ c', Matching t c' call := by
  obtain ⟨o, ops, c', hops, hc', ht', rfl, hexec⟩ := h.shows.op ht hfault
  have hafter : c'.after t.ops = c.after s.ops := by rw [hops, Screen.after_cons hc']
  have htail : ∀ data, .openFileSelect data ∉ t.ops := by
    intro data hmem
    refine h.later data ?_
    rw [hops]
    exact hmem
  have hqueue : t.eventQueue = s.eventQueue ++ putEvents o := hexec.eventQueue
  have hok : .ok ∈ t.eventQueue ∨ t.gui = some .ok → .ok ∈ s.eventQueue ∨ s.gui = some .ok := by
    rw [hqueue, hexec.gui]
    refine Or.imp_left fun hmem => ?_
    rcases List.mem_append.mp hmem with hmem | hmem
    · exact hmem
    · cases h.puts_back hops _ hmem
  have hchosen : ∀ data, (∀ data', o ≠ .openFileSelect data') → s.Chosen data → t.Chosen data :=
    fun data ho h => h.congr hexec.chosen (hexec.memory ho)
  refine ⟨c', ?_⟩
  constructor
  case shows => exact ht'
  case settled => exact hafter ▸ h.settled
  case tokens =>
    have hresults : opResults s.ops = putResults o ++ opResults t.ops := by rw [hops]; rfl
    rw [← h.tokens, SdApp.tokens, SdApp.tokens, hafter, hqueue, waiting_append,
      h.waiting_puts hops, hresults, requests_append, hexec.resultReceiver, requests_append,
      add_zero]
    dsimp only
    ac_rfl
  case clients => exact hexec.clients ▸ h.clients
  case returned => exact hexec.returns ▸ h.returned
  case checking => exact hexec.clients ▸ h.checking
  case okFirst =>
    have hputs := h.puts_back hops
    rw [hqueue]
    cases ho : o with
    | put e => exact h.okFirst.concat fun he => by simp [he, ho, putEvents] at hputs
    | _ => exact (List.append_nil s.eventQueue).symm ▸ h.okFirst
  case gui =>
    intro e he
    have he : s.gui = some e := hexec.gui.symm.trans he
    refine (h.gui e he).imp_right fun hview => Screen.view_of_exec hc' ?_ hview
    intro ho
    cases (hexec.free ho).symm.trans he
  case opening =>
    intro data ops' hops'
    exact absurd (hops' ▸ List.mem_cons_self ..) (htail data)
  case later => exact fun data hmem => htail data (List.mem_of_mem_tail hmem)
  case posts => exact fun e hmem => h.posts e (hops ▸ List.mem_cons_of_mem _ hmem)
  case current =>
    intro data client d hshown hcall
    refine (h.op_current hops hc' hshown hcall).imp_right fun hmem => ?_
    rw [hqueue, queued_append]
    exact List.mem_append_left _ hmem
  case ok_chosen =>
    intro data hshown hmem
    have hmem := hok hmem
    refine hchosen data ?_ (h.ok_chosen data (hafter ▸ hshown) hmem)
    rintro data' rfl
    have hopening := h.opening data' t.ops hops
    rcases hmem with hmem | hgui
    · exact hopening.ok hmem
    · exact (h.gui _ hgui).2 hopening.view
  case true_chosen =>
    intro r hr htrue
    rw [hexec.resultReceiver] at hr
    obtain ⟨data, hdata, hmemory, ho⟩ := h.op_true_chosen hops hr htrue
    exact ⟨data, hdata, hchosen data ho hmemory⟩

variable [DecidableEq Client]

theorem Matching.fileSelect (h : Matching s c none) {client : Client}
    {data : FileSelectData Buffer} (ht : s.fileSelect client data = some t) :
    Matching t c (some (client, { data with request := s.calls })) := by
  obtain ⟨hidle, rfl⟩ := fileSelect_cases ht
  have htokens : s.tokens c = 0 := h.tokens
  obtain ⟨_, hshown, hresults, hreceiver⟩ := tokens_eq_zero htokens
  exact { h with
    shows := h.shows.congr rfl rfl rfl
    tokens := by
      have hone : s.tokens c + waiting [.fileSelect { data with request := s.calls }] =
          {some { data with request := s.calls }} := by
        rw [htokens, zero_add]
        rfl
      refine Eq.trans ?_ hone
      simp only [SdApp.tokens, waiting_append]
      ac_rfl
    clients := by
      intro client' data'
      by_cases hc : client' = client
      · subst hc
        simp
      · simp [Function.update_of_ne hc, h.clients, Ne.symm hc]
    checking := by
      intro client' r hr
      by_cases hc : client' = client
      · subst hc
        simp at hr
      · exact h.checking client' r (by simpa [Function.update_of_ne hc] using hr)
    okFirst := h.okFirst.concat nofun
    opening := by
      intro data' ops hops
      obtain ⟨_, hcall⟩ := (h.opening data' ops hops).call
      cases hcall
    current := by
      rintro data' client' d _ hcall
      right
      rw [queued_append, ← (Prod.mk.inj (Option.some.inj hcall)).2]
      exact List.mem_append_right _ (List.mem_singleton.mpr rfl)
    ok_chosen := by
      intro data' hdata' _
      cases hshown.symm.trans hdata'
    true_chosen := by
      rintro r (hr | hr)
      · rw [hresults] at hr
        cases hr
      · rw [hreceiver] at hr
        cases hr }

theorem Matching.receive (h : Matching s c call) {client : Client}
    (ht : s.receive client = some t) : Matching t c none := by
  obtain ⟨data, answer, results, hclient, hreceiver, ht⟩ := receive_cases ht
  have hcall : call = some (client, data) := (h.clients client data).mp hclient
  have htokens : s.tokens c = {some data} := by
    rw [h.tokens, hcall]
    rfl
  obtain ⟨hrequest, hzero⟩ := tokens_result htokens hreceiver
  have hmatches : (s.answered client data answer).Matches :=
    h.matches (hreceiver ▸ List.mem_cons_self ..) hrequest
  have hothers : ∀ client', client' ≠ client → ∀ data', s.clients client' ≠ .receiving data' := by
    intro client' hc data' hreceiving
    have := hcall.symm.trans ((h.clients client' data').mp hreceiving)
    exact hc (Prod.mk.inj (Option.some.inj this)).1.symm
  rcases ht with ⟨_, rfl⟩ | ⟨_, rfl⟩
  · refine h.idle hreceiver hzero ?_ ?_ ?_
    · intro client' data'
      by_cases hc : client' = client
      · subst hc
        simp
      · simpa [Function.update_of_ne hc] using hothers client' hc data'
    · intro r hr
      rcases List.mem_append.mp hr with hr | hr
      · exact h.returned r hr
      · exact List.mem_singleton.mp hr ▸ hmatches
    · intro client' r hr
      by_cases hc : client' = client
      · subst hc
        simp at hr
      · exact h.checking client' r (by simpa [Function.update_of_ne hc] using hr)
  · refine h.idle hreceiver hzero ?_ h.returned ?_
    · intro client' data'
      by_cases hc : client' = client
      · subst hc
        simp
      · simpa [Function.update_of_ne hc] using hothers client' hc data'
    · intro client' r hr
      by_cases hc : client' = client
      · subst hc
        simp only [Function.update_self, ClientState.checking.injEq] at hr
        exact hr ▸ hmatches
      · exact h.checking client' r (by simpa [Function.update_of_ne hc] using hr)

theorem Matching.checkError (h : Matching s c call) {client : Client}
    (ht : s.checkError client = some t) : Matching t c call := by
  obtain ⟨r, hr, rfl⟩ := checkError_cases ht
  have hmatches := h.checking client r hr
  have h' := h.post (e := .checkError) rfl
  exact { h' with
    shows := h'.shows.congr rfl rfl rfl
    clients := by
      intro client' data
      rw [← h.clients]
      by_cases hc : client' = client
      · subst hc
        simp [hr]
      · simp [Function.update_of_ne hc]
    returned := by
      intro r' hr'
      rcases List.mem_append.mp hr' with hr' | hr'
      · exact h.returned r' hr'
      · exact List.mem_singleton.mp hr' ▸ hmatches
    checking := by
      intro client' r' hr'
      by_cases hc : client' = client
      · subst hc
        simp at hr'
      · exact h.checking client' r' (by simpa [Function.update_of_ne hc] using hr')
    opening := fun data ops hops =>
      let h := h'.opening data ops hops
      ⟨h.call, h.view, h.ok, h.receiver, h.results⟩ }

variable [DecidableEq Buffer]

/-- A call begins only when no other waits for its result, OK is pressed only on the line of a file,
and the GUI service posts the `ok` of a view only when no request waits in the event queue. -/
def OneAtATime (s : SdApp Client Buffer) : Label Client Buffer → Prop
  | .fileSelect _ _ => ∀ client, (s.clients client).waits = false
  | .key (.ok line) => line.isFile = true
  | .deliver => s.gui = some .ok → queued s.eventQueue = []
  | _ => True

instance [Fintype Client] (s : SdApp Client Buffer) (l : Label Client Buffer) :
    Decidable (s.OneAtATime l) :=
  match l with
  | .fileSelect _ _ => inferInstanceAs (Decidable (∀ _, _))
  | .key (.ok line) => inferInstanceAs (Decidable (line.isFile = true))
  | .deliver => inferInstanceAs (Decidable (_ → _))
  | .key .back | .key .left | .key .right | .key .unreadable
  | .take _ | .op | .post _ | .receive _ | .checkError _ | .mount _ =>
    inferInstanceAs (Decidable True)

theorem Matching.step {l : Label Client Buffer} (h : Matching s c call) (hok : s.OneAtATime l)
    (ht : s.step l = some t) :
    (∃ c' call', Matching t c' call') ∨ (t.fault ≠ none ∧ t.returns = s.returns) := by
  cases l with
  | op =>
    by_cases hfault : t.fault = none
    · obtain ⟨c', h⟩ := h.op ht hfault
      exact .inl ⟨c', call, h⟩
    · obtain ⟨o, ops, _, hr | ⟨f, _, rfl⟩⟩ := op_cases ht
      · exact .inr ⟨hfault, (exec_executes hr).returns⟩
      · exact .inr ⟨hfault, rfl⟩
  | take card => exact .inl ⟨c, call, h.take ht⟩
  | key k =>
    have hfile : ∀ line, k = .ok line → line.isFile = true := by
      rintro line rfl
      exact hok
    exact .inl ⟨c, call, h.input hfile (step_key ht).2⟩
  | deliver => exact .inl ⟨c, call, h.deliver ht hok⟩
  | post e =>
    obtain ⟨he, rfl⟩ := step_post ht
    exact .inl ⟨c, call, h.post he⟩
  | fileSelect client data =>
    match call, h with
    | none, h => exact .inl ⟨c, _, h.fileSelect ht⟩
    | some (client', data'), h =>
      have hwaits := hok client'
      rw [(h.clients client' data').mpr rfl] at hwaits
      cases hwaits
  | receive client => exact .inl ⟨c, none, h.receive ht⟩
  | checkError client => exact .inl ⟨c, call, h.checkError ht⟩
  | mount status =>
    obtain rfl := Option.some.inj ht
    exact .inl ⟨c, call, { h with
      shows := h.shows.congr rfl rfl rfl
      opening := fun data ops hops =>
        let h := h.opening data ops hops
        ⟨h.call, h.view, h.ok, h.receiver, h.results⟩ }⟩

theorem matching_init (status : SDError) (memory : Buffer → List Char) :
    Matching (sdFilesystemApp Client Buffer status memory).init ⟨none, .background⟩ none where
  shows := .empty rfl rfl
  settled := rfl
  tokens := rfl
  clients _ _ := iff_of_false nofun nofun
  returned _ hmem := absurd hmem List.not_mem_nil
  checking _ _ hchecking := by cases hchecking
  okFirst := trivial
  gui := nofun
  opening := nofun
  later := nofun
  posts := nofun
  current := nofun
  ok_chosen := nofun
  true_chosen := by simp [sdFilesystemApp, opResults]

end SdApp

/-- Every call that has returned took the result of its own request, and it returned `true` only
with the name that the user chose for that request in its own buffer. -/
theorem file_select_matching [DecidableEq Client] [DecidableEq Buffer] {status : SDError}
    {memory : Buffer → List Char} {s : SdApp Client Buffer}
    (h : (sdFilesystemApp Client Buffer status memory).ReachableWith SdApp.OneAtATime s) :
    ∀ r ∈ s.returns, r.Matches := by
  have hs : (∃ c call, s.Matching c call) ∨ (s.fault ≠ none ∧ ∀ r ∈ s.returns, r.Matches) := by
    refine h.invariant (P := fun s => (∃ c call, s.Matching c call) ∨
      (s.fault ≠ none ∧ ∀ r ∈ s.returns, r.Matches)) ?_ ?_
    · exact .inl ⟨_, _, SdApp.matching_init status memory⟩
    intro s l t hs hok ht
    obtain ⟨hfault, ht⟩ := SdApp.next_step ht
    rcases hs with ⟨c, call, hs⟩ | ⟨hs, _⟩
    · refine (hs.step hok ht).imp_right ?_
      rintro ⟨htfault, hreturns⟩
      exact ⟨htfault, hreturns ▸ hs.returned⟩
    · exact absurd hfault hs
  rcases hs with ⟨c, call, hs⟩ | ⟨_, hs⟩
  · exact hs.returned
  · exact hs

section Runs

def anyFile {Client : Type} (client : Client) : FileSelectData Client :=
  ⟨[], ['*'], some client, 10, none, 0⟩

def readable : SdApp.CardAnswer := ⟨fun _ => .ok, true, true⟩

/-- A client asks for a file, its view is shown, and the user chooses one. -/
def chooseRun : List (SdApp.Label Unit Unit) :=
  [.fileSelect () (anyFile ()), .take readable, .op, .op, .op, .key (.ok ⟨['k'], true⟩), .deliver,
    .take readable, .op, .receive ()]

def oneClient : Machine (SdApp Unit Unit) (SdApp.Label Unit Unit) :=
  sdFilesystemApp Unit Unit .ok fun _ => []

theorem file_select_matching_chosen :
    ∃ s, oneClient.execWith SdApp.OneAtATime oneClient.init chooseRun = some s ∧
      s.returns.map (·.buffer) = [some ['k']] ∧ ∀ r ∈ s.returns, r.Matches := by
  have hrun : ∃ s, oneClient.execWith SdApp.OneAtATime oneClient.init chooseRun = some s ∧
      s.returns.map (·.buffer) = [some ['k']] := ⟨_, rfl, rfl⟩
  obtain ⟨s, hs, hbuffer⟩ := hrun
  exact ⟨s, hs, hbuffer, file_select_matching (Machine.execWith_reachableWith .init hs)⟩

/-- The view of the first client is shown when the second asks. The first takes the refusal of
the second, and the second the choice of the user for the first. -/
def crossedRun : List (SdApp.Label Bool Bool) :=
  [.fileSelect false (anyFile false), .take readable, .op, .op, .op,
    .fileSelect true (anyFile true), .take readable, .op, .receive false, .checkError false,
    .key (.ok ⟨['k'], true⟩), .deliver, .take readable, .take readable, .op, .receive true]

def twoClients : Machine (SdApp Bool Bool) (SdApp.Label Bool Bool) :=
  sdFilesystemApp Bool Bool .ok fun _ => []

theorem not_file_select_matching :
    ¬∀ s, twoClients.Reachable s → ∀ r ∈ s.returns, r.Matches := by
  have hrun : ∃ s, twoClients.exec twoClients.init crossedRun = some s ∧
      s.returns[1]? = some ⟨true, { anyFile true with request := 1 },
        ⟨true, some (anyFile false)⟩, none, some []⟩ := ⟨_, rfl, rfl⟩
  obtain ⟨s, hs, hreturn⟩ := hrun
  intro h
  have hmatches := h s (Machine.exec_reachable .init hs) _ (List.mem_of_getElem? hreturn)
  exact absurd hmatches.1 (by decide)

end Runs

end FlipperZero.SdFilesystem
