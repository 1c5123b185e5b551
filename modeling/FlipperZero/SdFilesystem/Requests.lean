import FlipperZero.SdFilesystem.EventLoop
import Mathlib.Algebra.Order.Group.Multiset

/-! # Requests and results of the file select calls

Every request that waits for its answer is in one place: in the event queue, on the screen that
the running handler leads to, or in a result. With one call at a time the places hold the
request of that call alone, whatever the user and the other threads do.
-/

namespace FlipperZero.SdFilesystem

open Lib

variable {Client Buffer : Type}

namespace Screen

variable {c c' : Screen Buffer}

/-- The screen after a handler, where an operation that fails leaves it as it is. -/
def after (c : Screen Buffer) (ops : List (AppOp Buffer)) : Screen Buffer :=
  ops.foldl (fun c o => (c.exec o).getD c) c

@[simp] theorem after_nil : c.after [] = c := rfl

theorem after_cons {o : AppOp Buffer} {ops : List (AppOp Buffer)} (h : c.exec o = some c') :
    c.after (o :: ops) = c'.after ops := by
  rw [after, List.foldl_cons, h, Option.getD_some, ← after]

theorem after_of_run {ops : List (AppOp Buffer)} (h : c.run ops = some c') : c.after ops = c' := by
  induction ops generalizing c with
  | nil => exact Option.some.inj h
  | cons o ops ih =>
    rw [run_cons] at h
    obtain ⟨c₁, hc₁, h⟩ := Option.bind_eq_some_iff.mp h
    rw [after_cons hc₁]
    exact ih h

def shown (c : Screen Buffer) : Option (FileSelectData Buffer) :=
  match c.view with
  | some (.fileSelect data, _) => some data
  | _ => none

theorem shown_of_exec {o : AppOp Buffer} (h : c.exec o = some c')
    (ho : ∀ data, o ≠ .openFileSelect data) {data : FileSelectData Buffer}
    (hshown : c'.shown = some data) : c.shown = some data := by
  obtain ⟨view, state⟩ := c
  cases o with
  | openFileSelect data' => exact absurd rfl (ho data')
  | openDialog right state' =>
    cases view with
    | none =>
      obtain rfl := Option.some.inj h
      cases hshown
    | some v =>
      obtain rfl := Option.some.inj h
      exact hshown
  | editDialog left right =>
    match view, h with
    | some (.dialogEx _ _, _), h =>
      obtain rfl := Option.some.inj h
      cases hshown
  | viewHolderStart =>
    match view, h with
    | some (.dialogEx _ _, _), h | some (.fileSelect _, _), h =>
      obtain rfl := Option.some.inj h
      exact hshown
  | viewHolderStop =>
    match view, h with
    | some (.dialogEx _ _, _), h | some (.fileSelect _, _), h =>
      obtain rfl := Option.some.inj h
      exact hshown
  | freeViewHolder =>
    obtain rfl := Option.some.inj h
    cases hshown
  | setState _ | put _ | putResult _ =>
    obtain rfl := Option.some.inj h
    exact hshown

theorem shown_of_after {ops : List (AppOp Buffer)} (hops : ∀ data, .openFileSelect data ∉ ops)
    {data : FileSelectData Buffer} (hshown : (c.after ops).shown = some data) :
    c.shown = some data := by
  induction ops generalizing c with
  | nil => exact hshown
  | cons o ops ih =>
    have ho : ∀ data, o ≠ .openFileSelect data := fun data he =>
      hops data (he ▸ List.mem_cons_self ..)
    have hc : ((c.exec o).getD c).shown = some data :=
      ih (fun data hmem => hops data (List.mem_cons_of_mem _ hmem)) hshown
    cases hexec : c.exec o with
    | none => rwa [hexec] at hc
    | some c' =>
      rw [hexec] at hc
      exact shown_of_exec hexec ho hc

theorem view_of_exec {o : AppOp Buffer} (h : c.exec o = some c') (ho : o ≠ .freeViewHolder)
    (hview : c.view ≠ none) : c'.view ≠ none := by
  obtain ⟨view, state⟩ := c
  obtain ⟨⟨m, enabled⟩, rfl⟩ := Option.ne_none_iff_exists'.mp hview
  cases o with
  | freeViewHolder => exact absurd rfl ho
  | editDialog left right =>
    match m, h with
    | .dialogEx _ _, h =>
      obtain rfl := Option.some.inj h
      exact nofun
  | _ =>
    obtain rfl := Option.some.inj h
    exact nofun

theorem Settled.shown_iff (h : c.Settled) : c.shown ≠ none ↔ c.state = .fileSelect := by
  obtain ⟨view, state⟩ := c
  match view, h with
  | none, h => exact ⟨fun hs => absurd rfl hs, fun hs => nomatch h.symm.trans hs⟩
  | some (.fileSelect _, _), h => exact ⟨fun _ => h, fun _ => nofun⟩
  | some (.dialogEx _ _, _), h => exact ⟨fun hs => absurd rfl hs, fun hs => absurd hs h.2⟩

end Screen

def queued : List (SdAppEvent Buffer) → List (FileSelectData Buffer)
  | [] => []
  | .fileSelect data :: events => data :: queued events
  | _ :: events => queued events

def opResults (ops : List (AppOp Buffer)) : List (FileSelectResultEvent Buffer) :=
  ops.flatMap SdApp.putResults

section Lists

variable {e : SdAppEvent Buffer} {events events' : List (SdAppEvent Buffer)}

theorem queued_append : queued (events ++ events') = queued events ++ queued events' := by
  induction events with
  | nil => rfl
  | cons e events ih => cases e <;> simp [queued, ih]

theorem queued_singleton (h : ∀ data, e ≠ .fileSelect data) : queued [e] = [] := by
  cases e with
  | fileSelect data => exact absurd rfl (h data)
  | _ => rfl

theorem queued_cons (h : ∀ data, e ≠ .fileSelect data) : queued (e :: events) = queued events := by
  rw [← List.singleton_append, queued_append, queued_singleton h, List.nil_append]

end Lists

namespace SdApp

variable {s t : SdApp Client Buffer} {c c' : Screen Buffer}

def requests (results : List (FileSelectResultEvent Buffer)) :
    Multiset (Option (FileSelectData Buffer)) :=
  results.map (·.request)

def waiting (events : List (SdAppEvent Buffer)) : Multiset (Option (FileSelectData Buffer)) :=
  (queued events).map some

def onScreen (c : Screen Buffer) : Multiset (Option (FileSelectData Buffer)) :=
  (c.shown.map some).toList

/-- Where the requests that wait for an answer are. -/
def tokens (s : SdApp Client Buffer) (c : Screen Buffer) :
    Multiset (Option (FileSelectData Buffer)) :=
  waiting s.eventQueue + onScreen (c.after s.ops) + requests (opResults s.ops) +
    requests s.resultReceiver

section Tokens

variable {events events' : List (SdAppEvent Buffer)}
  {results results' : List (FileSelectResultEvent Buffer)}

theorem requests_append : requests (results ++ results') = requests results + requests results' := by
  simp [requests]

theorem waiting_append : waiting (events ++ events') = waiting events + waiting events' := by
  simp [waiting, queued_append]

theorem waiting_singleton {e : SdAppEvent Buffer} (h : ∀ data, e ≠ .fileSelect data) :
    waiting [e] = 0 := by
  rw [waiting, queued_singleton h]
  rfl

theorem onScreen_shown {data : FileSelectData Buffer} (h : c.shown = some data) :
    onScreen c = {some data} := by
  rw [onScreen, h]
  rfl

end Tokens

/-- A handler that begins with a screen answers the shown request or leaves it there, and does
the same with the request that it handles. -/
structure Handles (c : Screen Buffer) (e : SdAppEvent Buffer) (ops : List (AppOp Buffer)) :
    Prop where
  settled : (c.after ops).Settled
  tokens : onScreen (c.after ops) + requests (opResults ops) = waiting [e] + onScreen c

theorem Handles.keep {e : SdAppEvent Buffer} {ops : List (AppOp Buffer)}
    (hsettled : (c.after ops).Settled) (he : ∀ data, e ≠ .fileSelect data)
    (hops : opResults ops = []) (hshown : (c.after ops).shown = c.shown) : Handles c e ops := by
  refine ⟨hsettled, ?_⟩
  rw [waiting_singleton he, onScreen, hshown, hops, zero_add]
  exact add_zero _

theorem handles_openDialog (hc : c.Settled) (right : Bool) {state : SdAppState}
    {e : SdAppEvent Buffer} (he : ∀ data, e ≠ .fileSelect data) (hb : state ≠ .background)
    (hf : state ≠ .fileSelect) : Handles c e [.openDialog right state] := by
  obtain ⟨c', hrun, hc'⟩ := Screen.run_openDialog hc right hb hf
  have hafter := Screen.after_of_run hrun
  refine .keep (hafter ▸ hc') he rfl ?_
  obtain ⟨view, _⟩ := c
  cases view <;> rfl

theorem after_reset : (c.after appResetState) = ⟨none, .background⟩ := by
  obtain ⟨view, _⟩ := c
  cases view <;> rfl

theorem handles_answer {data : FileSelectData Buffer} {e : SdAppEvent Buffer}
    (he : ∀ data, e ≠ .fileSelect data) (hshown : c.shown = some data) (result : Bool) :
    Handles c e (.putResult ⟨result, some data⟩ :: appResetState) := by
  have hafter : c.after (.putResult ⟨result, some data⟩ :: appResetState) = ⟨none, .background⟩ :=
    (Screen.after_cons rfl).trans after_reset
  refine ⟨hafter ▸ rfl, ?_⟩
  rw [hafter, waiting_singleton he, onScreen_shown hshown]
  rfl

theorem Shows.shown (h : s.Shows c) : s.shownRequest = c.shown := h.shownRequest

theorem Shows.handles_ok (h : s.Shows c) (hc : c.Settled) : Handles c .ok s.handleOk := by
  have hstate := h.state
  have hshown := h.shown
  unfold SdApp.handleOk
  rw [← hstate, hshown]
  obtain ⟨view, state⟩ := c
  match view, state, hc with
  | none, _, rfl => exact .keep rfl nofun rfl rfl
  | some (.fileSelect data, enabled), _, rfl =>
    have he : ∀ data : FileSelectData Buffer, SdAppEvent.ok ≠ .fileSelect data := nofun
    exact handles_answer he rfl true
  | some (.dialogEx left right, enabled), state, hc =>
    split
    · exact .keep ⟨nofun, nofun⟩ nofun rfl rfl
    · exact .keep ⟨nofun, nofun⟩ nofun rfl rfl
    · next hfileSelect => exact absurd hfileSelect hc.2
    · exact .keep hc nofun rfl rfl

theorem Shows.handles_back (h : s.Shows c) (hc : c.Settled) : Handles c .back s.handleBack := by
  have hstate := h.state
  have hshown := h.shown
  unfold SdApp.handleBack
  rw [← hstate, hshown]
  obtain ⟨view, state⟩ := c
  match view, state, hc with
  | none, _, rfl => exact .keep rfl nofun rfl rfl
  | some (.fileSelect data, enabled), _, rfl =>
    have he : ∀ data : FileSelectData Buffer, SdAppEvent.back ≠ .fileSelect data := nofun
    exact handles_answer he rfl false
  | some (.dialogEx left right, enabled), state, hc =>
    split
    · exact .keep hc nofun rfl rfl
    · next hfileSelect => exact absurd hfileSelect hc.2
    · exact .keep rfl nofun rfl rfl

theorem waiting_fileSelect {data : FileSelectData Buffer} :
    waiting [.fileSelect data] = {some data} := rfl

theorem handles_refuse (hc : c.Settled) (data : FileSelectData Buffer) :
    Handles c (.fileSelect data) [.putResult ⟨false, some data⟩] := by
  refine ⟨hc, ?_⟩
  rw [waiting_fileSelect, add_comm]
  rfl

theorem Shows.handles_fileSelect (h : s.Shows c) (hc : c.Settled) (card : CardAnswer)
    (data : FileSelectData Buffer) :
    Handles c (.fileSelect data) (s.handleFileSelect card data) := by
  unfold SdApp.handleFileSelect
  split
  · exact handles_refuse hc data
  · split
    · next hnone =>
      obtain ⟨view, state⟩ := c
      obtain rfl : view = none := h.viewHolder_iff.mp hnone
      split
      · exact ⟨rfl, rfl⟩
      · split
        · exact ⟨rfl, rfl⟩
        · exact ⟨rfl, rfl⟩
    · exact handles_refuse hc data

theorem Shows.handles (h : s.Shows c) (hc : c.Settled) (card : CardAnswer)
    (e : SdAppEvent Buffer) : Handles c e (s.handle card e) := by
  cases e with
  | back => exact h.handles_back hc
  | ok => exact h.handles_ok hc
  | format => exact handles_openDialog hc _ (fun _ he => by cases he) (by decide) (by decide)
  | info => exact handles_openDialog hc _ (fun _ he => by cases he) (by decide) (by decide)
  | eject => exact handles_openDialog hc _ (fun _ he => by cases he) (by decide) (by decide)
  | fileSelect data => exact h.handles_fileSelect hc card data
  | checkError =>
    simp only [SdApp.handle]
    split
    · exact handles_openDialog hc _ (fun _ he => by cases he) (by decide) (by decide)
    · exact .keep hc (fun _ he => by cases he) rfl rfl
  | showError => exact handles_openDialog hc _ (fun _ he => by cases he) (by decide) (by decide)

/-- What a handler can do for the requests: it opens a file select view for the request that it
handles and with no view, as its first operation; it posts `back` alone; and it answers `true`
only to the request whose view is shown, when it handles `ok`. -/
structure Serves (s : SdApp Client Buffer) (e : SdAppEvent Buffer) (ops : List (AppOp Buffer)) :
    Prop where
  opening : ∀ data ops', ops = .openFileSelect data :: ops' →
    e = .fileSelect data ∧ s.viewHolder = none ∧ ∀ r ∈ opResults ops', r.result = false
  later : ∀ data, .openFileSelect data ∉ ops.tail
  posts : ∀ e, .put e ∈ ops → e = .back
  answers : ∀ r ∈ opResults ops, r.result = true →
    e = .ok ∧ s.sdAppState = .fileSelect ∧ r.request = s.shownRequest

section Serves

variable {s : SdApp Client Buffer} {e : SdAppEvent Buffer} {ops : List (AppOp Buffer)}
  {data : FileSelectData Buffer}

theorem serves_unopened (hopened : ∀ data, .openFileSelect data ∉ ops)
    (hput : ∀ e, .put e ∉ ops)
    (hanswers : ∀ r ∈ opResults ops, r.result = true →
      e = .ok ∧ s.sdAppState = .fileSelect ∧ r.request = s.shownRequest) : Serves s e ops where
  opening data _ h := absurd (h ▸ List.mem_cons_self) (hopened data)
  later data hmem := hopened data (List.mem_of_mem_tail hmem)
  posts e hmem := absurd hmem (hput e)
  answers := hanswers

theorem serves_opened (hholder : s.viewHolder = none)
    (hopened : ∀ data, .openFileSelect data ∉ ops) (hput : ∀ e, .put e ∈ ops → e = .back)
    (hanswers : ∀ r ∈ opResults ops, r.result = false) :
    Serves s (.fileSelect data) (.openFileSelect data :: ops) where
  opening data' ops' h := by
    obtain ⟨hdata, rfl⟩ := List.cons.inj h
    obtain rfl := AppOp.openFileSelect.inj hdata
    exact ⟨rfl, hholder, hanswers⟩
  later := hopened
  posts e hmem := by
    rcases List.mem_cons.mp hmem with h | h
    · cases h
    · exact hput e h
  answers r hr htrue := by
    rw [hanswers r hr] at htrue
    cases htrue

theorem serves_handleOk : Serves s .ok s.handleOk := by
  unfold handleOk
  split
  · exact serves_unopened (by simp) (by simp) (by simp [opResults, putResults])
  · exact serves_unopened (by simp) (by simp) (by simp [opResults, putResults])
  · next hstate =>
    apply serves_unopened
    · simp [appResetState]
    · simp [appResetState]
    · simp [appResetState, opResults, putResults, hstate]
  · exact serves_unopened (by simp) (by simp) (by simp [opResults])

theorem serves_handleBack : Serves s .back s.handleBack := by
  unfold handleBack
  split
  · exact serves_unopened (by simp) (by simp) (by simp [opResults])
  · apply serves_unopened
    · simp [appResetState]
    · simp [appResetState]
    · simp [appResetState, opResults, putResults]
  · apply serves_unopened
    · simp [appResetState]
    · simp [appResetState]
    · simp [appResetState, opResults, putResults]

theorem serves_refused (data : FileSelectData Buffer) :
    Serves s e [.putResult ⟨false, some data⟩] :=
  serves_unopened (by simp) (by simp) (by simp [opResults, putResults])

theorem serves_handleFileSelect (card : CardAnswer) :
    Serves s (.fileSelect data) (s.handleFileSelect card data) := by
  unfold handleFileSelect
  split_ifs with hpath hholder hinit hfill
  · exact serves_refused data
  · apply serves_opened hholder
    · simp [appResetState]
    · simp [appResetState]
    · simp [appResetState, opResults, putResults]
  · exact serves_opened hholder (by simp) (by simp) (by simp [opResults, putResults])
  · exact serves_opened hholder (by simp) (by simp) (by simp [opResults, putResults])
  · exact serves_refused data

end Serves

theorem serves_handle (s : SdApp Client Buffer) (card : CardAnswer) (e : SdAppEvent Buffer) :
    Serves s e (s.handle card e) := by
  cases e with
  | ok => exact serves_handleOk
  | back => exact serves_handleBack
  | fileSelect data => exact serves_handleFileSelect card
  | checkError =>
    simp only [handle]
    split
    · exact serves_unopened (by simp) (by simp) (by simp [opResults, putResults])
    · exact serves_unopened (by simp) (by simp) (by simp [opResults])
  | format | info | eject | showError =>
    exact serves_unopened (by simp [handle]) (by simp [handle])
      (by simp [handle, opResults, putResults])

section Alone

variable {data : FileSelectData Buffer}

theorem tokens_eq_zero (h : s.tokens c = 0) :
    queued s.eventQueue = [] ∧ (c.after s.ops).shown = none ∧ opResults s.ops = [] ∧
      s.resultReceiver = [] := by
  simpa [tokens, waiting, onScreen, requests, and_assoc] using h

theorem tokens_result {x : Option (FileSelectData Buffer)} {r : FileSelectResultEvent Buffer}
    {results : List (FileSelectResultEvent Buffer)} (h : s.tokens c = {x})
    (hr : s.resultReceiver = r :: results) :
    r.request = x ∧ { s with resultReceiver := results }.tokens c = 0 := by
  have hcons : s.tokens c = r.request ::ₘ { s with resultReceiver := results }.tokens c := by
    have hcons : requests s.resultReceiver = r.request ::ₘ requests results := by
      rw [hr]
      rfl
    rw [tokens, hcons, Multiset.add_cons]
    rfl
  rw [hcons] at h
  obtain ⟨hx, hzero⟩ := (Multiset.singleton_eq_cons_iff _).mp h.symm
  exact ⟨hx.symm, hzero⟩

end Alone

end SdApp

end FlipperZero.SdFilesystem
