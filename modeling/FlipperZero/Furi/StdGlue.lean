import FlipperZero.Lib.Monitor
import FlipperZero.Mlib.Containers

/-! # Standard output

What a thread prints goes to the global outputs of the other threads and to the output of the
thread itself. The outputs are dictionaries from threads to callbacks under one mutex that is not
recursive, and a write runs the callbacks while it holds the mutex.
-/

namespace FlipperZero.StdGlue

open Lib Mlib

structure FuriStdglue (D : Type) where
  globalOutputs : D
  threadOutputs : D

inductive Op (F B : Type) where
  | setGlobalStdoutCallback (callback : Option F)
  | setThreadStdoutCallback (callback : Option F)
  | stdoutWrite (data : B)

/-- Where a call is: a write has the rest of the global outputs to visit. -/
inductive Pc (T F B : Type) where
  | setGlobal (thread : T) (callback : Option F)
  | setThread (thread : T) (callback : Option F)
  | globals (thread : T) (data : B) (rest : List (T × F))

structure Deliver (F B : Type) where
  callback : F
  data : B
deriving DecidableEq

variable {T F B D : Type} [DecidableEq T] [DictIter D T F]

def setCallback (outputs : D) (thread : T) : Option F → D
  | some callback => Dict.setAt outputs thread callback
  | none => Dict.erase outputs thread

def enter (thread : T) : Op F B → FuriStdglue D → Pc T F B
  | .setGlobalStdoutCallback callback, _ => .setGlobal thread callback
  | .setThreadStdoutCallback callback, _ => .setThread thread callback
  | .stdoutWrite data, glue => .globals thread data (DictIter.entries glue.globalOutputs)

def work : Pc T F B → FuriStdglue D →
    FuriStdglue D × List (Deliver F B) × (Pc T F B ⊕ Bool)
  | .setGlobal thread callback, glue =>
    ({ glue with globalOutputs := setCallback glue.globalOutputs thread callback }, [], .inr true)
  | .setThread thread callback, glue =>
    ({ glue with threadOutputs := setCallback glue.threadOutputs thread callback }, [], .inr true)
  | .globals thread data [], glue =>
    let callbacks := (Dict.get glue.threadOutputs thread).toList
    (glue, callbacks.map fun callback => ⟨callback, data⟩, .inr true)
  | .globals thread data ((other, callback) :: rest), glue =>
    let delivered := if thread ≠ other then [⟨callback, data⟩] else []
    (glue, delivered, .inl (.globals thread data rest))

def stdGlue : Monitor T (FuriStdglue D) (Op F B) (Pc T F B) (Deliver F B) Bool where
  init := ⟨Dict.init, Dict.init⟩
  enter := enter
  work := work

abbrev Seen (T F B : Type) := Monitor.Observed T (Op F B) (Deliver F B) Bool

/-- The callbacks that the threads have set. -/
structure Outputs (T F : Type) where
  globals : T → Option F
  threads : T → Option F

def afterSeen (outputs : Outputs T F) : Seen T F B → Outputs T F
  | .ret t (.setGlobalStdoutCallback callback) _ =>
    { outputs with globals := Function.update outputs.globals t callback }
  | .ret t (.setThreadStdoutCallback callback) _ =>
    { outputs with threads := Function.update outputs.threads t callback }
  | _ => outputs

def outputs (seen : List (Seen T F B)) : Outputs T F :=
  seen.foldl afterSeen ⟨fun _ => none, fun _ => none⟩

/-- What the callbacks of the other threads get from a write, when they are visited in an order. -/
def toOthers (entries : List (T × F)) (t : T) (data : B) : List (Deliver F B) :=
  (entries.filter fun e => t ≠ e.1).map fun e => ⟨e.2, data⟩

def toOwn (glue : FuriStdglue D) (t : T) (data : B) : List (Deliver F B) :=
  (Dict.get glue.threadOutputs t).toList.map fun callback => ⟨callback, data⟩

variable {s s' : FuriStdglue D} {t : T} {data : B} {es : List (Deliver F B)} {k : Pc T F B}
  {entries : List (T × F)} {c : Monitor.Call T (Op F B) (Deliver F B) Bool}
  {cs : List (Monitor.Call T (Op F B) (Deliver F B) Bool)} {out : Outputs T F}

theorem works_globals (h : stdGlue.Works (.globals t data entries) s es k s') :
    ∃ done rest, entries = done ++ rest ∧ k = .globals t data rest ∧ s' = s ∧
      es = toOthers done t data := by
  generalize hk : Pc.globals t data entries = k₀ at h
  induction h with
  | refl => exact ⟨[], entries, rfl, hk.symm, rfl, rfl⟩
  | step _ hw ih =>
    obtain ⟨done, rest, rfl, rfl, rfl, rfl⟩ := ih
    cases rest with
    | nil => cases hw
    | cons e rest =>
      obtain ⟨other, callback⟩ := e
      cases hw
      refine ⟨done ++ [(other, callback)], rest, by simp, rfl, rfl, ?_⟩
      by_cases hother : t = other <;> simp [toOthers, hother]

/-- What one call does, with what it emits. -/
inductive Effect (s : FuriStdglue D) (t : T) :
    Op F B → List (Deliver F B) → FuriStdglue D → Prop
  | setGlobal (callback : Option F) : Effect s t (.setGlobalStdoutCallback callback) []
      { s with globalOutputs := setCallback s.globalOutputs t callback }
  | setThread (callback : Option F) : Effect s t (.setThreadStdoutCallback callback) []
      { s with threadOutputs := setCallback s.threadOutputs t callback }
  | write (data : B) : Effect s t (.stdoutWrite data)
      (toOthers (DictIter.entries s.globalOutputs) t data ++ toOwn s t data) s

theorem effect_of_completes (h : stdGlue.Completes s c s') :
    Effect s c.thread c.op c.events s' ∧ c.result = true := by
  obtain ⟨t, op, events, result⟩ := c
  cases op with
  | setGlobalStdoutCallback callback =>
    obtain ⟨rfl, rfl, rfl⟩ := h.of_inr rfl
    exact ⟨.setGlobal callback, rfl⟩
  | setThreadStdoutCallback callback =>
    obtain ⟨rfl, rfl, rfl⟩ := h.of_inr rfl
    exact ⟨.setThread callback, rfl⟩
  | stdoutWrite data =>
    obtain ⟨hworks, hend, hes⟩ := h
    obtain ⟨done, rest, hentries, rfl, rfl, rfl⟩ := works_globals hworks
    cases rest with
    | nil =>
      cases hend
      dsimp only at hes
      subst hes
      rw [List.append_nil] at hentries
      rw [← hentries]
      exact ⟨.write data, rfl⟩
    | cons e rest => cases hend

/-- The dictionaries hold what the threads have set. -/
structure Holds (s : FuriStdglue D) (out : Outputs T F) : Prop where
  globals : ∀ t, Dict.get s.globalOutputs t = out.globals t
  threads : ∀ t, Dict.get s.threadOutputs t = out.threads t

theorem get_setCallback (d : D) (t u : T) (callback : Option F) :
    Dict.get (setCallback d t callback) u = Function.update (Dict.get d) t callback u := by
  by_cases hu : u = t
  · subst hu
    cases callback <;> simp [setCallback]
  · rw [Function.update_of_ne hu]
    cases callback with
    | none => exact Dict.get_erase_of_ne _ _ _ hu
    | some callback => exact Dict.get_setAt_of_ne _ _ _ _ hu

omit [DictIter D T F] in
theorem foldl_afterSeen_emit :
    (es.map (Monitor.Observed.emit t)).foldl afterSeen out = out := by
  induction es with
  | nil => rfl
  | cons e es ih => exact ih

theorem Holds.completes (h : Holds s out) (hc : stdGlue.Completes s c s') :
    Holds s' (c.observed.foldl afterSeen out) := by
  rw [Monitor.Call.observed, List.foldl_append, foldl_afterSeen_emit]
  obtain ⟨heffect, -⟩ := effect_of_completes hc
  obtain ⟨t, op, events, result⟩ := c
  dsimp only at heffect
  cases heffect with
  | setGlobal callback =>
    refine ⟨?_, h.threads⟩
    intro u
    rw [get_setCallback, funext h.globals]
    rfl
  | setThread callback =>
    refine ⟨h.globals, ?_⟩
    intro u
    rw [get_setCallback, funext h.threads]
    rfl
  | write data => exact h

theorem holds_of_serial (h : stdGlue.Serial cs s) :
    Holds s (outputs (cs.flatMap Monitor.Call.observed)) := by
  induction h with
  | nil => exact ⟨Dict.get_init, Dict.get_init⟩
  | snoc h hc ih =>
    rw [List.flatMap_append, List.flatMap_singleton, outputs, List.foldl_append]
    exact ih.completes hc

theorem toOthers_eq (h : Holds s out) (t : T) (data : B) : ∃ others : List T, others.Nodup ∧
    (∀ u, u ∈ others ↔ u ≠ t ∧ (out.globals u).isSome) ∧
    toOthers (DictIter.entries s.globalOutputs) t data =
      (others.filterMap out.globals).map fun callback => ⟨callback, data⟩ := by
  refine ⟨((DictIter.entries s.globalOutputs).filter fun e => t ≠ e.1).map Prod.fst, ?_, ?_, ?_⟩
  · exact (DictIter.nodup_entries s.globalOutputs).sublist (List.filter_sublist.map _)
  · intro u
    simp only [Option.isSome_iff_exists, ← h.globals, ← DictIter.mem_entries, List.mem_map,
      List.mem_filter]
    grind
  · rw [toOthers, List.filterMap_map, List.map_filterMap, ← List.filterMap_eq_map]
    refine List.filterMap_congr ?_
    rintro ⟨u, callback⟩ he
    have hget := (DictIter.mem_entries _ _ _).mp (List.mem_of_mem_filter he)
    rw [h.globals] at hget
    simp [hget]

omit [DecidableEq T] in
theorem mem_toOwn (h : Holds s out) {e : Deliver F B} (he : e ∈ toOwn s t data) :
    out.threads t = some e.callback := by
  rw [toOwn, h.threads] at he
  obtain ⟨callback, hcallback, rfl⟩ := List.mem_map.mp he
  simpa using hcallback

theorem mem_toOthers (h : Holds s out) {e : Deliver F B}
    (he : e ∈ toOthers (DictIter.entries s.globalOutputs) t data) :
    ∃ u ≠ t, out.globals u = some e.callback := by
  obtain ⟨⟨u, callback⟩, hu, rfl⟩ := List.mem_map.mp he
  obtain ⟨hmem, hut⟩ := List.mem_filter.mp hu
  refine ⟨u, Ne.symm (by simpa using hut), ?_⟩
  rw [← h.globals]
  exact (DictIter.mem_entries _ _ _).mp hmem

theorem emits_registered {op : Op F B} {e : Deliver F B} (h : Holds s out)
    (hemits : stdGlue.Emits s t op es) (he : e ∈ es) :
    (∃ u ≠ t, out.globals u = some e.callback) ∨ out.threads t = some e.callback := by
  rcases hemits with ⟨k, s', hworks⟩ | ⟨c, s', hc, rfl, rfl, rfl⟩
  · cases op with
    | setGlobalStdoutCallback callback =>
      obtain ⟨-, -, rfl⟩ := hworks.of_inr rfl
      simp at he
    | setThreadStdoutCallback callback =>
      obtain ⟨-, -, rfl⟩ := hworks.of_inr rfl
      simp at he
    | stdoutWrite data =>
      obtain ⟨done, rest, hentries, -, -, rfl⟩ := works_globals hworks
      have hmem : e ∈ toOthers (DictIter.entries s.globalOutputs) t data := by
        rw [hentries, toOthers, List.filter_append, List.map_append]
        exact List.mem_append_left _ he
      exact .inl (mem_toOthers h hmem)
  · obtain ⟨heffect, -⟩ := effect_of_completes hc
    obtain ⟨t, op, events, result⟩ := c
    dsimp only at heffect
    cases heffect with
    | write data =>
      rcases List.mem_append.mp he with he | he
      · exact .inl (mem_toOthers h he)
      · exact .inr (mem_toOwn h he)
    | _ => simp at he

abbrev State (T F B D : Type) :=
  Monitor.State T (FuriStdglue D) (Op F B) (Pc T F B) (Deliver F B) Bool

/-- The threads that print and set their callbacks, in any order of their steps. -/
abbrev system : Machine (State T F B D) (Monitor.Label T (Op F B)) := stdGlue.machine

variable {st : State T F B D}

/-- A write that returns has run the global callback of each other thread once and then the
callback of the thread itself, as they were set last, and nothing of another write in between.
No callback runs that is not set. -/
theorem writes_delivered (h : (system (D := D)).Reachable st) (seen rest : List (Seen T F B)) :
    (∀ t data r, st.trace = seen ++ .ret t (.stdoutWrite data) r :: rest → r = true ∧
      ∃ before, ∃ others : List T, others.Nodup ∧
        (∀ u, u ∈ others ↔ u ≠ t ∧ ((outputs seen).globals u).isSome) ∧
        seen = before ++ (others.filterMap (outputs seen).globals ++
          ((outputs seen).threads t).toList).map fun callback => .emit t ⟨callback, data⟩) ∧
    ∀ t e, st.trace = seen ++ .emit t e :: rest →
      (∃ u ≠ t, (outputs seen).globals u = some e.callback) ∨
        (outputs seen).threads t = some e.callback := by
  have hout (cs : List (Monitor.Call T (Op F B) (Deliver F B) Bool)) (t : T)
      (es : List (Deliver F B)) :
      outputs (cs.flatMap Monitor.Call.observed ++ es.map (.emit t)) =
        outputs (cs.flatMap Monitor.Call.observed) := by
    rw [outputs, List.foldl_append, foldl_afterSeen_emit]
    rfl
  refine ⟨?_, ?_⟩
  · rintro t data r hx
    obtain ⟨cs, s, hserial, ⟨_, _, _, _, _, ⟨⟩, -⟩ | ⟨c, s', hc, heq, hseen⟩⟩ :=
      Monitor.explained_at h hx
    have hholds := holds_of_serial hserial
    rw [← hout cs c.thread c.events, ← hseen] at hholds
    obtain ⟨heffect, hresult⟩ := effect_of_completes hc
    obtain ⟨t', op, events, result⟩ := c
    obtain ⟨rfl, rfl, rfl⟩ := by simpa using heq
    refine ⟨hresult, ?_⟩
    dsimp only at heffect hseen
    cases heffect with
    | write =>
      obtain ⟨others, hnodup, hmem, hothers⟩ := toOthers_eq hholds t data
      refine ⟨cs.flatMap Monitor.Call.observed, others, hnodup, hmem, ?_⟩
      refine hseen.trans (congrArg _ ?_)
      rw [hothers, toOwn, hholds.threads, ← List.map_append, List.map_map]
      rfl
  · rintro t e hx
    obtain ⟨cs, s, hserial, ⟨t', op, e', es, es', heq, hemits, hseen⟩ | ⟨_, _, _, ⟨⟩, -⟩⟩ :=
      Monitor.explained_at h hx
    have hholds := holds_of_serial hserial
    rw [← hout cs t' es, ← hseen] at hholds
    obtain ⟨rfl, rfl⟩ := by simpa using heq
    exact emits_registered hholds hemits (by simp)

section Run

abbrev Example := Monitor.Label ℕ (Op ℕ ℕ)

/-- A thread takes the output of the others, and another thread writes. -/
theorem writes_delivered_log : ∃ st : State ℕ ℕ ℕ (ListDict ℕ ℕ), system.Reachable st ∧
    st.trace = [.ret 0 (.setGlobalStdoutCallback (some 7)) true, .emit 1 ⟨7, 9⟩] ∧
    let seen : List (Seen ℕ ℕ ℕ) := [.ret 0 (.setGlobalStdoutCallback (some 7)) true]
    (∃ u ≠ 1, (outputs seen).globals u = some 7) ∨ (outputs seen).threads 1 = some 7 := by
  let labels : List Example := [.call 0 (.setGlobalStdoutCallback (some 7)), .acquire 0, .work 0,
    .call 1 (.stdoutWrite 9), .acquire 1, .work 1]
  obtain ⟨st, hexec, htrace⟩ : ∃ st : State ℕ ℕ ℕ (ListDict ℕ ℕ),
      system.exec system.init labels = some st ∧
      st.trace = [.ret 0 (.setGlobalStdoutCallback (some 7)) true, .emit 1 ⟨7, 9⟩] :=
    ⟨_, rfl, rfl⟩
  have hreach := Machine.exec_reachable .init hexec
  exact ⟨st, hreach, htrace, (writes_delivered hreach [_] []).2 1 ⟨7, 9⟩ htrace⟩

end Run

end FlipperZero.StdGlue
