import FlipperZero.Lib.Monitor
import FlipperZero.Mlib.Containers

/-! # Publish and subscribe

The subscriptions of a publisher are a list under a mutex that is not recursive. A call to
`notify_pubsub` runs one callback after another while it holds the mutex. The memory of a
subscription that was removed may be given to a later one.
-/

namespace FlipperZero.PubSub

open Lib Mlib

/-- A subscription, with the address of its node. -/
structure PubSubItem (A F C : Type) where
  id : A
  cb : F
  ctx : C
deriving DecidableEq

/-- The memory for a new node. What it depends on is the hint; it is not in use. -/
class Allocator (A : Type) (H : outParam Type) where
  alloc : H → List A → A
  alloc_fresh : ∀ h used, alloc h used ∉ used

inductive Op (A F C G H : Type) where
  | subscribe (hint : H) (cb : F) (ctx : C)
  | unsubscribe (id : A)
  | notify (arg : G)

/-- Where a call is: a notification has the rest of the subscriptions to call. -/
inductive Pc (A F C G H : Type) where
  | subscribe (hint : H) (cb : F) (ctx : C)
  | unsubscribe (id : A)
  | notify (arg : G) (rest : List (PubSubItem A F C))

/-- A callback runs with its context and the argument. -/
structure Invoke (A F C G : Type) where
  item : PubSubItem A F C
  arg : G

inductive Result (A F C : Type) where
  | item (item : PubSubItem A F C)
  | ok (result : Bool)

variable {A F C G H L θ : Type} [DecidableEq A] [DecidableEq F] [DecidableEq C]
  [LinkedList L (PubSubItem A F C)] [Allocator A H]

/-- `unsubscribe_pubsub` under the mutex: the loop over the rest of the items. -/
def unsubscribeLoop (items : L) (id : A) : List (PubSubItem A F C) → L × Bool
  | [] => (items, false)
  | item :: rest =>
    if item.id = id then (LinkedList.remove items item, true) else unsubscribeLoop items id rest

def enter : Op A F C G H → L → Pc A F C G H
  | .subscribe hint cb ctx, _ => .subscribe hint cb ctx
  | .unsubscribe id, _ => .unsubscribe id
  | .notify arg, items => .notify arg (LinkedList.toList items)

def work : Pc A F C G H → L → L × List (Invoke A F C G) × (Pc A F C G H ⊕ Result A F C)
  | .subscribe hint cb ctx, items =>
    let item := ⟨Allocator.alloc hint ((LinkedList.toList items).map PubSubItem.id), cb, ctx⟩
    (LinkedList.push items item, [], .inr (.item item))
  | .unsubscribe id, items =>
    let (items, result) := unsubscribeLoop items id (LinkedList.toList items)
    (items, [], .inr (.ok result))
  | .notify _ [], items => (items, [], .inr (.ok true))
  | .notify arg (item :: rest), items => (items, [⟨item, arg⟩], .inl (.notify arg rest))

def pubSub : Monitor θ L (Op A F C G H) (Pc A F C G H) (Invoke A F C G) (Result A F C) where
  init := LinkedList.init
  enter _ := enter
  work := work

abbrev Seen (θ A F C G H : Type) :=
  Monitor.Observed θ (Op A F C G H) (Invoke A F C G) (Result A F C)

def afterSeen (items : List (PubSubItem A F C)) : Seen θ A F C G H → List (PubSubItem A F C)
  | .ret _ (.subscribe ..) (.item item) => item :: items
  | .ret _ (.unsubscribe id) (.ok true) => items.filter fun item => item.id ≠ id
  | _ => items

/-- The subscriptions after what has been seen: those made and not removed since. -/
def subscribers (seen : List (Seen θ A F C G H)) : List (PubSubItem A F C) :=
  seen.foldl afterSeen []

/-- What one call does, with what it emits and returns. -/
inductive Effect (s : L) : Op A F C G H → List (Invoke A F C G) → Result A F C → L → Prop
  | subscribe (hint : H) (item : PubSubItem A F C)
      (h : item.id ∉ (LinkedList.toList s).map PubSubItem.id) :
      Effect s (.subscribe hint item.cb item.ctx) [] (.item item) (LinkedList.push s item)
  | removed (item : PubSubItem A F C) (h : item ∈ LinkedList.toList s) :
      Effect s (.unsubscribe item.id) [] (.ok true) (LinkedList.remove s item)
  | absent (id : A) (h : id ∉ (LinkedList.toList s).map PubSubItem.id) :
      Effect s (.unsubscribe id) [] (.ok false) s
  | notify (arg : G) :
      Effect s (.notify arg) ((LinkedList.toList s).map fun item => ⟨item, arg⟩) (.ok true) s

variable {s s' : L} {es : List (Invoke A F C G)} {k : Pc A F C G H}
  {items subs : List (PubSubItem A F C)} {arg : G}

theorem unsubscribeLoop_cases (s : L) (items : List (PubSubItem A F C)) (id : A) :
    (id ∉ items.map PubSubItem.id ∧ unsubscribeLoop s id items = (s, false)) ∨
      ∃ item ∈ items, item.id = id ∧
        unsubscribeLoop s id items = (LinkedList.remove s item, true) := by
  induction items with
  | nil => exact .inl ⟨by simp, rfl⟩
  | cons item rest ih =>
    by_cases hid : item.id = id
    · exact .inr ⟨item, by simp, hid, by rw [unsubscribeLoop, if_pos hid]⟩
    · rw [unsubscribeLoop, if_neg hid]
      rcases ih with ⟨hnot, hloop⟩ | ⟨found, hmem, hfound, hloop⟩
      · refine .inl ⟨?_, hloop⟩
        rw [List.map_cons, List.mem_cons, not_or]
        exact ⟨Ne.symm hid, hnot⟩
      · exact .inr ⟨found, List.mem_cons_of_mem _ hmem, hfound, hloop⟩

theorem works_notify (h : (pubSub (θ := θ)).Works (.notify arg items) s es k s') :
    ∃ done rest, items = done ++ rest ∧ k = .notify arg rest ∧ s' = s ∧
      es = done.map fun item => ⟨item, arg⟩ := by
  generalize hk : Pc.notify arg items = k₀ at h
  induction h with
  | refl => exact ⟨[], items, rfl, hk.symm, rfl, rfl⟩
  | step _ hw ih =>
    obtain ⟨done, rest, rfl, rfl, rfl, rfl⟩ := ih
    cases rest with
    | nil => cases hw
    | cons item rest =>
      cases hw
      exact ⟨done ++ [item], rest, by simp, rfl, rfl, by simp⟩

variable {c : Monitor.Call θ (Op A F C G H) (Invoke A F C G) (Result A F C)}
  {cs : List (Monitor.Call θ (Op A F C G H) (Invoke A F C G) (Result A F C))}

theorem effect_of_completes (h : pubSub.Completes s c s') :
    Effect s c.op c.events c.result s' := by
  obtain ⟨t, op, events, result⟩ := c
  cases op with
  | subscribe hint cb ctx =>
    obtain ⟨rfl, rfl, rfl⟩ := h.of_inr rfl
    let item : PubSubItem A F C :=
      ⟨Allocator.alloc hint ((LinkedList.toList s).map PubSubItem.id), cb, ctx⟩
    exact .subscribe hint item (Allocator.alloc_fresh hint _)
  | unsubscribe id =>
    rcases unsubscribeLoop_cases s (LinkedList.toList s) id with
      ⟨hnot, hloop⟩ | ⟨item, hmem, rfl, hloop⟩
    · have hw : work (G := G) (H := H) (.unsubscribe id) s = (s, [], .inr (.ok false)) := by
        rw [work, hloop]
      obtain ⟨rfl, rfl, rfl⟩ := h.of_inr hw
      exact .absent id hnot
    · have hw : work (G := G) (H := H) (.unsubscribe item.id) s =
          (LinkedList.remove s item, [], .inr (.ok true)) := by
        rw [work, hloop]
      obtain ⟨rfl, rfl, rfl⟩ := h.of_inr hw
      exact .removed item hmem
  | notify arg =>
    obtain ⟨hworks, hend, hes⟩ := h
    obtain ⟨done, rest, hitems, rfl, rfl, rfl⟩ := works_notify hworks
    cases rest with
    | nil =>
      cases hend
      obtain rfl : events = _ := hes
      rw [List.append_nil] at hitems
      rw [List.append_nil, ← hitems]
      exact .notify arg
    | cons item rest => cases hend

/-- The list holds the subscriptions, each at an address of its own. -/
structure Holds (s : L) (subs : List (PubSubItem A F C)) : Prop where
  perm : (LinkedList.toList s).Perm subs
  nodup : (subs.map PubSubItem.id).Nodup

theorem erase_eq_filter {item : PubSubItem A F C} (hn : (items.map PubSubItem.id).Nodup)
    (hmem : item ∈ items) : items.erase item = items.filter fun i => i.id ≠ item.id := by
  rw [(List.Nodup.of_map _ hn).erase_eq_filter]
  refine List.filter_congr ?_
  intro i hi
  have hiff : i ≠ item ↔ i.id ≠ item.id :=
    not_congr ⟨congrArg _, List.inj_on_of_nodup_map hn hi hmem⟩
  simpa [bne_iff_ne] using Bool.eq_iff_iff.mpr (by simpa using hiff)

omit [DecidableEq F] [DecidableEq C] [Allocator A H] in
theorem foldl_afterSeen_emit {t : θ} :
    (es.map (Monitor.Observed.emit t)).foldl (afterSeen (H := H)) subs = subs := by
  induction es with
  | nil => rfl
  | cons e es ih => exact ih

omit [DecidableEq F] [DecidableEq C] [Allocator A H] in
theorem foldl_afterSeen_observed :
    c.observed.foldl afterSeen subs = afterSeen subs (.ret c.thread c.op c.result) := by
  rw [Monitor.Call.observed, List.foldl_append, foldl_afterSeen_emit]
  rfl

theorem Holds.completes (h : Holds s subs) (hc : pubSub.Completes s c s') :
    Holds s' (c.observed.foldl afterSeen subs) := by
  rw [foldl_afterSeen_observed]
  have heffect := effect_of_completes hc
  obtain ⟨t, op, events, result⟩ := c
  cases heffect with
  | subscribe hint item hnot =>
    rw [(h.perm.map _).mem_iff] at hnot
    exact ⟨(LinkedList.toList_push s item).trans (h.perm.cons item),
      List.nodup_cons.mpr ⟨hnot, h.nodup⟩⟩
  | removed item hmem =>
    rw [h.perm.mem_iff] at hmem
    constructor
    · refine (LinkedList.toList_remove s item).trans ((h.perm.erase item).trans ?_)
      rw [erase_eq_filter h.nodup hmem]
      rfl
    · exact h.nodup.sublist (List.filter_sublist.map _)
  | absent id hnot => exact h
  | notify arg => exact h

theorem holds_of_serial (h : pubSub.Serial cs s) :
    Holds s (subscribers (cs.flatMap Monitor.Call.observed)) := by
  induction h with
  | nil =>
    constructor
    · simp [pubSub, subscribers]
    · simp [subscribers]
  | snoc h hc ih =>
    rw [List.flatMap_append, List.flatMap_singleton, subscribers, List.foldl_append]
    exact ih.completes hc

theorem emits_notify {t : θ} {op : Op A F C G H} {e : Invoke A F C G}
    (h : pubSub.Emits s t op es) (he : e ∈ es) : e.item ∈ LinkedList.toList s := by
  rcases h with ⟨k, s', hworks⟩ | ⟨c, s', hc, rfl, rfl, rfl⟩
  · cases op with
    | subscribe hint cb ctx =>
      obtain ⟨-, -, rfl⟩ := hworks.of_inr rfl
      simp at he
    | unsubscribe id =>
      obtain ⟨-, -, rfl⟩ := hworks.of_inr rfl
      simp at he
    | notify arg =>
      obtain ⟨done, rest, hitems, -, -, rfl⟩ := works_notify hworks
      obtain ⟨item, hitem, rfl⟩ := List.mem_map.mp he
      rw [hitems]
      exact List.mem_append_left _ hitem
  · have heffect := effect_of_completes hc
    obtain ⟨t, op, events, result⟩ := c
    cases heffect with
    | notify arg =>
      obtain ⟨item, hitem, rfl⟩ := List.mem_map.mp he
      exact hitem
    | _ => simp at he

section System

variable [DecidableEq θ]

abbrev State (θ A F C G H L : Type) :=
  Monitor.State θ L (Op A F C G H) (Pc A F C G H) (Invoke A F C G) (Result A F C)

/-- The threads that call a publisher, in any order of their steps. -/
abbrev system : Machine (State θ A F C G H L) (Monitor.Label θ (Op A F C G H)) := pubSub.machine

variable {st : State θ A F C G H L}

/-- A thread that goes on with its call runs one callback a step and then gives the mutex back. -/
theorem exec_notify {t : θ} (hs : st.status t = .inside (.notify arg) (.notify arg items)) :
    ∃ st', (system (L := L)).exec st (List.replicate (items.length + 1) (.work t)) = some st' ∧
      st'.mutex = none ∧ st'.trace = st.trace ++
        (items.map fun item => .emit t ⟨item, arg⟩) ++ [.ret t (.notify arg) (.ok true)] := by
  induction items generalizing st with
  | nil =>
    obtain ⟨st', hexec, hfree, htrace⟩ := Monitor.exec_inr (M := pubSub) hs rfl
    exact ⟨st', hexec, hfree, by simp [htrace]⟩
  | cons item items ih =>
    let st₁ : State θ A F C G H L :=
      { st with
        status := Function.update st.status t (.inside (.notify arg) (.notify arg items))
        trace := st.trace ++ [.emit t ⟨item, arg⟩] }
    have hstep : (system (L := L)).next st (.work t) = some st₁ :=
      Monitor.advance_inl (M := pubSub) hs rfl
    have hs₁ : st₁.status t = .inside (.notify arg) (.notify arg items) := Function.update_self ..
    obtain ⟨st', hexec, hfree, htrace⟩ := ih hs₁
    refine ⟨st', ?_, hfree, ?_⟩
    · rw [List.length_cons, List.replicate_succ, Machine.exec_cons hstep]
      exact hexec
    · simp [htrace, st₁]

end System

section Run

theorem le_foldr_max {hint a : ℕ} {used : List ℕ} (ha : a ∈ used) : a ≤ used.foldr max hint := by
  induction used with
  | nil => simp at ha
  | cons b used ih =>
    rw [List.foldr_cons]
    rcases List.mem_cons.mp ha with rfl | ha
    · exact Nat.le_max_left ..
    · exact Nat.le_trans (ih ha) (Nat.le_max_right ..)

/-- Memory beyond everything in use. -/
instance : Allocator ℕ ℕ where
  alloc hint used := used.foldr max hint + 1
  alloc_fresh hint _ hmem := absurd (@le_foldr_max hint _ _ hmem) (Nat.not_succ_le_self _)

abbrev Example := Monitor.Label ℕ (Op ℕ ℕ ℕ ℕ ℕ)

end Run

end FlipperZero.PubSub
