import Mathlib.Data.List.Basic
import Mathlib.Logic.Function.Iterate

/-! # B+ trees of M*LIB

What the code relies on of a `BPTREE_DEF2` map. A lookup returns a pointer to a value inside
the tree; of what the pointer reads after the tree has changed, nothing is said. A leaf node,
which keeps its values side by side and shifts them on a change, gives an instance.
-/

namespace FlipperZero.Mlib

class BPTree (T : Type) (K V Ref : outParam Type) where
  init : T
  /-- The pointer to the value of a key, `none` for `NULL`. -/
  get : T → K → Option Ref
  /-- The value in the memory of the tree that a pointer points to. -/
  read : T → Ref → Option V
  setAt : T → K → V → T
  erase : T → K → T
  get_init : ∀ k, get init k = none
  isSome_read : ∀ t k r, get t k = some r → (read t r).isSome
  lookup_setAt_self : ∀ t k v, (get (setAt t k v) k).bind (read (setAt t k v)) = some v
  lookup_setAt_of_ne : ∀ t k v k', k' ≠ k →
    (get (setAt t k v) k').bind (read (setAt t k v)) = (get t k').bind (read t)
  get_erase_self : ∀ t k, get (erase t k) k = none
  lookup_erase_of_ne : ∀ t k k', k' ≠ k →
    (get (erase t k) k').bind (read (erase t k)) = (get t k').bind (read t)

namespace BPTree

variable {T K V Ref : Type} [BPTree T K V Ref] {t : T} {k k' : K} {v : V} {r : Ref}

def lookup (t : T) (k : K) : Option V := (get t k).bind (read t)

theorem lookup_eq_read (h : get t k = some r) : lookup t k = read t r := by
  rw [lookup, h]
  rfl

theorem lookup_eq_none (h : get t k = none) : lookup t k = none := by
  rw [lookup, h]
  rfl

theorem isSome_lookup (h : get t k = some r) : (lookup t k).isSome := by
  rw [lookup_eq_read h]
  exact isSome_read t k r h

@[simp] theorem lookup_setAt (t : T) (k : K) (v : V) : lookup (setAt t k v) k = some v :=
  lookup_setAt_self t k v

theorem lookup_setAt_ne (h : k' ≠ k) : lookup (setAt t k v) k' = lookup t k' :=
  lookup_setAt_of_ne t k v k' h

@[simp] theorem lookup_erase (t : T) (k : K) : lookup (erase t k) k = none :=
  lookup_eq_none (get_erase_self t k)

theorem lookup_erase_ne (h : k' ≠ k) : lookup (erase t k) k' = lookup t k' :=
  lookup_erase_of_ne t k k' h

end BPTree

/-- A leaf node: its keys and values in the order of the keys, and what the places behind the
last value still hold. -/
structure Leaf (K V : Type) where
  entries : List (K × V)
  stale : List V
deriving DecidableEq, Repr

namespace Leaf

variable {K V : Type} [DecidableEq K]

def get (t : Leaf K V) (k : K) : Option ℕ := t.entries.findIdx? (·.1 = k)

def read (t : Leaf K V) (r : ℕ) : Option V := (t.entries.map Prod.snd ++ t.stale)[r]?

variable {t : Leaf K V} {k k' : K} {v : V}

theorem lookup_eq (t : Leaf K V) (k : K) :
    (t.get k).bind t.read = (t.entries.find? (·.1 = k)).map Prod.snd := by
  obtain ⟨entries, stale⟩ := t
  simp only [get]
  induction entries with
  | nil => rfl
  | cons e es ih =>
    by_cases he : e.1 = k
    · simp [List.findIdx?_cons, he, read]
    · have hread : (fun r => read ⟨e :: es, stale⟩ (r + 1)) = read ⟨es, stale⟩ := rfl
      simpa [List.findIdx?_cons, he, Option.bind_map, Function.comp_def, hread] using ih

theorem get_eq_none : t.get k = none ↔ ∀ e ∈ t.entries, e.1 ≠ k := by
  simp [get, List.findIdx?_eq_none_iff]

theorem get_isSome (h : (t.get k).isSome) : ∃ e ∈ t.entries, e.1 = k := by
  by_contra hno
  rw [get_eq_none.mpr fun e he hk => hno ⟨e, he, hk⟩] at h
  cases h

theorem find_map_self (es : List (K × V)) (h : ∃ e ∈ es, e.1 = k) :
    ((es.map fun e => if e.1 = k then (k, v) else e).find? (·.1 = k)).map Prod.snd = some v := by
  induction es with
  | nil => simp at h
  | cons e es ih =>
    by_cases he : e.1 = k
    · simp [he]
    · simp only [List.map_cons, he, if_false, List.find?_cons, decide_false]
      apply ih
      simpa [he] using h

theorem find_map_ne (hk : k' ≠ k) (es : List (K × V)) :
    (es.map fun e => if e.1 = k then (k, v) else e).find? (·.1 = k') =
      es.find? (·.1 = k') := by
  induction es with
  | nil => rfl
  | cons e es ih =>
    by_cases he : e.1 = k
    · simp [he, hk.symm, ih]
    · by_cases he' : e.1 = k'
      · simp only [List.map_cons, he, if_false]
        rw [List.find?_cons_of_pos (by simpa using he'), List.find?_cons_of_pos (by simpa using he')]
      · simp [he, he', ih]

theorem find_filter_ne (hk : k' ≠ k) (es : List (K × V)) :
    (es.filter (·.1 ≠ k)).find? (·.1 = k') = es.find? (·.1 = k') := by
  induction es with
  | nil => rfl
  | cons e es ih =>
    by_cases he : e.1 = k
    · rw [List.filter_cons_of_neg (by simpa using he), ih, List.find?_cons_of_neg]
      simpa [he] using hk.symm
    · rw [List.filter_cons_of_pos (by simpa using he), List.find?_cons, List.find?_cons, ih]

variable [LT K] [DecidableLT K]

/-- Put a new entry before the first one with a greater key. -/
def insert (k : K) (v : V) : List (K × V) → List (K × V)
  | [] => [(k, v)]
  | e :: es => if k < e.1 then (k, v) :: e :: es else e :: insert k v es

def setAt (t : Leaf K V) (k : K) (v : V) : Leaf K V :=
  if (t.get k).isSome then
    { t with entries := t.entries.map fun e => if e.1 = k then (k, v) else e }
  else { entries := insert k v t.entries, stale := t.stale.tail }

/-- The values behind the erased one move up; the last place keeps its value. -/
def erase (t : Leaf K V) (k : K) : Leaf K V :=
  if (t.get k).isSome then
    { entries := t.entries.filter (·.1 ≠ k)
      stale := (t.entries.getLast?.map Prod.snd).toList ++ t.stale }
  else t

theorem find_insert_self (es : List (K × V)) (h : ∀ e ∈ es, e.1 ≠ k) :
    ((insert k v es).find? (·.1 = k)).map Prod.snd = some v := by
  induction es with
  | nil => simp [insert]
  | cons e es ih =>
    unfold insert
    split
    · simp
    · have he : e.1 ≠ k := h e (by simp)
      simp only [List.find?_cons, he, decide_false]
      exact ih fun e' he' => h e' (by simp [he'])

theorem find_insert_ne (hk : k' ≠ k) (es : List (K × V)) :
    (insert k v es).find? (·.1 = k') = es.find? (·.1 = k') := by
  induction es with
  | nil => simp [insert, hk.symm]
  | cons e es ih =>
    unfold insert
    split
    · simp [hk.symm]
    · simp only [List.find?_cons, ih]

end Leaf

instance {K V : Type} [DecidableEq K] [LT K] [DecidableLT K] : BPTree (Leaf K V) K V ℕ where
  init := ⟨[], []⟩
  get := Leaf.get
  read := Leaf.read
  setAt := Leaf.setAt
  erase := Leaf.erase
  get_init _ := rfl
  isSome_read t k r h := by
    obtain ⟨hlt, -⟩ := List.findIdx?_eq_some_iff_getElem.mp h
    rw [Leaf.read, List.getElem?_append_left (by simpa using hlt)]
    simpa using hlt
  lookup_setAt_self t k v := by
    rw [Leaf.lookup_eq]
    unfold Leaf.setAt
    split
    · next h => exact Leaf.find_map_self _ (Leaf.get_isSome h)
    · next h =>
      apply Leaf.find_insert_self
      exact Leaf.get_eq_none.mp (by simpa using h)
  lookup_setAt_of_ne t k v k' hk := by
    rw [Leaf.lookup_eq, Leaf.lookup_eq]
    unfold Leaf.setAt
    split
    · rw [Leaf.find_map_ne hk]
    · rw [Leaf.find_insert_ne hk]
  get_erase_self t k := by
    unfold Leaf.erase
    split
    · rw [Leaf.get_eq_none]
      intro e he
      simpa using (List.mem_filter.mp he).2
    · next h => simpa using h
  lookup_erase_of_ne t k k' hk := by
    rw [Leaf.lookup_eq, Leaf.lookup_eq]
    unfold Leaf.erase
    split
    · rw [Leaf.find_filter_ne hk]
    · rfl

/-- The iterators of a tree: they go through its keys once each, in their order. -/
class BPTreeIter (T : Type) (K It : outParam Type) where
  size : T → ℕ
  it : T → It
  next : T → It → It
  itEqual : It → It → Bool
  /-- The key at an iterator, `none` when that has passed the end. -/
  ref : T → It → Option K
  keys : T → List K
  keys_nodup : ∀ t, (keys t).Nodup
  size_eq : ∀ t, size t = (keys t).length
  ref_iterate : ∀ t, ∀ k ≤ size t, ref t ((next t)^[k] (it t)) = (keys t)[k]?
  itEqual_iterate : ∀ t, ∀ k ≤ size t, ∀ l ≤ size t,
    itEqual ((next t)^[k] (it t)) ((next t)^[l] (it t)) = decide (k = l)

theorem Leaf.succ_iterate (k : ℕ) : (fun l : ℕ => l + 1)^[k] 0 = k := by
  induction k with
  | zero => rfl
  | succ k ih => rw [Function.iterate_succ_apply', ih]

instance {K V : Type} : BPTreeIter {t : Leaf K V // (t.entries.map Prod.fst).Nodup} K ℕ where
  size t := t.1.entries.length
  it _ := 0
  next _ k := k + 1
  itEqual k l := decide (k = l)
  ref t k := (t.1.entries.map Prod.fst)[k]?
  keys t := t.1.entries.map Prod.fst
  keys_nodup t := t.2
  size_eq t := by rw [List.length_map]
  ref_iterate t k _ := by rw [Leaf.succ_iterate]
  itEqual_iterate t k _ l _ := by rw [Leaf.succ_iterate, Leaf.succ_iterate]

end FlipperZero.Mlib
