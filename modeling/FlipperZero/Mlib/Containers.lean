import Mathlib.Data.List.Dedup

/-! # The M*LIB containers

What the code relies on of the containers of the M*LIB library, which lies
outside the repository. A set keeps a key once, however often it is pushed, and
is iterated without repetition; a dictionary maps a key to one value; a linked
list is iterated in an order of its own. Lists and functions give an instance
of each.
-/

namespace FlipperZero.Mlib

/-- The methods that `DICT_SET_DEF` declares, with the laws of a set. -/
class DictSet (H : Type) (K : outParam Type) where
  init : H
  push : H → K → H
  erase : H → K → H
  size : H → ℕ
  /-- The keys in the order of iteration. -/
  toList : H → List K
  toList_init : toList init = []
  mem_push : ∀ h k k', k' ∈ toList (push h k) ↔ k' = k ∨ k' ∈ toList h
  mem_erase : ∀ h k k', k' ∈ toList (erase h k) ↔ k' ∈ toList h ∧ k' ≠ k
  nodup : ∀ h, (toList h).Nodup
  size_eq : ∀ h, size h = (toList h).length

/-- The methods of a `DICT_DEF2` dictionary, with the laws of a finite map. -/
class Dict (D : Type) (K : outParam Type) (V : outParam Type) where
  init : D
  get : D → K → Option V
  setAt : D → K → V → D
  erase : D → K → D
  get_init : ∀ k, get init k = none
  get_setAt_self : ∀ d k v, get (setAt d k v) k = some v
  get_setAt_of_ne : ∀ d k v k', k' ≠ k → get (setAt d k v) k' = get d k'
  get_erase_self : ∀ d k, get (erase d k) k = none
  get_erase_of_ne : ∀ d k k', k' ≠ k → get (erase d k) k' = get d k'

/-- A dictionary that is iterated: each key once, with its value. -/
class DictIter (D : Type) (K : outParam Type) (V : outParam Type) extends Dict D K V where
  entries : D → List (K × V)
  mem_entries : ∀ d k v, (k, v) ∈ entries d ↔ get d k = some v
  nodup_entries : ∀ d, ((entries d).map Prod.fst).Nodup

/-- The methods of a list that `LIST_DEF` declares. The nodes that an iteration visits are those
pushed and not removed, each once. -/
class LinkedList (L : Type) (A : outParam Type) [DecidableEq A] where
  init : L
  push : L → A → L
  remove : L → A → L
  toList : L → List A
  toList_init : toList init = []
  toList_push : ∀ l a, (toList (push l a)).Perm (a :: toList l)
  toList_remove : ∀ l a, (toList (remove l a)).Perm ((toList l).erase a)

attribute [simp] DictSet.toList_init DictSet.mem_push DictSet.mem_erase
  Dict.get_init Dict.get_setAt_self Dict.get_erase_self LinkedList.toList_init

namespace DictSet

variable {H K : Type} [DictSet H K] {h : H}

theorem size_eq_zero_iff : size h = 0 ↔ toList h = [] := by
  rw [size_eq, List.length_eq_zero_iff]

theorem not_mem_of_size_eq_zero (hs : size h = 0) (k : K) : k ∉ toList h := by
  simp [size_eq_zero_iff.mp hs]

end DictSet

/-- A set kept as a list without repetition. -/
structure ListSet (K : Type) where
  keys : List K
  nodup : keys.Nodup

instance {K : Type} [DecidableEq K] : DictSet (ListSet K) K where
  init := ⟨[], List.nodup_nil⟩
  push h k := ⟨h.keys.insert k, h.nodup.insert⟩
  erase h k := ⟨h.keys.erase k, h.nodup.erase k⟩
  size h := h.keys.length
  toList h := h.keys
  toList_init := rfl
  mem_push _ _ _ := List.mem_insert_iff
  mem_erase h _ _ := by rw [h.nodup.mem_erase_iff, and_comm]
  nodup h := h.nodup
  size_eq _ := rfl

instance {A : Type} [DecidableEq A] : LinkedList (List A) A where
  init := []
  push l a := a :: l
  remove l a := l.erase a
  toList l := l
  toList_init := rfl
  toList_push _ _ := .refl _
  toList_remove _ _ := .refl _

instance {K V : Type} [DecidableEq K] : Dict (K → Option V) K V where
  init _ := none
  get d k := d k
  setAt d k v := Function.update d k (some v)
  erase d k := Function.update d k none
  get_init _ := rfl
  get_setAt_self _ _ _ := by simp
  get_setAt_of_ne _ _ _ _ h := by simp [h]
  get_erase_self _ _ := by simp
  get_erase_of_ne _ _ _ h := by simp [h]

/-- A dictionary kept as a list of its entries. -/
structure ListDict (K V : Type) where
  entries : List (K × V)
  nodup : (entries.map Prod.fst).Nodup

namespace ListDict

variable {K V : Type} [DecidableEq K]

def get (d : ListDict K V) (k : K) : Option V :=
  (d.entries.find? fun e => e.1 = k).map Prod.snd

def erase (d : ListDict K V) (k : K) : ListDict K V where
  entries := d.entries.filter fun e => e.1 ≠ k
  nodup := d.nodup.sublist (List.filter_sublist.map _)

def setAt (d : ListDict K V) (k : K) (v : V) : ListDict K V where
  entries := (k, v) :: (d.erase k).entries
  nodup := by
    rw [List.map_cons, List.nodup_cons]
    exact ⟨by simp [erase], (d.erase k).nodup⟩

theorem mem_entries {d : ListDict K V} {k : K} {v : V} :
    (k, v) ∈ d.entries ↔ d.get k = some v := by
  unfold get
  constructor
  · intro hmem
    obtain ⟨e, he⟩ : ∃ e, d.entries.find? (fun e => e.1 = k) = some e := by
      rw [← Option.isSome_iff_exists, List.find?_isSome]
      exact ⟨_, hmem, by simp⟩
    obtain rfl : e.1 = k := by simpa using List.find?_some he
    have heq := List.inj_on_of_nodup_map d.nodup (List.mem_of_find?_eq_some he) hmem rfl
    rw [he, heq]
    rfl
  · intro hget
    obtain ⟨⟨k', v'⟩, he, rfl⟩ := Option.map_eq_some_iff.mp hget
    obtain rfl : k' = k := by simpa using List.find?_some he
    exact List.mem_of_find?_eq_some he

theorem get_eq_of_mem_iff {d d' : ListDict K V} {k : K}
    (h : ∀ v, (k, v) ∈ d.entries ↔ (k, v) ∈ d'.entries) : d.get k = d'.get k := by
  ext v
  rw [← Option.mem_def, ← Option.mem_def, Option.mem_def, Option.mem_def, ← mem_entries, h,
    mem_entries]

instance : DictIter (ListDict K V) K V where
  init := ⟨[], List.nodup_nil⟩
  get := get
  setAt := setAt
  erase := erase
  entries d := d.entries
  get_init _ := rfl
  get_setAt_self d k v := mem_entries.mp List.mem_cons_self
  get_setAt_of_ne d k v k' h := get_eq_of_mem_iff (by simp [setAt, erase, h])
  get_erase_self d k := by
    rw [Option.eq_none_iff_forall_ne_some]
    intro v hv
    have hmem := mem_entries.mpr hv
    simp [erase] at hmem
  get_erase_of_ne d k k' h := get_eq_of_mem_iff (by simp [erase, h])
  mem_entries d k v := mem_entries
  nodup_entries d := d.nodup

end ListDict

end FlipperZero.Mlib
