import Mathlib.Order.PiLex
import Mathlib.Data.Finset.Sort
import Mathlib.Data.Fintype.Order
import Mathlib.Order.Fin.Basic

/-! # Depth-first search of a binary trie with one saved branch

A trie says which bit may follow each prefix of an `n`-bit word. A pass walks from
the root to a leaf; where both bits are allowed it copies the previous leaf above a
given depth, takes `true` at that depth and `false` below. The deepest branch at which
a leaf takes `false` is all that has to be remembered to find the next leaf.
-/

namespace FlipperZero.Lib

/-- Words of `n` bits; `toLex` orders them by their first difference. -/
abbrev Word (n : ℕ) := Fin n → Bool

theorem toLex_lt_iff {n : ℕ} {v w : Word n} :
    toLex v < toLex w ↔ ∃ k, (∀ j < k, v j = w j) ∧ v k = false ∧ w k = true := by
  constructor
  · rintro ⟨k, hpre, hlt⟩
    exact ⟨k, hpre, Bool.lt_iff.mp hlt⟩
  · rintro ⟨k, hpre, hlt⟩
    exact ⟨k, hpre, Bool.lt_iff.mpr hlt⟩

theorem agree_of_between {n m : ℕ} {u v w : Word n} (hvw : toLex v ≤ toLex w)
    (hwu : toLex w ≤ toLex u) (h : ∀ j : Fin n, j < m → v j = u j) {k : Fin n} (hk : k < m) :
    w k = v k := by
  rcases hvw.eq_or_lt with heq | hlt
  · exact (congrFun (toLex.injective heq) k).symm
  · obtain ⟨l, hpre, hvl, hwl⟩ := toLex_lt_iff.mp hlt
    by_cases hlm : (l : ℕ) < m
    · refine absurd (toLex_lt_iff.mpr ⟨l, fun j hj => ?_, ?_, hwl⟩) hwu.not_gt
      · rw [← h j (Nat.lt_trans hj hlm), hpre j hj]
      · rw [← h l hlm, hvl]
    · exact (hpre k (Fin.lt_def.mpr (by omega))).symm

/-- Which bits may follow the first `k` bits of a word. -/
structure Trie (n : ℕ) where
  child : Fin n → Word n → Bool → Prop
  prefix_only : ∀ {k v w b}, (∀ j < k, v j = w j) → child k v b → child k w b

namespace Trie

variable {n : ℕ} (T : Trie n) {saved u v w : Word n} {d : ℕ} {k : Fin n}

def leaves : Set (Word n) := {w | ∀ k, T.child k w (w k)}

def Branches (k : Fin n) (w : Word n) : Prop := T.child k w false ∧ T.child k w true

/-- `d` is one more than the depth of the last branch at which `w` takes `false`, or zero. -/
structure LastZero (w : Word n) (d : ℕ) : Prop where
  bound : ∀ k, T.Branches k w → w k = false → k + 1 ≤ d
  attained : d ≠ 0 → ∃ k : Fin n, d = k + 1 ∧ T.Branches k w ∧ w k = false

/-- `w` is the leaf a pass reaches from the saved word and the saved depth. -/
structure Pass (saved : Word n) (d : ℕ) (w : Word n) : Prop where
  leaf : w ∈ T.leaves
  choice : ∀ k : Fin n, T.Branches k w → w k = if k + 1 < d then saved k else decide (k + 1 = d)

variable {T}

theorem Branches.congr (hpre : ∀ j < k, v j = w j) (h : T.Branches k v) : T.Branches k w :=
  ⟨T.prefix_only hpre h.1, T.prefix_only hpre h.2⟩

theorem branches_of_ne (hv : v ∈ T.leaves) (hw : w ∈ T.leaves) (hpre : ∀ j < k, v j = w j)
    (hne : v k ≠ w k) : T.Branches k v := by
  have hchild : T.child k v (w k) := T.prefix_only (fun j hj => (hpre j hj).symm) (hw k)
  have hown := hv k
  unfold Branches
  rcases hvk : v k <;> rcases hwk : w k <;> rw [hvk] at hown <;> rw [hwk] at hchild
  · exact absurd (hvk.trans hwk.symm) hne
  · exact ⟨hown, hchild⟩
  · exact ⟨hchild, hown⟩
  · exact absurd (hvk.trans hwk.symm) hne

theorem branches_of_lt (hv : v ∈ T.leaves) (hw : w ∈ T.leaves) (hlt : toLex v < toLex w) :
    ∃ k, (∀ j < k, v j = w j) ∧ v k = false ∧ w k = true ∧ T.Branches k v := by
  obtain ⟨k, hpre, hvk, hwk⟩ := toLex_lt_iff.mp hlt
  refine ⟨k, hpre, hvk, hwk, branches_of_ne hv hw hpre ?_⟩
  rw [hvk, hwk]
  decide

theorem Pass.least (h : T.Pass saved 0 w) (hv : v ∈ T.leaves) : toLex w ≤ toLex v := by
  refine not_lt.mp fun hlt => ?_
  obtain ⟨k, hpre, -, hwk, hbranch⟩ := branches_of_lt hv h.leaf hlt
  have hchoice := h.choice k (hbranch.congr hpre)
  rw [hwk] at hchoice
  simp at hchoice

theorem LastZero.greatest (h : T.LastZero v 0) (hv : v ∈ T.leaves) (hu : u ∈ T.leaves) :
    toLex u ≤ toLex v := by
  refine not_lt.mp fun hlt => ?_
  obtain ⟨k, -, hvk, -, hbranch⟩ := branches_of_lt hv hu hlt
  have := h.bound k hbranch hvk
  omega

theorem Pass.agree (h : T.Pass v d w) (hv : v ∈ T.leaves) (hk : k + 1 < d) : v k = w k := by
  induction k using WellFoundedLT.induction with
  | ind k ih =>
    have hpre : ∀ j < k, v j = w j := fun j hj => ih j hj (by omega)
    by_contra hne
    have hbranch : T.Branches k w := (branches_of_ne hv h.leaf hpre hne).congr hpre
    have hchoice := h.choice k hbranch
    rw [if_pos hk] at hchoice
    exact hne hchoice.symm

theorem Pass.turn (h : T.Pass v d w) (hv : v ∈ T.leaves) (hk : d = k + 1)
    (hbranch : T.Branches k v) : w k = true := by
  have hpre : ∀ j < k, v j = w j := fun j hj => h.agree hv (by omega)
  have hchoice := h.choice k (hbranch.congr hpre)
  rwa [if_neg (by omega), decide_eq_true hk.symm] at hchoice

theorem Pass.next (h : T.Pass v d w) (hv : v ∈ T.leaves) (hlast : T.LastZero v d) (hd : d ≠ 0) :
    toLex v < toLex w ∧ ∀ u ∈ T.leaves, toLex v < toLex u → toLex w ≤ toLex u := by
  obtain ⟨m, hm, hbranch, hvm⟩ := hlast.attained hd
  have hagree : ∀ j < m, v j = w j := fun j hj => h.agree hv (by omega)
  have hwm : w m = true := h.turn hv hm hbranch
  refine ⟨toLex_lt_iff.mpr ⟨m, hagree, hvm, hwm⟩, fun u hu hlt => not_lt.mp fun hgt => ?_⟩
  obtain ⟨k, hvu, hvk, huk, hvbranch⟩ := branches_of_lt hv hu hlt
  obtain ⟨l, huw, hul, hwl, hubranch⟩ := branches_of_lt hu h.leaf hgt
  have hkm : (k : ℕ) ≤ m := by
    have := hlast.bound k hvbranch hvk
    omega
  rcases lt_trichotomy l k with hlk | rfl | hkl
  · have hvl : v l = false := (hvu l hlk).trans hul
    have hvw : v l = w l := hagree l (by omega)
    rw [hvl, hwl] at hvw
    cases hvw
  · rw [hul] at huk
    cases huk
  · have huwk : u k = w k := huw k hkl
    rcases Nat.lt_or_eq_of_le hkm with hlt | heq
    · have hvw : v k = w k := hagree k hlt
      rw [hvk, ← huwk, huk] at hvw
      cases hvw
    · have hchoice := h.choice l (hubranch.congr huw)
      rw [if_neg (by omega), hwl] at hchoice
      have := of_decide_eq_true hchoice.symm
      omega

theorem Pass.follow {m : ℕ} (h : T.Pass saved d w) (hu : u ∈ T.leaves)
    (hsaved : ∀ j : Fin n, j < m → u j = saved j) (hm : m < d) (hk : k < m) : w k = saved k := by
  induction k using WellFoundedLT.induction with
  | ind k ih =>
    have hpre : ∀ j < k, u j = w j := fun j hj =>
      (hsaved j (Nat.lt_trans hj hk)).trans (ih j hj (Nat.lt_trans hj hk)).symm
    by_contra hne
    have hbranch : T.Branches k w := by
      refine (branches_of_ne hu h.leaf hpre ?_).congr hpre
      rw [hsaved k hk]
      exact fun heq => hne heq.symm
    have hchoice := h.choice k hbranch
    rw [if_pos (by omega)] at hchoice
    exact hne hchoice

/-- With zeros behind a prefix in the saved word, and no branch at the last bit, a pass to the full
depth reaches the least leaf with its prefix. -/
theorem Pass.least_of_prefix {m : ℕ} (h : T.Pass saved n w)
    (hzero : ∀ j : Fin n, m ≤ j → saved j = false)
    (hlast : ∀ j : Fin n, j + 1 = n → ¬T.Branches j w) (hv : v ∈ T.leaves)
    (hpre : ∀ j : Fin n, j < m → v j = w j) : toLex w ≤ toLex v := by
  refine not_lt.mp fun hlt => ?_
  obtain ⟨k, hvw, hvk, hwk, hbranch⟩ := branches_of_lt hv h.leaf hlt
  have hbranch' : T.Branches k w := hbranch.congr hvw
  have hkm : m ≤ k := by
    by_contra hlt
    have heq := hpre k (Nat.lt_of_not_le hlt)
    rw [hvk, hwk] at heq
    cases heq
  have hchoice := h.choice k hbranch'
  by_cases hk : (k : ℕ) + 1 < n
  · rw [if_pos hk, hzero k hkm, hwk] at hchoice
    cases hchoice
  · exact hlast k (by omega) hbranch'

/-- A pass after its first `k` bits: `w` is the path so far, continued by the saved word, and
`z` is the last zero of the path. -/
structure Walk (T : Trie n) (saved : Word n) (d k : ℕ) (w : Word n) (z : ℕ) : Prop where
  path : ∀ j : Fin n, j < k → T.child j w (w j)
  rest : ∀ j : Fin n, k ≤ j → w j = saved j
  choice : ∀ j : Fin n, j < k → T.Branches j w →
    w j = if j + 1 < d then saved j else decide (j + 1 = d)
  bound : ∀ j : Fin n, j < k → T.Branches j w → w j = false → j + 1 ≤ z
  attained : z ≠ 0 → ∃ j : Fin n, j < k ∧ z = j + 1 ∧ T.Branches j w ∧ w j = false

theorem Walk.start : T.Walk saved d 0 saved 0 where
  path j hj := absurd hj (Nat.not_lt_zero j)
  rest _ _ := rfl
  choice j hj := absurd hj (Nat.not_lt_zero j)
  bound j hj := absurd hj (Nat.not_lt_zero j)
  attained h := absurd rfl h

section Step

variable {z z' : ℕ} {b : Bool}

theorem Branches.update (j : Fin n) (hj : j ≤ k) :
    T.Branches j (Function.update w k b) ↔ T.Branches j w := by
  have hpre : ∀ i < j, Function.update w k b i = w i := fun i hi =>
    Function.update_of_ne (ne_of_lt (lt_of_lt_of_le hi hj)) b w
  exact ⟨Branches.congr hpre, Branches.congr fun i hi => (hpre i hi).symm⟩

theorem Walk.step (h : T.Walk saved d k w z) (hb : T.child k w b)
    (hrule : T.Branches k w → b = if k + 1 < d then saved k else decide (k + 1 = d))
    (hzero : T.Branches k w → b = false → z' = k + 1)
    (hkeep : ¬(T.Branches k w ∧ b = false) → z' = z) :
    T.Walk saved d (k + 1) (Function.update w k b) z' := by
  have hself : Function.update w k b k = b := Function.update_self k b w
  have hother : ∀ j : Fin n, j < k → Function.update w k b j = w j := fun j hj =>
    Function.update_of_ne (ne_of_lt hj) b w
  have hz : z' = z ∨ z' = k + 1 := by
    by_cases hbr : T.Branches k w ∧ b = false
    · exact .inr (hzero hbr.1 hbr.2)
    · exact .inl (hkeep hbr)
  have hzle : ∀ m, m ≤ z → m ≤ k + 1 → m ≤ z' := by
    rcases hz with hz | hz <;> intros <;> omega
  refine ⟨fun j hj => ?_, fun j hj => ?_, fun j hj hbr => ?_, fun j hj hbr hzj => ?_, fun hne => ?_⟩
  · rcases Nat.lt_succ_iff_lt_or_eq.mp hj with hlt | heq
    · rw [hother j hlt]
      exact T.prefix_only (fun i hi => (hother i (hi.trans hlt)).symm) (h.path j hlt)
    · obtain rfl := Fin.ext heq
      rw [hself]
      exact T.prefix_only (fun i hi => (hother i hi).symm) hb
  · rw [Function.update_of_ne (by rintro rfl; omega)]
    exact h.rest j (by omega)
  · rcases Nat.lt_succ_iff_lt_or_eq.mp hj with hlt | heq
    · rw [hother j hlt]
      exact h.choice j hlt ((Branches.update j hlt.le).mp hbr)
    · obtain rfl := Fin.ext heq
      rw [hself]
      exact hrule ((Branches.update j le_rfl).mp hbr)
  · rcases Nat.lt_succ_iff_lt_or_eq.mp hj with hlt | heq
    · rw [hother j hlt] at hzj
      exact hzle _ (h.bound j hlt ((Branches.update j hlt.le).mp hbr) hzj) (by omega)
    · obtain rfl := Fin.ext heq
      rw [hself] at hzj
      exact (hzero ((Branches.update j le_rfl).mp hbr) hzj).ge
  · by_cases hbr : T.Branches k w ∧ b = false
    · refine ⟨k, Nat.lt_succ_self k, hzero hbr.1 hbr.2, (Branches.update k le_rfl).mpr hbr.1, ?_⟩
      rw [hself, hbr.2]
    · rw [hkeep hbr] at hne ⊢
      obtain ⟨j, hj, hzj, hjbr, hwj⟩ := h.attained hne
      refine ⟨j, Nat.lt_succ_of_lt hj, hzj, (Branches.update j (Fin.le_of_lt hj)).mpr hjbr, ?_⟩
      rw [hother j hj, hwj]

theorem Walk.pass (h : T.Walk saved d n w z) : T.Pass saved d w ∧ T.LastZero w z := by
  refine ⟨⟨fun k => h.path k k.isLt, fun k => h.choice k k.isLt⟩, fun k => h.bound k k.isLt,
    fun hz => ?_⟩
  obtain ⟨k, -, hk⟩ := h.attained hz
  exact ⟨k, hk⟩

end Step

/-- Every path that has been reached can be continued. -/
def Live (T : Trie n) : Prop :=
  ∀ (k : Fin n) (w : Word n), (∀ j < k, T.child j w (w j)) → ∃ b, T.child k w b

end Trie

section Sorted

variable {α : Type*} [LinearOrder α] {s : Finset α} {a b : α} {i : ℕ}

theorem sort_getElem?_zero (ha : a ∈ s) (hle : ∀ b ∈ s, a ≤ b) : s.sort[0]? = some a := by
  have hpos : 0 < s.sort.length := by
    rw [Finset.length_sort]
    exact Finset.card_pos.mpr ⟨a, ha⟩
  rw [List.getElem?_eq_getElem hpos, Finset.sorted_zero_eq_min']
  exact congrArg some (le_antisymm (Finset.min'_le _ _ ha) (hle _ (Finset.min'_mem _ _)))

theorem sort_getElem?_succ (hi : s.sort[i]? = some a) (hb : b ∈ s) (hlt : a < b)
    (hleast : ∀ c ∈ s, a < c → b ≤ c) : s.sort[i + 1]? = some b := by
  obtain ⟨hlen, hget⟩ := List.getElem?_eq_some_iff.mp hi
  obtain ⟨j, hj, hbj⟩ := List.getElem_of_mem ((Finset.mem_sort (· ≤ ·)).mpr hb)
  have hmono := (Finset.sortedLT_sort s).strictMono_get
  have hij : i < j := by
    have := hmono.lt_iff_lt (a := ⟨i, hlen⟩) (b := ⟨j, hj⟩)
    simp only [List.get_eq_getElem, hget, hbj, Fin.mk_lt_mk] at this
    exact this.mp hlt
  have hi1 : i + 1 < s.sort.length := by omega
  have hle : b ≤ s.sort[i + 1] := by
    refine hleast _ ((Finset.mem_sort (· ≤ ·)).mp (List.getElem_mem hi1)) ?_
    have := hmono (a := ⟨i, hlen⟩) (b := ⟨i + 1, hi1⟩) (by simp)
    simpa only [List.get_eq_getElem, hget] using this
  have hge : s.sort[i + 1] ≤ b := by
    have := hmono.monotone (a := ⟨i + 1, hi1⟩) (b := ⟨j, hj⟩) (Nat.succ_le_of_lt hij)
    simpa only [List.get_eq_getElem, hbj] using this
  rw [List.getElem?_eq_getElem hi1, le_antisymm hge hle]

theorem sort_last (hi : s.sort[i]? = some a) (hgreatest : ∀ c ∈ s, c ≤ a) : i + 1 = s.card := by
  obtain ⟨hlen, hget⟩ := List.getElem?_eq_some_iff.mp hi
  have hcard : s.sort.length = s.card := Finset.length_sort _
  by_contra hne
  have hi1 : i + 1 < s.sort.length := by omega
  have hlt := (Finset.sortedLT_sort s).strictMono_get (a := ⟨i, hlen⟩) (b := ⟨i + 1, hi1⟩)
    (by simp)
  simp only [List.get_eq_getElem, hget] at hlt
  exact absurd (hgreatest _ ((Finset.mem_sort (· ≤ ·)).mp (List.getElem_mem hi1))) (not_le.mpr hlt)

end Sorted

end FlipperZero.Lib
