import FlipperZero.Lib.Loop
import FlipperZero.Mlib.BPTree
import Mathlib.Data.BitVec
import Mathlib.Data.List.Perm.Subperm

/-! # The list of the commands

`help` prints the names of the commands in two columns. One iterator starts at the first command
and another one in the middle; the number of the commands is kept in a byte, and a name in the
second column is itself the format of its `printf`.
-/

namespace FlipperZero.Cli

open Lib Mlib

/-- The text of a `string_t`, without the NUL that ends it. -/
abbrev CommandName := {name : List Char // Char.ofNat 0 ∉ name}

def stringGetCstr (name : CommandName) : List Char := name.1

/-- What `printf` prints of a format without arguments; a conversion has none to take. -/
def printf : List Char → Option (List Char)
  | [] => some []
  | [c] => if c = '%' then none else some [c]
  | c :: c' :: s =>
    if c = '%' then if c' = '%' then (printf s).map (c :: ·) else none
    else (printf (c' :: s)).map (c :: ·)

/-- A row of the list; the text in the second column is `none` when its `printf` is undefined. -/
structure Row where
  left : List Char
  right : Option (List Char)
deriving DecidableEq, Repr

namespace Row

def cells (r : Row) : List (List Char) := r.left :: r.right.toList

end Row

variable {T It : Type} [BPTreeIter T CommandName It] (t : T)

def cmdNum : BitVec 8 := BitVec.ofNat 8 (BPTreeIter.size t)

def midNum : BitVec 8 := cmdNum t / 2 + cmdNum t % 2

def itMid : It := (BPTreeIter.next t)^[(midNum t).toNat] (BPTreeIter.it t)

/-- The two iterators, and the rows that have been printed. -/
structure HelpState (It : Type) where
  itI : It
  itJ : It
  rows : List Row

def helpRow (key key' : CommandName) : Row := ⟨stringGetCstr key, printf (stringGetCstr key')⟩

/-- A round of the loop of `cli_command_help`. -/
def helpRound (s : HelpState It) : Option (List Row ⊕ HelpState It) :=
  if BPTreeIter.itEqual T s.itI (itMid t) then some (.inl s.rows)
  else do
    let key ← BPTreeIter.ref t s.itI
    let key' ← BPTreeIter.ref t s.itJ
    some (.inr ⟨BPTreeIter.next t s.itI, BPTreeIter.next t s.itJ, s.rows ++ [helpRow key key']⟩)

def helpStart : HelpState It := ⟨BPTreeIter.it t, itMid t, []⟩

/-- The rows that are printed in some rounds; an iterator at the end gives `some none`. -/
def helpRows (n : ℕ) : Option (Option (List Row)) := loop (checked (helpRound t)) n (helpStart t)

/-- No iterator is dereferenced at the end, and each name is shown once. -/
structure HelpLists : Prop where
  inBounds : InBounds (helpRound t) (helpStart t)
  shows : ∃ n rows, helpRows t n = some (some rows) ∧
    ∀ name ∈ BPTreeIter.keys t, (rows.flatMap Row.cells).count (stringGetCstr name) = 1

/-! ## A name as a format -/

theorem printf_of_not_mem {s : List Char} (h : '%' ∉ s) : printf s = some s := by
  fun_induction printf s with
  | case1 => rfl
  | case2 => exact absurd (List.mem_singleton.mpr rfl) h
  | case3 => rfl
  | case4 => exact absurd List.mem_cons_self h
  | case5 => exact absurd List.mem_cons_self h
  | case6 c c' s hc ih =>
    rw [ih fun hmem => h (List.mem_cons_of_mem c hmem)]
    rfl

theorem length_printf {s s' : List Char} (h : printf s = some s') :
    s'.length ≤ s.length ∧ ('%' ∈ s → s'.length < s.length) := by
  fun_induction printf s generalizing s' with
  | case1 =>
    cases h
    exact ⟨Nat.le_refl _, fun hmem => absurd hmem List.not_mem_nil⟩
  | case2 => cases h
  | case3 c hc =>
    cases h
    exact ⟨Nat.le_refl _, fun hmem => absurd (List.mem_singleton.mp hmem).symm hc⟩
  | case4 s ih =>
    obtain ⟨s₁, hs₁, rfl⟩ := Option.map_eq_some_iff.mp h
    obtain ⟨hle, -⟩ := ih hs₁
    simp only [List.length_cons]
    constructor <;> omega
  | case5 => cases h
  | case6 c c' s hc ih =>
    obtain ⟨s₁, hs₁, rfl⟩ := Option.map_eq_some_iff.mp h
    obtain ⟨hle, hlt⟩ := ih hs₁
    simp only [List.length_cons] at *
    constructor
    · omega
    · intro hmem
      have := hlt (List.mem_of_ne_of_mem (Ne.symm hc) hmem)
      omega

/-! ## The rows -/

section Rows

variable {t}

theorem toNat_midNum : (midNum t).toNat =
    BPTreeIter.size t % 256 / 2 + BPTreeIter.size t % 256 % 2 := by
  have hnum : (cmdNum t).toNat = BPTreeIter.size t % 256 := BitVec.toNat_ofNat _ _
  rw [midNum, BitVec.toNat_add, BitVec.toNat_udiv, BitVec.toNat_umod, hnum]
  simp only [BitVec.reduceToNat]
  omega

theorem midNum_le : (midNum t).toNat ≤ BPTreeIter.size t := by
  rw [toNat_midNum]
  omega

def itAt (t : T) (k : ℕ) : It := (BPTreeIter.next t)^[k] (BPTreeIter.it t)

theorem next_itAt (k : ℕ) : BPTreeIter.next t (itAt t k) = itAt t (k + 1) :=
  (Function.iterate_succ_apply' _ _ _).symm

theorem helpRound_mid {k : ℕ} {itJ : It} {rows : List Row} (hk : k = (midNum t).toNat) :
    helpRound t ⟨itAt t k, itJ, rows⟩ = some (.inl rows) := by
  have hequal : BPTreeIter.itEqual T (itAt t k) (itMid t) = true := by
    rw [itMid, itAt, BPTreeIter.itEqual_iterate t k (hk ▸ midNum_le) _ midNum_le]
    exact decide_eq_true hk
  rw [helpRound, if_pos hequal]

theorem helpRound_lt (rows : List Row) {k : ℕ} (hk : k < (midNum t).toNat)
    (hsize : (midNum t).toNat + k ≤ BPTreeIter.size t) :
    helpRound t ⟨itAt t k, itAt t ((midNum t).toNat + k), rows⟩ =
      (BPTreeIter.keys t)[k]?.bind fun key =>
        (BPTreeIter.keys t)[(midNum t).toNat + k]?.bind fun key' =>
          some (.inr ⟨itAt t (k + 1), itAt t ((midNum t).toNat + (k + 1)),
            rows ++ [helpRow key key']⟩) := by
  have hle : k ≤ BPTreeIter.size t := hk.le.trans midNum_le
  have hequal : BPTreeIter.itEqual T (itAt t k) (itMid t) = false := by
    rw [itMid, itAt, BPTreeIter.itEqual_iterate t k hle _ midNum_le]
    exact decide_eq_false hk.ne
  rw [helpRound, if_neg (hequal ▸ Bool.false_ne_true), next_itAt, next_itAt, itAt, itAt,
    BPTreeIter.ref_iterate t k hle, BPTreeIter.ref_iterate t _ hsize]
  rfl

theorem helpRows_from (rows : List Row) {k d : ℕ} (hd : k + d = (midNum t).toNat)
    (hfits : (midNum t).toNat + (midNum t).toNat ≤ BPTreeIter.size t) :
    loop (checked (helpRound t)) (d + 1) ⟨itAt t k, itAt t ((midNum t).toNat + k), rows⟩ =
      some (some (rows ++ List.zipWith helpRow (((BPTreeIter.keys t).drop k).take d)
        ((BPTreeIter.keys t).drop ((midNum t).toNat + k)))) := by
  have hsize := BPTreeIter.size_eq t
  induction d generalizing k rows with
  | zero =>
    rw [loop_inl (checked_eq (helpRound_mid (k := k) hd)), List.take_zero, List.zipWith_nil_left,
      List.append_nil]
  | succ d ih =>
    have hk : k < (BPTreeIter.keys t).length := by omega
    have hmid : (midNum t).toNat + k < (BPTreeIter.keys t).length := by omega
    have hround := helpRound_lt (t := t) rows (k := k) (by omega) (by omega)
    rw [List.getElem?_eq_getElem hk, List.getElem?_eq_getElem hmid] at hround
    have hd' : k + 1 + d = (midNum t).toNat := by omega
    apply ((loop_inr (checked_eq hround)).trans (ih _ hd')).trans
    rw [List.drop_eq_getElem_cons hk, List.drop_eq_getElem_cons hmid, List.take_succ_cons,
      List.zipWith_cons_cons, List.append_assoc]
    rfl

theorem fits_of_inBounds (h : InBounds (helpRound t) (helpStart t)) :
    (midNum t).toNat + (midNum t).toNat ≤ BPTreeIter.size t := by
  have hsize := BPTreeIter.size_eq t
  have hall : ∀ k ≤ (midNum t).toNat, (midNum t).toNat + k ≤ BPTreeIter.size t ∧
      ∃ rows, InBounds (helpRound t) ⟨itAt t k, itAt t ((midNum t).toNat + k), rows⟩ := by
    intro k
    induction k with
    | zero => exact fun _ => ⟨midNum_le, [], h⟩
    | succ k ih =>
      intro hk
      obtain ⟨hle, rows, hin⟩ := ih (Nat.le_of_succ_le hk)
      have hround := helpRound_lt rows hk hle
      have hlt : k < (BPTreeIter.keys t).length := by omega
      rw [List.getElem?_eq_getElem hlt, Option.bind_some] at hround
      rcases Nat.lt_or_ge ((midNum t).toNat + k) (BPTreeIter.keys t).length with hmid | hmid
      · rw [List.getElem?_eq_getElem hmid] at hround
        exact ⟨by omega, _, hin.next hround⟩
      · rw [List.getElem?_eq_none hmid] at hround
        exact absurd hin (not_inBounds hround)
  exact (hall _ (Nat.le_refl _)).1

theorem inBounds_of_fits (hfits : (midNum t).toNat + (midNum t).toNat ≤ BPTreeIter.size t) :
    InBounds (helpRound t) (helpStart t) := by
  intro n hn
  have hrows := loop_unique hn (helpRows_from [] (Nat.zero_add _) hfits)
  cases hrows

def halves (t : T) : List Row :=
  List.zipWith helpRow ((BPTreeIter.keys t).take (midNum t).toNat)
    ((BPTreeIter.keys t).drop (midNum t).toNat)

theorem helpRows_eq {n : ℕ} {rows : List Row}
    (hfits : (midNum t).toNat + (midNum t).toNat ≤ BPTreeIter.size t)
    (hn : helpRows t n = some (some rows)) : rows = halves t := by
  have hrows := loop_unique hn (helpRows_from [] (Nat.zero_add _) hfits)
  simpa [halves] using hrows

/-! ## What the columns show -/

theorem cells_perm {l l' : List CommandName} (hlength : l.length = l'.length)
    (hformat : ∀ name ∈ l', '%' ∉ stringGetCstr name) :
    ((List.zipWith helpRow l l').flatMap Row.cells).Perm
      (l.map stringGetCstr ++ l'.map stringGetCstr) := by
  induction l generalizing l' with
  | nil =>
    cases l' with
    | nil => exact List.Perm.refl _
    | cons => cases hlength
  | cons name l ih =>
    cases l' with
    | nil => cases hlength
    | cons name' l' =>
      have hcells : (helpRow name name').cells = [stringGetCstr name, stringGetCstr name'] := by
        rw [Row.cells, helpRow, printf_of_not_mem (hformat name' List.mem_cons_self)]
        rfl
      rw [List.zipWith_cons_cons, List.flatMap_cons, hcells]
      apply List.Perm.cons
      apply (List.Perm.cons _ (ih (Nat.succ.inj hlength)
        fun n hn => hformat n (List.mem_cons_of_mem _ hn))).trans
      exact List.perm_middle.symm

theorem length_shown (s : List Char) :
    (printf s).toList.flatten.length ≤ s.length ∧
      ('%' ∈ s → (printf s).toList.flatten.length < s.length) := by
  cases hs : printf s with
  | none => exact ⟨Nat.zero_le _, List.length_pos_of_mem⟩
  | some s' => simpa using length_printf hs

/-- The cells are not longer than the names, and shorter when a format holds a conversion. -/
theorem length_cells {l l' : List CommandName} (hlength : l.length = l'.length) :
    ((List.zipWith helpRow l l').flatMap Row.cells).flatten.length ≤
        (l.map stringGetCstr ++ l'.map stringGetCstr).flatten.length ∧
      ∀ name ∈ l', '%' ∈ stringGetCstr name →
        ((List.zipWith helpRow l l').flatMap Row.cells).flatten.length <
          (l.map stringGetCstr ++ l'.map stringGetCstr).flatten.length := by
  induction l generalizing l' with
  | nil =>
    cases l' with
    | nil => exact ⟨Nat.le_refl _, fun name hname => absurd hname List.not_mem_nil⟩
    | cons => cases hlength
  | cons name l ih =>
    cases l' with
    | nil => cases hlength
    | cons name' l' =>
      obtain ⟨hle, hlt⟩ := ih (Nat.succ.inj hlength)
      obtain ⟨hshown, hshort⟩ := length_shown (stringGetCstr name')
      have hcells : (helpRow name name').cells =
          stringGetCstr name :: (printf (stringGetCstr name')).toList := rfl
      simp only [List.zipWith_cons_cons, List.flatMap_cons, hcells, List.map_cons,
        List.flatten_append, List.flatten_cons, List.length_append, List.cons_append] at *
      constructor
      · omega
      · intro n hn hformat
        rcases List.mem_cons.mp hn with rfl | hn
        · have := hshort hformat
          omega
        · have := hlt n hn hformat
          omega

theorem length_flatMap_cells (rows : List Row) :
    (rows.flatMap Row.cells).length ≤ rows.length + rows.length := by
  induction rows with
  | nil => exact Nat.le_refl _
  | cons r rows ih =>
    have hcells : r.cells.length ≤ 2 := Nat.succ_le_succ (Option.length_toList_le)
    rw [List.flatMap_cons, List.length_append, List.length_cons]
    omega

theorem nodup_names : ((BPTreeIter.keys t).map stringGetCstr).Nodup :=
  (BPTreeIter.keys_nodup t).map fun _ _ h => Subtype.ext h

theorem shows_of_perm {rows : List Row}
    (hperm : (rows.flatMap Row.cells).Perm ((BPTreeIter.keys t).map stringGetCstr)) :
    ∀ name ∈ BPTreeIter.keys t, (rows.flatMap Row.cells).count (stringGetCstr name) = 1 := by
  intro name hname
  rw [hperm.count_eq]
  exact List.count_eq_one_of_mem nodup_names (List.mem_map_of_mem hname)

theorem perm_of_helpLists (h : HelpLists t) :
    (midNum t).toNat + (midNum t).toNat = BPTreeIter.size t ∧
      ((halves t).flatMap Row.cells).Perm ((BPTreeIter.keys t).map stringGetCstr) := by
  have hfits := fits_of_inBounds h.inBounds
  have hsize := BPTreeIter.size_eq t
  obtain ⟨n, rows, hn, hcount⟩ := h.shows
  obtain rfl := helpRows_eq hfits hn
  have hsubset : (BPTreeIter.keys t).map stringGetCstr ⊆ (halves t).flatMap Row.cells := by
    intro text htext
    obtain ⟨name, hname, rfl⟩ := List.mem_map.mp htext
    apply List.count_pos_iff.mp
    rw [hcount name hname]
    exact Nat.one_pos
  have hsub := List.subperm_of_subset nodup_names hsubset
  have hlength := hsub.length_le
  have hcells := length_flatMap_cells (halves t)
  have hrows : (halves t).length ≤ (midNum t).toNat := by
    rw [halves, List.length_zipWith, List.length_take]
    omega
  rw [List.length_map] at hlength
  constructor
  · omega
  · apply (hsub.perm_of_length_le _).symm
    rw [List.length_map]
    omega

end Rows

/-- `help` shows each command once, and stays inside the tree, exactly when there are an even
number of commands, fewer than 256, and no name in the second column has a `%`. -/
theorem cli_help_lists (t : T) : HelpLists t ↔
    BPTreeIter.size t % 2 = 0 ∧ BPTreeIter.size t < 256 ∧
      ∀ name ∈ (BPTreeIter.keys t).drop (BPTreeIter.size t / 2), '%' ∉ stringGetCstr name := by
  have hsize := BPTreeIter.size_eq t
  have hmid := toNat_midNum (t := t)
  constructor
  · intro h
    obtain ⟨hfull, hperm⟩ := perm_of_helpLists h
    have hhalf : BPTreeIter.size t / 2 = (midNum t).toNat := by omega
    refine ⟨by omega, by omega, ?_⟩
    intro name hname hformat
    rw [hhalf] at hname
    have hlength : ((BPTreeIter.keys t).take (midNum t).toNat).length =
        ((BPTreeIter.keys t).drop (midNum t).toNat).length := by
      rw [List.length_take, List.length_drop]
      omega
    have hlt := (length_cells hlength).2 name hname hformat
    have heq := hperm.flatten.length_eq
    rw [← List.map_append, List.take_append_drop, ← heq] at hlt
    exact Nat.lt_irrefl _ hlt
  · rintro ⟨heven, hlt, hformat⟩
    have hhalf : BPTreeIter.size t / 2 = (midNum t).toNat := by omega
    have hfits : (midNum t).toNat + (midNum t).toNat ≤ BPTreeIter.size t := by omega
    have hn := helpRows_from [] (Nat.zero_add _) hfits
    rw [hhalf] at hformat
    refine ⟨inBounds_of_fits hfits, _, _, hn, shows_of_perm ?_⟩
    rw [List.nil_append, List.drop_zero, Nat.add_zero]
    apply (cells_perm _ hformat).trans
    · rw [← List.map_append, List.take_append_drop]
    · rw [List.length_take, List.length_drop]
      omega

def soleCommand : {t : Leaf CommandName Unit // (t.entries.map Prod.fst).Nodup} :=
  ⟨⟨[(⟨"help".toList, by decide⟩, ())], []⟩, by decide⟩

theorem cli_help_misses : ¬∀ t : {t : Leaf CommandName Unit // (t.entries.map Prod.fst).Nodup},
    HelpLists t := by
  intro h
  have hfits := fits_of_inBounds (h soleCommand).inBounds
  revert hfits
  decide

end FlipperZero.Cli
