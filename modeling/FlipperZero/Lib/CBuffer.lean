import Mathlib.Data.List.Induction

/-! # Buffers of cells

A buffer is the list of its cells; the string that it holds is what stands before the first
terminator. An access outside the buffer is `none`.
-/

namespace FlipperZero.Lib.CBuffer

variable {α : Type*}

def strlen [DecidableEq α] (nul : α) (cells : List α) : Option ℕ := cells.findIdx? (· = nul)

def contents [DecidableEq α] (nul : α) (cells : List α) : List α := cells.takeWhile (· ≠ nul)

def put (cells : List α) (i : ℕ) (c : α) : Option (List α) :=
  if i < cells.length then some (cells.set i c) else none

/-- Every cell takes the one that stands some cells behind it, for so many cells from an index on. -/
def shiftLeft (shift : ℕ) : ℕ → ℕ → List α → Option (List α)
  | 0, _, cells => some cells
  | n + 1, i, cells =>
    (cells[i + shift]?).bind fun c => (put cells i c).bind (shiftLeft shift n (i + 1))

/-- The buffer after a string and its terminator were copied to its start. -/
def store (nul : α) (cells text : List α) : List α :=
  text ++ nul :: cells.drop (text.length + 1)

structure Holds (nul : α) (cells text : List α) : Prop where
  nul_notMem : nul ∉ text
  starts : text ++ [nul] <+: cells

/-- The second buffer differs from the first at most in the first cells. -/
structure AgreesFrom (n : ℕ) (cells cells' : List α) : Prop where
  length : cells'.length = cells.length
  beyond : cells'.drop n = cells.drop n

variable {nul c : α} {cells cells' cells'' text : List α} {i m n : ℕ}

theorem AgreesFrom.refl : AgreesFrom n cells cells := ⟨rfl, rfl⟩

theorem AgreesFrom.trans (h : AgreesFrom n cells cells') (h' : AgreesFrom n cells' cells'') :
    AgreesFrom n cells cells'' := ⟨h'.length.trans h.length, h'.beyond.trans h.beyond⟩

theorem agreesFrom_set (h : i < n) : AgreesFrom n cells (cells.set i c) :=
  ⟨List.length_set, List.drop_set_of_lt h⟩

theorem Holds.length_lt (h : Holds nul cells text) : text.length < cells.length := by
  have hle := h.starts.length_le
  rw [List.length_append] at hle
  exact hle

theorem Holds.strlen_eq [DecidableEq α] (h : Holds nul cells text) :
    strlen nul cells = some text.length := by
  obtain ⟨rest, rfl⟩ := h.starts
  rw [strlen, List.append_assoc, List.findIdx?_append, List.findIdx?_eq_none_iff.mpr]
  · simp [List.findIdx?_cons]
  · intro d hd
    simpa using fun heq : d = nul => h.nul_notMem (heq ▸ hd)

theorem Holds.take_eq (h : Holds nul cells text) : cells.take text.length = text := by
  obtain ⟨rest, rfl⟩ := h.starts
  simp

theorem put_eq_some (h : i < cells.length) : put cells i c = some (cells.set i c) := if_pos h

theorem shiftLeft_eq {shift : ℕ} (h : i + n + shift ≤ cells.length) :
    shiftLeft shift n i cells =
      some (cells.take i ++ ((cells.drop (i + shift)).take n ++ cells.drop (i + n))) := by
  induction n generalizing i cells with
  | zero => simp [shiftLeft]
  | succ n ih =>
    have hread : i + shift < cells.length := by omega
    have hwrite : i < cells.length := by omega
    have hlength : i + 1 + n + shift ≤ (cells.set i cells[i + shift]).length := by
      rw [List.length_set]
      omega
    have htake : (cells.set i cells[i + shift]).take (i + 1) =
        cells.take i ++ [cells[i + shift]] := by
      rw [List.take_succ_eq_append_getElem (by rwa [List.length_set]), List.getElem_set_self,
        List.take_set_of_le (Nat.le_refl _)]
    rw [shiftLeft, List.getElem?_eq_getElem hread, Option.bind_some, put_eq_some hwrite,
      Option.bind_some, ih hlength, htake, List.drop_set_of_lt (by omega),
      List.drop_set_of_lt (by omega), List.drop_eq_getElem_cons hread, List.take_succ_cons]
    simp [Nat.add_right_comm, Nat.add_assoc]

theorem exists_shiftLeft {shift : ℕ} (h : n + shift ≤ cells.length) :
    ∃ cells', shiftLeft shift n 0 cells = some cells' ∧ cells'.length = cells.length ∧
      cells'.take n = (cells.drop shift).take n := by
  refine ⟨_, shiftLeft_eq (by omega), ?_, ?_⟩
  · simp only [List.take_zero, List.nil_append, List.length_append, List.length_take,
      List.length_drop]
    omega
  · have hlength : ((cells.drop shift).take n).length = n := by
      rw [List.length_take, List.length_drop]
      omega
    rw [List.take_zero, List.nil_append, Nat.zero_add, List.take_left' hlength]

theorem Holds.dropLast (h : Holds nul cells text) :
    Holds nul (cells.set (text.length - 1) nul) text.dropLast := by
  obtain ⟨rest, rfl⟩ := h.starts
  refine ⟨fun hmem => h.nul_notMem (List.dropLast_subset _ hmem), ?_⟩
  cases text using List.reverseRecOn with
  | nil => exact ⟨rest, by simp⟩
  | append_singleton text d => exact ⟨nul :: rest, by simp⟩

theorem Holds.append (h : Holds nul cells text) (hc : c ≠ nul)
    (hroom : text.length + 1 < cells.length) :
    Holds nul ((cells.set text.length c).set (text.length + 1) nul) (text ++ [c]) := by
  obtain ⟨rest, rfl⟩ := h.starts
  cases rest with
  | nil => simp at hroom
  | cons d rest =>
    refine ⟨?_, rest, by simp⟩
    intro hmem
    rcases List.mem_append.mp hmem with hmem | hmem
    · exact h.nul_notMem hmem
    · exact hc (List.mem_singleton.mp hmem).symm

theorem Holds.modifyHead {f : α → α} (h : Holds nul cells text) (hne : text ≠ [])
    (hf : nul ∉ text.modifyHead f) : Holds nul (cells.modifyHead f) (text.modifyHead f) := by
  obtain ⟨rest, rfl⟩ := h.starts
  cases text with
  | nil => exact absurd rfl hne
  | cons d text => exact ⟨hf, rest, rfl⟩

theorem nul_notMem_contents [DecidableEq α] : nul ∉ contents nul cells := by
  intro hmem
  have hall := List.all_takeWhile (p := (· ≠ nul)) (l := cells)
  rw [List.all_eq_true] at hall
  simpa using hall nul hmem

theorem Holds.copy (h : Holds nul cells text) (hlength : text.length < n) :
    Holds nul (cells.take n ++ cells') text := by
  refine ⟨h.nul_notMem, List.IsPrefix.trans ?_ (List.prefix_append _ _)⟩
  rw [List.prefix_take_iff, List.length_append]
  exact ⟨h.starts, hlength⟩

theorem holds_store (h : nul ∉ text) : Holds nul (store nul cells text) text :=
  ⟨h, cells.drop (text.length + 1), by simp [store]⟩

theorem length_store (h : text.length < cells.length) :
    (store nul cells text).length = cells.length := by
  simp only [store, List.length_append, List.length_cons, List.length_drop]
  omega

end FlipperZero.Lib.CBuffer
