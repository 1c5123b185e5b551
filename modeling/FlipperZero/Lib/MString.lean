import FlipperZero.Lib.CString
import Mathlib.Data.List.DropRight

/-! # Dynamic strings

The operations of the string library on texts: trimming at both ends, the search for a
character, and the two halves of a split.
-/

namespace FlipperZero.Lib

def spaceChar : Byte := 0x20#8

/-- What `string_strim` takes away. -/
def isTrimmed (b : Byte) : Bool := b = 0x20#8 || b = 0x0A#8 || b = 0x0D#8 || b = 0x09#8

def stringStrim (s : List Byte) : List Byte := (s.dropWhile isTrimmed).rdropWhile isTrimmed

def stringSearchChar (s : List Byte) (c : Byte) : Option ℕ := s.findIdx? (· = c)

def stringRight (s : List Byte) (index : ℕ) : List Byte := s.drop index

/-- `string_set_n` from the start; a length of `STRING_FAILURE` is cut to that of the string. -/
def stringSetN (s : List Byte) (length : Option ℕ) : List Byte := s.take (length.getD s.length)

variable {args rest text between : List Byte} {b c : Byte} {m n : ℕ}

theorem stringSearchChar_append (h : c ∉ text) :
    stringSearchChar (text ++ c :: rest) c = some text.length := by
  rw [stringSearchChar, List.findIdx?_append, List.findIdx?_eq_none_iff.mpr]
  · simp [List.findIdx?_cons]
  · intro b hb
    simpa using fun heq : b = c => h (heq ▸ hb)

theorem of_stringSearchChar_some (h : stringSearchChar args c = some n) :
    ∃ text rest, args = text ++ c :: rest ∧ text.length = n ∧ c ∉ text := by
  obtain ⟨hn, hc, hbefore⟩ := List.findIdx?_eq_some_iff_getElem.mp h
  refine ⟨args.take n, args.drop (n + 1), ?_, by simp; omega, ?_⟩
  · have hc : args[n] = c := by simpa using hc
    rw [← hc, List.cons_getElem_drop_succ, List.take_append_drop]
  · intro hmem
    obtain ⟨i, hi, heq⟩ := List.mem_iff_getElem.mp hmem
    rw [List.getElem_take] at heq
    exact absurd (hbefore i (by simp at hi; omega)) (by simp [heq])

theorem split_injective {text text' rest rest' : List Byte} (htext : c ∉ text) (htext' : c ∉ text')
    (h : text ++ c :: rest = text' ++ c :: rest') : text = text' ∧ rest = rest' := by
  have hlength : stringSearchChar (text ++ c :: rest) c = _ := stringSearchChar_append htext
  rw [h, stringSearchChar_append htext', Option.some.injEq] at hlength
  obtain ⟨htext, hrest⟩ := List.append_inj h hlength.symm
  exact ⟨htext, List.tail_eq_of_cons_eq hrest⟩

theorem not_isTrimmed_of_hexValue (h : hexValue b = some m) : isTrimmed b = false := by
  apply Bool.eq_false_iff.mpr
  intro htrimmed
  simp only [isTrimmed, Bool.or_eq_true, decide_eq_true_eq] at htrimmed
  rcases htrimmed with ((rfl | rfl) | rfl) | rfl
  · cases h
  · cases h
  · cases h
  · cases h

theorem stringStrim_append (hbetween : ∀ d ∈ between, isTrimmed d) (hb : isTrimmed b = false)
    (hc : isTrimmed c = false) (hlast : b :: text = rest ++ [c]) :
    stringStrim (between ++ b :: text) = b :: text := by
  have hdrop : (between ++ b :: text).dropWhile isTrimmed = b :: text := by
    rw [List.dropWhile_append_of_pos hbetween, List.dropWhile_cons_of_neg (by simp [hb])]
  rw [stringStrim, hdrop, hlast, List.rdropWhile_concat_neg _ _ _ (by simp [hc])]

theorem stringStrim_of_ends (hbetween : ∀ d ∈ between, isTrimmed d) (hne : text ≠ [])
    (hhead : ∀ d ∈ text.head?, isTrimmed d = false)
    (hlast : ∀ d ∈ text.getLast?, isTrimmed d = false) :
    stringStrim (between ++ text) = text := by
  have hconcat := (List.dropLast_append_getLast hne).symm
  have hend := hlast (text.getLast hne) (List.getLast?_eq_some_getLast hne)
  cases text with
  | nil => exact absurd rfl hne
  | cons b text => exact stringStrim_append hbetween (hhead b rfl) hend hconcat

end FlipperZero.Lib
