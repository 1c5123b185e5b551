import FlipperZero.SdFilesystem.DirRead

/-! # Listing a directory of a card that works

Each entry is read once and in order, and the read after the last one gives an empty name. A
listing loop then takes its step once for each entry, up to the one that it stops at.
-/

namespace FlipperZero.SdFilesystem

open Lib

structure DirContent where
  entries : List SDFileInfo
  named : ∀ entry ∈ entries, entry.fname ≠ []

/-- What `f_readdir` fills in at the end of the directory. -/
def endOfDir : SDFileInfo := ⟨[], ⟨false, false, false, false, false⟩, 0, 0, 0⟩

def readEntries (entries : List SDFileInfo) (n : ℕ) : ReadResult :=
  .readdir .ok (entries.getD n endOfDir)

def DirContent.input (content : DirContent) : ListingInput :=
  ⟨true, true, readEntries content.entries⟩

def SDFileInfo.fileInfo (entry : SDFileInfo) : FileInfo :=
  ⟨entry.fattrib, entry.fsize, entry.fdate, entry.ftime⟩

variable {σ M : Type} (step : σ → List Char → FileInfo → σ × Bool) (nameLength : ℕ)

def listEntries : List SDFileInfo → σ → Exit × σ
  | [], s => (.stopped .ok, s)
  | entry :: entries, s =>
    let t := step s (strlcpy entry.fname nameLength) entry.fileInfo
    if t.2 then (.found, t.1) else listEntries entries t.1

variable {step nameLength} {entries rest : List SDFileInfo} {dir : Directory} {s : σ} {fuel k : ℕ}

theorem strlcpy_ne_nil {name : List Char} (hname : name ≠ []) (hlength : 1 < nameLength) :
    strlcpy name nameLength ≠ [] := by
  obtain ⟨c, cs, rfl⟩ := List.exists_cons_of_ne_nil hname
  obtain ⟨n, rfl⟩ : ∃ n, nameLength = n + 2 := ⟨nameLength - 2, by omega⟩
  simp [strlcpy]

theorem listingBody_entry {entry : SDFileInfo} (hlength : 1 < nameLength)
    (hentry : entries[k]? = some entry) (hname : entry.fname ≠ []) :
    listingBody step nameLength (readEntries entries) ⟨k, dir, s⟩ =
      if (step s (strlcpy entry.fname nameLength) entry.fileInfo).2 then
        .inl (.found, (step s (strlcpy entry.fname nameLength) entry.fileInfo).1)
      else
        .inr ⟨k + 1, ⟨.ok, strlcpy entry.fname nameLength, entry.fileInfo⟩,
          (step s (strlcpy entry.fname nameLength) entry.fileInfo).1⟩ := by
  have hread : readEntries entries k = .readdir .ok entry := by
    simp [readEntries, List.getD_eq_getElem?_getD, hentry]
  have hdir : fsDirRead nameLength dir (.readdir .ok entry) =
      (true, ⟨.ok, strlcpy entry.fname nameLength, entry.fileInfo⟩) := rfl
  simp only [listingBody, hread, hdir, reduceCtorEq, strlcpy_ne_nil hname hlength, or_self,
    if_false, if_true]

theorem listingBody_end (hend : entries[k]? = none) :
    listingBody step nameLength (readEntries entries) ⟨k, dir, s⟩ = .inl (.stopped .ok, s) := by
  have hread : readEntries entries k = .readdir .ok endOfDir := by
    simp [readEntries, List.getD_eq_getElem?_getD, hend]
  have hdir : fsDirRead nameLength dir (.readdir .ok endOfDir) =
      (true, ⟨.ok, [], endOfDir.fileInfo⟩) := by
    simp [fsDirRead, strlcpy, endOfDir, ReadResult.internalErrorId, fsParseError,
      SDFileInfo.fileInfo]
  simp only [listingBody, hread, hdir, or_true, if_true]

theorem loop_listingBody (hlength : 1 < nameLength) (hnamed : ∀ entry ∈ entries, entry.fname ≠ [])
    (hrest : entries.drop k = rest) (hfuel : rest.length < fuel) :
    loop (listingBody step nameLength (readEntries entries)) fuel ⟨k, dir, s⟩ =
      some (listEntries step nameLength rest s) := by
  induction rest generalizing k dir s fuel with
  | nil =>
    obtain ⟨fuel, rfl⟩ := Nat.exists_eq_add_one_of_ne_zero (Nat.ne_of_gt hfuel)
    have hend : entries[k]? = none := by
      simpa using congrArg List.head? hrest
    rw [loop, listingBody_end hend]
    rfl
  | cons entry rest ih =>
    obtain ⟨fuel, rfl⟩ := Nat.exists_eq_add_one_of_ne_zero (Nat.ne_zero_of_lt hfuel)
    have hentry : entries[k]? = some entry := by
      simpa using congrArg List.head? hrest
    have hname := hnamed entry (List.mem_of_getElem? hentry)
    rw [loop, listingBody_entry hlength hentry hname, listEntries]
    by_cases hstop : (step s (strlcpy entry.fname nameLength) entry.fileInfo).2
    · simp only [hstop, if_true]
    · simp only [hstop, Bool.false_eq_true, if_false]
      apply ih
      · simpa using congrArg List.tail hrest
      · exact Nat.lt_of_succ_lt_succ hfuel

theorem listDirectory_content {name : List Char} {refused : M} {refusal : Option Bool}
    {finish : Exit → σ → ListingOutcome M} (content : DirContent) (hlength : 1 < nameLength)
    (hfuel : content.entries.length < fuel) :
    listDirectory step nameLength name s refused refusal finish content.input fuel =
      some (finish (listEntries step nameLength content.entries s).1
        (listEntries step nameLength content.entries s).2) := by
  have hloop : loop (listingBody step nameLength (readEntries content.entries)) fuel
      (firstCursor name s) = some (listEntries step nameLength content.entries s) :=
    loop_listingBody hlength content.named List.drop_zero hfuel
  simp only [listDirectory, DirContent.input, Bool.and_self, if_true, hloop, Option.map_some]

end FlipperZero.SdFilesystem
