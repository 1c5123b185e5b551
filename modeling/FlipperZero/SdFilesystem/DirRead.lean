import FlipperZero.Lib.Loop
import FlipperZero.SdFilesystem.FatFs
import Mathlib.Tactic.SplitIfs

/-! # Reading a directory

What `fs_dir_read` hands to its caller, and the loop in which file lists read a directory. What
the volume and the check of the directory answer to each read is an input, so any read may fail
and failures may repeat.
-/

namespace FlipperZero.SdFilesystem

open Lib

structure Attributes where
  readOnly : Bool
  hidden : Bool
  system : Bool
  directory : Bool
  archive : Bool
deriving DecidableEq, Repr

/-- A C string is the list of its characters before the NUL. -/
structure SDFileInfo where
  fname : List Char
  fattrib : Attributes
  fsize : ℕ
  fdate : ℕ
  ftime : ℕ
deriving DecidableEq, Repr

structure FileInfo where
  flags : Attributes
  size : ℕ
  date : ℕ
  time : ℕ
deriving DecidableEq, Repr

inductive ReadResult where
  /-- `_get_dir` fails, for one because there is no card. -/
  | noDir (error : SDError) (h : error ≠ .ok)
  /-- `f_readdir` returns; when it fails, the entry is what the stack held. -/
  | readdir (error : SDError) (info : SDFileInfo)

def ReadResult.internalErrorId : ReadResult → SDError
  | .noDir error _ => error
  | .readdir error _ => error

/-- What a reader keeps of the directory: the error of its file, and its buffers. -/
structure Directory where
  errorId : FSError
  name : List Char
  fileInfo : FileInfo
deriving DecidableEq, Repr

/-- `strlcpy`, which leaves room for the NUL. -/
def strlcpy (src : List Char) (size : ℕ) : List Char := src.take (size - 1)

def fsDirRead (nameLength : ℕ) (d : Directory) (r : ReadResult) : Bool × Directory :=
  (r.internalErrorId = .ok,
    match r with
    | .noDir error _ => { d with errorId := fsParseError error }
    | .readdir error info =>
      { errorId := fsParseError error
        name := strlcpy info.fname nameLength
        fileInfo := ⟨info.fattrib, info.fsize, info.fdate, info.ftime⟩ })

inductive Exit where
  /-- At the end of the directory, or what it takes for it. -/
  | stopped (error : FSError)
  | found
  | failed
deriving DecidableEq, Repr

variable {σ : Type}

structure Cursor (σ : Type) where
  next : ℕ
  dir : Directory
  data : σ

/-- The body of the listing loops; `step` takes an entry and says whether to stop. -/
def listingBody (step : σ → List Char → FileInfo → σ × Bool) (nameLength : ℕ)
    (reads : ℕ → ReadResult) (c : Cursor σ) : (Exit × σ) ⊕ Cursor σ :=
  let r := fsDirRead nameLength c.dir (reads c.next)
  if r.2.errorId = .notExist ∨ r.2.name = [] then .inl (.stopped r.2.errorId, c.data)
  else if r.1 then
    if r.2.errorId = .ok then
      let s := step c.data r.2.name r.2.fileInfo
      if s.2 then .inl (.found, s.1) else .inr ⟨c.next + 1, r.2, s.1⟩
    else .inl (.failed, c.data)
  else .inr ⟨c.next + 1, r.2, c.data⟩

section Input

variable (step : σ → List Char → FileInfo → σ × Bool) (nameLength : ℕ) (reads : ℕ → ReadResult)
variable (c : Cursor σ)

def dirAt : ℕ → Directory
  | 0 => c.dir
  | k + 1 => (fsDirRead nameLength (dirAt k) (reads (c.next + k))).2

def ReadsAt (k : ℕ) : Prop := (reads (c.next + k)).internalErrorId = .ok

instance (k : ℕ) : Decidable (ReadsAt reads c k) := inferInstanceAs (Decidable (_ = _))

def gathered : ℕ → σ
  | 0 => c.data
  | k + 1 =>
    if ReadsAt reads c k then
      (step (gathered k) (dirAt nameLength reads c (k + 1)).name
        (dirAt nameLength reads c (k + 1)).fileInfo).1
    else gathered k

def LastWanted (k : ℕ) : Prop :=
  ReadsAt reads c k ∧
    (step (gathered step nameLength reads c k) (dirAt nameLength reads c (k + 1)).name
      (dirAt nameLength reads c (k + 1)).fileInfo).2 = true

instance (k : ℕ) : Decidable (LastWanted step nameLength reads c k) :=
  inferInstanceAs (Decidable (_ ∧ _))

def EndsAt (k : ℕ) : Prop :=
  (dirAt nameLength reads c (k + 1)).errorId = .notExist ∨
    ReadsAt reads c k ∧ (dirAt nameLength reads c (k + 1)).name = []

/-- The read is an entry, or it fails and leaves a name in the buffer. -/
def GoesOn (k : ℕ) : Prop :=
  (dirAt nameLength reads c (k + 1)).errorId ≠ .notExist ∧
    (dirAt nameLength reads c (k + 1)).name ≠ [] ∧ ¬ LastWanted step nameLength reads c k

/-- Some read finds the end of the directory or the last entry looked for, and each failed read
before it leaves a name in the buffer. -/
def EndsWell : Prop :=
  ∃ k, (EndsAt nameLength reads c k ∨
      (dirAt nameLength reads c (k + 1)).name ≠ [] ∧ LastWanted step nameLength reads c k) ∧
    ∀ j < k, GoesOn step nameLength reads c j

end Input

variable {step : σ → List Char → FileInfo → σ × Bool} {nameLength : ℕ} {reads : ℕ → ReadResult}
variable {c : Cursor σ} {k : ℕ}

@[simp] theorem fsDirRead_errorId (d : Directory) (r : ReadResult) :
    (fsDirRead nameLength d r).2.errorId = fsParseError r.internalErrorId := by
  cases r <;> rfl

theorem fsDirRead_fst (d : Directory) (r : ReadResult) :
    (fsDirRead nameLength d r).1 = true ↔ (fsDirRead nameLength d r).2.errorId = .ok := by
  rw [fsDirRead_errorId, fsParseError_eq_ok]
  exact decide_eq_true_iff

/-- The cursor after `k` rounds that did not leave the loop. -/
def cursorAt (step : σ → List Char → FileInfo → σ × Bool) (nameLength : ℕ)
    (reads : ℕ → ReadResult) (c : Cursor σ) (k : ℕ) : Cursor σ :=
  ⟨c.next + k, dirAt nameLength reads c k, gathered step nameLength reads c k⟩

theorem listingBody_cursorAt :
    listingBody step nameLength reads (cursorAt step nameLength reads c k) =
      if (dirAt nameLength reads c (k + 1)).errorId = .notExist ∨
          (dirAt nameLength reads c (k + 1)).name = [] then
        .inl (.stopped (dirAt nameLength reads c (k + 1)).errorId,
          gathered step nameLength reads c k)
      else if LastWanted step nameLength reads c k then
        .inl (.found, gathered step nameLength reads c (k + 1))
      else .inr (cursorAt step nameLength reads c (k + 1)) := by
  have hdir : (fsDirRead nameLength (dirAt nameLength reads c k) (reads (c.next + k))).2 =
      dirAt nameLength reads c (k + 1) := rfl
  have hreads : (fsDirRead nameLength (dirAt nameLength reads c k) (reads (c.next + k))).1 = true ↔
      ReadsAt reads c k := decide_eq_true_iff
  have hok : ReadsAt reads c k ↔ (dirAt nameLength reads c (k + 1)).errorId = .ok :=
    hreads.symm.trans (fsDirRead_fst ..)
  unfold listingBody
  simp only [cursorAt, hdir]
  split
  · rfl
  · by_cases hr : ReadsAt reads c k
    · rw [if_pos (hreads.mpr hr), if_pos (hok.mp hr)]
      by_cases hs : (step (gathered step nameLength reads c k) (dirAt nameLength reads c (k + 1)).name
          (dirAt nameLength reads c (k + 1)).fileInfo).2 = true
      · rw [if_pos hs, if_pos ⟨hr, hs⟩, gathered, if_pos hr]
      · rw [if_neg hs, if_neg fun h => hs h.2, gathered, if_pos hr, Nat.add_assoc]
    · rw [if_neg fun h => hr (hreads.mp h), if_neg fun h => hr h.1, gathered, if_neg hr,
        Nat.add_assoc]

theorem rounds_cursorAt (h : ∀ j < k, GoesOn step nameLength reads c j) :
    rounds (listingBody step nameLength reads) k c = some (cursorAt step nameLength reads c k) := by
  induction k with
  | zero => rfl
  | succ k ih =>
    obtain ⟨herror, hname, hlast⟩ := h k (Nat.lt_succ_self k)
    rw [rounds_succ, ih fun j hj => h j (Nat.lt_succ_of_lt hj), Option.bind_some, rounds,
      listingBody_cursorAt, if_neg (by simp [herror, hname]), if_neg hlast]
    rfl

theorem goesOn_of_rounds {c' : Cursor σ}
    (h : rounds (listingBody step nameLength reads) k c = some c') :
    c' = cursorAt step nameLength reads c k ∧ ∀ j < k, GoesOn step nameLength reads c j := by
  induction k generalizing c' with
  | zero => exact ⟨(Option.some.inj h).symm, fun j hj => absurd hj (Nat.not_lt_zero j)⟩
  | succ k ih =>
    rw [rounds_succ] at h
    obtain ⟨c₁, h₁, h⟩ := Option.bind_eq_some_iff.mp h
    obtain ⟨rfl, hgo⟩ := ih h₁
    rw [rounds, listingBody_cursorAt] at h
    split_ifs at h with hstop hlast
    · refine ⟨(Option.some.inj h).symm, fun j hj => ?_⟩
      rcases Nat.lt_succ_iff_lt_or_eq.mp hj with hj | rfl
      · exact hgo j hj
      · rw [not_or] at hstop
        exact ⟨hstop.1, hstop.2, hlast⟩

theorem listing_iff :
    (∃ n r, loop (listingBody step nameLength reads) n c = some r ∧
      ∀ e, r.1 = .stopped e → e ≠ .ok → e = .notExist) ↔ EndsWell step nameLength reads c := by
  constructor
  · rintro ⟨n, r, hn, hr⟩
    obtain ⟨k, c', hk, hbody⟩ := loop_iff.mp ⟨n, hn⟩
    obtain ⟨rfl, hgo⟩ := goesOn_of_rounds hk
    refine ⟨k, ?_, hgo⟩
    rw [listingBody_cursorAt] at hbody
    split_ifs at hbody with hstop hlast
    · obtain rfl := Sum.inl.inj hbody
      left
      rcases hstop with herror | hname
      · exact .inl herror
      · by_cases hok : (dirAt nameLength reads c (k + 1)).errorId = .ok
        · refine .inr ⟨?_, hname⟩
          rw [dirAt, fsDirRead_errorId, fsParseError_eq_ok] at hok
          exact hok
        · exact .inl (hr _ rfl hok)
    · rw [not_or] at hstop
      exact .inr ⟨hstop.2, hlast⟩
  · rintro ⟨k, hend, hgo⟩
    have hrounds := rounds_cursorAt hgo
    rcases hend with hend | ⟨hname, hlast⟩
    · have hbody : listingBody step nameLength reads (cursorAt step nameLength reads c k) =
          .inl (.stopped (dirAt nameLength reads c (k + 1)).errorId,
            gathered step nameLength reads c k) := by
        rw [listingBody_cursorAt, if_pos (hend.imp_right And.right)]
      obtain ⟨n, hn⟩ := loop_iff.mpr ⟨k, _, hrounds, hbody⟩
      refine ⟨n, _, hn, ?_⟩
      intro e he hne
      obtain rfl := Exit.stopped.inj he
      rcases hend with herror | ⟨hok, -⟩
      · exact herror
      · refine absurd ?_ hne
        rw [dirAt, fsDirRead_errorId, fsParseError_eq_ok]
        exact hok
    · have hread : (dirAt nameLength reads c (k + 1)).errorId ≠ .notExist := by
        have hok : (dirAt nameLength reads c (k + 1)).errorId = .ok := by
          rw [dirAt, fsDirRead_errorId, fsParseError_eq_ok]
          exact hlast.1
        simp [hok]
      have hbody : listingBody step nameLength reads (cursorAt step nameLength reads c k) =
          .inl (.found, gathered step nameLength reads c (k + 1)) := by
        rw [listingBody_cursorAt, if_neg (by simp [hread, hname]), if_pos hlast]
      obtain ⟨n, hn⟩ := loop_iff.mpr ⟨k, _, hrounds, hbody⟩
      exact ⟨n, _, hn, fun e he => by cases he⟩

section Lists

/-- What a function that lists a directory meets: whether its buffer can be allocated and the
directory opened, and what the reads give. -/
structure ListingInput where
  allocated : Bool
  opened : Bool
  reads : ℕ → ReadResult

/-- What such a function leaves, and how its loop was left when it was entered; a result of `none`
is that of a `void` function. -/
structure ListingOutcome (M : Type) where
  exit : Option Exit
  result : Option Bool
  model : M
deriving DecidableEq, Repr

variable {M : Type}

def firstCursor (name : List Char) (data : σ) : Cursor σ :=
  ⟨0, ⟨.ok, name, ⟨⟨false, false, false, false, false⟩, 0, 0, 0⟩⟩, data⟩

/-- List a directory: `name` is what the name buffer holds at first. -/
def listDirectory (step : σ → List Char → FileInfo → σ × Bool) (nameLength : ℕ) (name : List Char)
    (data : σ) (refused : M) (refusal : Option Bool) (finish : Exit → σ → ListingOutcome M)
    (input : ListingInput) (fuel : ℕ) : Option (ListingOutcome M) :=
  if input.allocated && input.opened then
    (loop (listingBody step nameLength input.reads) fuel (firstCursor name data)).map
      fun r => finish r.1 r.2
  else some ⟨none, refusal, refused⟩

/-- The function returns, and reports failure when its loop stopped on an error that is not the
end of the directory. -/
def Reports (f : ℕ → Option (ListingOutcome M)) : Prop :=
  ∃ n out, f n = some out ∧
    ∀ e, out.exit = some (.stopped e) → e ≠ .ok → e ≠ .notExist → out.result = some false

theorem listDirectory_reports_iff {name : List Char} {data : σ} {refused : M}
    {refusal : Option Bool} {finish : Exit → σ → ListingOutcome M} {input : ListingInput}
    (hexit : ∀ e s, (finish e s).exit = some e)
    (hresult : ∀ e s, (finish (.stopped e) s).result ≠ some false) :
    Reports (listDirectory step nameLength name data refused refusal finish input) ↔
      (input.allocated && input.opened) = false ∨
        EndsWell step nameLength input.reads (firstCursor name data) := by
  unfold Reports listDirectory
  cases input.allocated && input.opened with
  | false =>
    simp only [Bool.false_eq_true, if_false, true_or, iff_true]
    exact ⟨0, _, rfl, fun e he => by cases he⟩
  | true =>
    simp only [if_true, Bool.true_eq_false, false_or, ← listing_iff]
    constructor
    · rintro ⟨n, out, hout, hreport⟩
      obtain ⟨r, hr, rfl⟩ := Option.map_eq_some_iff.mp hout
      refine ⟨n, r, hr, fun e he hok => ?_⟩
      by_contra hne
      have hfalse := hreport e (by rw [hexit, he]) hok hne
      rw [he] at hfalse
      exact hresult e _ hfalse
    · rintro ⟨n, r, hr, hends⟩
      refine ⟨n, finish r.1 r.2, by rw [hr]; rfl, ?_⟩
      intro e he hok hne
      rw [hexit] at he
      exact absurd (hends e (Option.some.inj he) hok) hne

end Lists

end FlipperZero.SdFilesystem
