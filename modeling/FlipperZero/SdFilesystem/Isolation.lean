import FlipperZero.SdFilesystem.Moves

/-! # Isolation of the open files

A slot is used only while it is held by the thread that found it and was taken by the last
open of the same `File`. Then every call acts on the object that this open made.
-/

namespace FlipperZero.SdFilesystem

open Lib

variable {Thread Ptr : Type}

/-- A call acted only on the object last opened through its `File`; an operation that acted on none
reported an error. -/
def Outcome.Isolated (x : Outcome Thread Ptr) : Prop :=
  (∀ p ∈ x.touches, p.2 = some p.1) ∧ (x.op ≠ none → x.touches = [] → x.errorId ≠ .ok)

/-- The slot is still held by the thread, and the last open of the `File` took it. -/
def SdFsInfo.Holds (s : SdFsInfo Thread Ptr) (t : Thread) (f : Ptr) (i : Slot) : Prop :=
  (s.files i).threadId = some t ∧ (s.files i).opening = (s.file f).opening

/-- A step acts on a slot only while it is held and its object is valid: between the test of the
object and the lock of its volume nobody has taken either. -/
def Held (s : SdFsInfo Thread Ptr) : SdLabel Thread Ptr → Prop
  | .findVolume t =>
    match s.pc t with
    | .opening _ _ i _ => (s.files i).threadId = some t
    | _ => True
  | .fOpen t _ _ =>
    match s.pc t with
    | .entering _ _ i _ => (s.files i).threadId = some t
    | _ => True
  | .call t _ _ =>
    match s.pc t with
    | .calling f _ i _ _ | .acting f _ i _ _ =>
      s.Holds t f i ∧ s.fatFs.validate (s.files i).data = true
    | _ => True
  | .free t =>
    match s.pc t with
    | .closing f _ i _ _ => s.Holds t f i
    | _ => True
  | _ => True

namespace Isolation

/-- The `File`, the slot and the number of an open that has taken its slot. -/
def ThreadPc.opens : ThreadPc Ptr → Option (Ptr × Slot × ℕ)
  | .opening f _ i n | .entering f _ i n => some (f, i, n)
  | _ => none

/-- What the FatFs calls of an operation have touched. -/
def ThreadPc.touches : ThreadPc Ptr → List (ℕ × Option ℕ)
  | .calling _ _ _ _ touches | .acting _ _ _ _ touches | .closing _ _ _ _ touches => touches
  | _ => []

/-- An open that has taken its slot and not yet made its object. -/
structure Pending (s : SdFsInfo Thread Ptr) (t : Thread) (f : Ptr) (i : Slot) (n : ℕ) : Prop where
  eq : ∀ g, (s.file g).opening = n → g = f
  le : n ≤ (s.file f).opening
  lt : n < s.openings
  slot : (s.files i).threadId = some t → (s.files i).opening = n ∧ (s.files i).data = none

structure Inv (s : SdFsInfo Thread Ptr) : Prop where
  file_lt : ∀ f, (s.file f).opening < s.openings
  slot_lt : ∀ i, (s.files i).opening < s.openings
  opened_le : ∀ f o, s.opened f = some o → o.opening ≤ (s.file f).opening
  slots : ∀ i o, (s.files i).threadId ≠ none → (s.files i).data = some o →
    o.opening = (s.files i).opening ∧
      ∀ f, (s.file f).opening = (s.files i).opening → s.opened f = some o
  distinct : ∀ i j, (s.files i).threadId ≠ none → (s.files j).threadId ≠ none →
    (s.files i).opening = (s.files j).opening → i = j
  pending : ∀ t f i n, ThreadPc.opens (s.pc t) = some (f, i, n) → Pending s t f i n
  touches : ∀ t, ∀ p ∈ ThreadPc.touches (s.pc t), p.2 = some p.1
  closing : ∀ t f op i e, s.pc t = .closing f op i e [] → e ≠ .ok
  log : ∀ x ∈ s.log, x.Isolated

variable {s s' : SdFsInfo Thread Ptr} {l : SdLabel Thread Ptr}

theorem Inv.sameTable (h : Inv s) (hs : SameTable s s') : Inv s' := by
  obtain ⟨hfiles, hfile, hpc, hopenings, hopened, -, hlog⟩ := hs
  constructor
  · simpa only [hfile, hopenings] using h.file_lt
  · simpa only [hfiles, hopenings] using h.slot_lt
  · simpa only [hfile, hopened] using h.opened_le
  · simpa only [hfiles, hfile, hopened] using h.slots
  · simpa only [hfiles] using h.distinct
  · intro t f i n ht
    have hp := h.pending t f i n (hpc ▸ ht)
    exact ⟨by simpa only [hfile] using hp.eq, by simpa only [hfile] using hp.le,
      by simpa only [hopenings] using hp.lt, by simpa only [hfiles] using hp.slot⟩
  · simpa only [hpc] using h.touches
  · simpa only [hpc] using h.closing
  · simpa only [hlog] using h.log

variable {t : Thread} {f : Ptr} {i : Slot}

theorem setFiles_threadId {filedata : FileData Thread}
    (h : filedata.threadId = (s.files i).threadId) (j : Slot) :
    ((s.setFiles i filedata).files j).threadId = (s.files j).threadId := by
  simp only [SdFsInfo.setFiles, Function.update_apply]
  split
  · subst j
    exact h
  · rfl

theorem setFiles_opening {filedata : FileData Thread}
    (h : filedata.opening = (s.files i).opening) (j : Slot) :
    ((s.setFiles i filedata).files j).opening = (s.files j).opening := by
  simp only [SdFsInfo.setFiles, Function.update_apply]
  split
  · subst j
    exact h
  · rfl

theorem setFiles_data (filedata : FileData Thread) (j : Slot) :
    ((s.setFiles i filedata).files j).data = if j = i then filedata.data else (s.files j).data := by
  simp only [SdFsInfo.setFiles, Function.update_apply]
  split <;> rfl

theorem Inv.setFiles (h : Inv s) {filedata : FileData Thread}
    (hopening : filedata.opening = (s.files i).opening)
    (hthread : ∀ u, filedata.threadId = some u → (s.files i).threadId = some u)
    (hdata : ∀ o, filedata.data = some o → (s.files i).data = some o) :
    Inv (s.setFiles i filedata) := by
  have hheld : ∀ j, ((s.setFiles i filedata).files j).threadId ≠ none →
      (s.files j).threadId ≠ none := by
    intro j hj
    simp only [SdFsInfo.setFiles, Function.update_apply] at hj
    split at hj
    · subst j
      obtain ⟨u, hu⟩ := Option.ne_none_iff_exists'.mp hj
      simp [hthread u hu]
    · exact hj
  have hopenings := setFiles_opening (s := s) hopening
  have hobject : ∀ j o, ((s.setFiles i filedata).files j).data = some o →
      (s.files j).data = some o := by
    intro j o hj
    rw [setFiles_data] at hj
    split at hj
    · subst j
      exact hdata o hj
    · exact hj
  constructor
  · exact h.file_lt
  · intro j
    rw [hopenings]
    exact h.slot_lt j
  · exact h.opened_le
  · intro j o hj ho
    rw [hopenings]
    exact h.slots j o (hheld j hj) (hobject j o ho)
  · intro j k hj hk hjk
    rw [hopenings, hopenings] at hjk
    exact h.distinct j k (hheld j hj) (hheld k hk) hjk
  · intro u g j n hu
    obtain ⟨heq, hle, hlt, hslot⟩ := h.pending u g j n hu
    refine ⟨heq, hle, hlt, fun hj => ?_⟩
    have hj' : (s.files j).threadId = some u := by
      simp only [SdFsInfo.setFiles, Function.update_apply] at hj
      split at hj
      · subst j
        exact hthread u hj
      · exact hj
    obtain ⟨hn, hnone⟩ := hslot hj'
    refine ⟨(hopenings j).trans hn, Option.eq_none_iff_forall_ne_some.mpr fun o ho => ?_⟩
    simp [hobject j o ho] at hnone
  · exact h.touches
  · exact h.closing
  · exact h.log

theorem Inv.forget (h : Inv s) {n : ℕ}
    (hfree : ∀ j, (s.files j).threadId ≠ none → (s.files j).opening ≠ n) : Inv (s.forget n) := by
  constructor
  · exact h.file_lt
  · exact h.slot_lt
  · intro g o ho
    exact h.opened_le g o (Option.filter_eq_some_iff.mp ho).1
  · intro j o hj ho
    obtain ⟨hn, hopened⟩ := h.slots j o hj ho
    refine ⟨hn, fun g hg => Option.filter_eq_some_iff.mpr ⟨hopened g hg, ?_⟩⟩
    simpa [hn] using hfree j hj
  · exact h.distinct
  · intro u g j m hu
    obtain ⟨heq, hle, hlt, hslot⟩ := h.pending u g j m hu
    exact ⟨heq, hle, hlt, hslot⟩
  · exact h.touches
  · exact h.closing
  · exact h.log

theorem Inv.release (h : Inv s) {filedata : FileData Thread}
    (hheld : (s.files i).threadId ≠ none) (hthread : filedata.threadId = none)
    (hopening : filedata.opening = (s.files i).opening)
    (hdata : ∀ o, filedata.data = some o → (s.files i).data = some o) :
    Inv ((s.setFiles i filedata).forget (s.files i).opening) := by
  refine (h.setFiles hopening (by simp [hthread]) hdata).forget fun j hj hn => ?_
  simp only [SdFsInfo.setFiles, Function.update_apply] at hj hn
  split at hj
  · exact hj hthread
  · next hji =>
    rw [if_neg hji] at hn
    exact hji (h.distinct j i hj hheld hn)

theorem Inv.touched (h : Inv s) (hheld : s.Holds t f i) {p : ℕ × Option ℕ}
    (hp : p ∈ s.touched f i) : p.2 = some p.1 := by
  obtain ⟨hthread, hopening⟩ := hheld
  simp only [SdFsInfo.touched, Option.mem_toList, Option.map_eq_some_iff,
    Option.filter_eq_some_iff] at hp
  obtain ⟨o, ⟨ho, hvalid⟩, rfl⟩ := hp
  have hopened := (h.slots i o (by simp [hthread]) ho).2 f hopening.symm
  simp [SdFsInfo.expected, hopened, Option.filter_some, hvalid]

theorem touched_eq_nil (h : s.touched f i = []) : s.fatFs.validate (s.files i).data = false := by
  unfold SdFsInfo.touched at h
  unfold FatFs.validate
  cases hdata : (s.files i).data with
  | none => rfl
  | some o =>
    rw [hdata] at h
    by_cases hvalid : s.fatFs.valid o = true
    · simp [Option.filter_some, hvalid] at h
    · simpa using hvalid

theorem acted_eq_touched (h : s.fatFs.validate (s.files i).data = true) :
    s.acted f i = s.touched f i := by
  unfold SdFsInfo.acted SdFsInfo.touched
  cases hdata : (s.files i).data with
  | none => rfl
  | some o =>
    rw [hdata] at h
    have hvalid : s.fatFs.valid o = true := h
    simp [Option.filter_some, hvalid]

theorem Inv.append_touched (h : Inv s) (hheld : s.Holds t f i)
    (hvalid : s.fatFs.validate (s.files i).data = true) {touches : List (ℕ × Option ℕ)}
    (htouches : ∀ p ∈ touches, p.2 = some p.1) :
    (∀ p ∈ touches ++ s.touched f i, p.2 = some p.1) ∧ touches ++ s.touched f i ≠ [] := by
  constructor
  · intro p hp
    rcases List.mem_append.mp hp with hp | hp
    · exact htouches p hp
    · exact h.touched hheld hp
  · intro hnil
    have hnone := touched_eq_nil (List.append_eq_nil_iff.mp hnil).2
    rw [hvalid] at hnone
    cases hnone

theorem invalidated_eq_some {op : FileOp} {e : SDError} {o : Fid}
    (h : s.invalidated op i e = some o) : (s.files i).data = some o := by
  unfold SdFsInfo.invalidated at h
  split at h
  · cases h
  · exact h

section Openings

variable [DecidableEq Ptr]

theorem recordOpened_eq_some {obj : Option Fid} {g : Ptr} {o : Fid}
    (h : s.recordOpened f obj g = some o) : s.opened g = some o ∨ g = f ∧ obj = some o := by
  unfold SdFsInfo.recordOpened at h
  split at h
  · split at h
    · exact .inl h
    · rw [Function.update_apply] at h
      split at h
      · next hg => exact .inr ⟨hg, h⟩
      · exact .inl h
  · exact .inl h

theorem recordOpened_of_ne {obj : Option Fid} {g : Ptr} (hg : g ≠ f) :
    s.recordOpened f obj g = s.opened g := by
  unfold SdFsInfo.recordOpened
  split
  · split
    · rfl
    · exact Function.update_of_ne hg _ _
  · rfl

theorem recordOpened_self {o : Fid} (h : ∀ o', s.opened f = some o' → o'.opening ≤ o.opening) :
    s.recordOpened f (some o) f = some o := by
  unfold SdFsInfo.recordOpened
  dsimp only
  rw [if_neg, Function.update_self]
  cases hopened : s.opened f with
  | none => simp
  | some o' => simpa using h o' hopened

theorem recordOpened_of_newer {obj : Option Fid} {o : Fid} (ho : s.opened f = some o)
    (h : ∀ o', obj = some o' → o'.opening < o.opening) : s.recordOpened f obj = s.opened := by
  unfold SdFsInfo.recordOpened
  split
  · next o' => rw [if_pos (by simpa [ho] using h o' rfl)]
  · rfl

theorem Inv.fOpen (h : Inv s) {n : ℕ} {obj : Option Fid} (hpending : Pending s t f i n)
    (hpc : s.pc t = .idle) (hobj : ∀ o, obj = some o → o.opening = n)
    (hheld : (s.files i).threadId = some t) (fs : FatFs) :
    Inv { s.setFiles i { s.files i with data := obj } with
        fatFs := fs, opened := s.recordOpened f obj } := by
  obtain ⟨heq, hle, hlt, hslot⟩ := hpending
  obtain ⟨hn, hnone⟩ := hslot hheld
  have hthreads : ∀ j, ((s.setFiles i { s.files i with data := obj }).files j).threadId =
      (s.files j).threadId := setFiles_threadId rfl
  have hopenings : ∀ j, ((s.setFiles i { s.files i with data := obj }).files j).opening =
      (s.files j).opening := setFiles_opening rfl
  constructor
  · exact h.file_lt
  · intro j
    rw [hopenings]
    exact h.slot_lt j
  · intro g o ho
    rcases recordOpened_eq_some ho with hog | ⟨rfl, hog⟩
    · exact h.opened_le g o hog
    · exact (hobj o hog).trans_le hle
  · intro j o hj ho
    dsimp only at hj ho ⊢
    rw [hthreads] at hj
    rw [setFiles_data] at ho
    rw [hopenings]
    split at ho
    · next hji =>
      subst hji
      refine ⟨(hobj o ho).trans hn.symm, fun g hg => ?_⟩
      obtain rfl := heq g (hg.trans hn)
      rw [show obj = some o from ho]
      refine recordOpened_self fun o' ho' => ?_
      calc o'.opening ≤ (s.file g).opening := h.opened_le g o' ho'
        _ = o.opening := by rw [hobj o ho, ← hn]; exact hg
    · next hji =>
      obtain ⟨hno, hopened⟩ := h.slots j o hj ho
      refine ⟨hno, fun g hg => ?_⟩
      have hog := hopened g hg
      by_cases hgf : g = f
      · subst hgf
        have hne : n ≠ o.opening := by
          intro hnj
          exact hji (h.distinct j i hj (by simp [hheld]) (hno.symm.trans (hnj.symm.trans hn.symm)))
        have hnewer : n < o.opening := lt_of_le_of_ne (hle.trans (hg.trans hno.symm).le) hne
        rw [recordOpened_of_newer hog fun o' ho' => (hobj o' ho').trans_lt hnewer]
        exact hog
      · rw [recordOpened_of_ne hgf]
        exact hog
  · intro j k hj hk hjk
    dsimp only at hj hk hjk
    rw [hthreads] at hj hk
    rw [hopenings, hopenings] at hjk
    exact h.distinct j k hj hk hjk
  · intro u g j m hu
    obtain ⟨heq', hle', hlt', hslot'⟩ := h.pending u g j m hu
    refine ⟨heq', hle', hlt', fun hj => ?_⟩
    dsimp only at hj ⊢
    rw [hthreads] at hj
    rw [hopenings, setFiles_data, if_neg]
    · exact hslot' hj
    · rintro rfl
      rw [Option.some.inj (hj.symm.trans hheld)] at hu
      have hopens : ThreadPc.opens (s.pc t) = some (g, j, m) := hu
      rw [hpc] at hopens
      cases hopens
  · exact h.touches
  · exact h.closing
  · exact h.log

end Openings

variable [DecidableEq Thread]

theorem Inv.setPc (h : Inv s) {pc : ThreadPc Ptr}
    (hopens : ∀ f i n, ThreadPc.opens pc = some (f, i, n) → Pending s t f i n)
    (htouches : ∀ p ∈ ThreadPc.touches pc, p.2 = some p.1)
    (hclosing : ∀ f op i e, pc = .closing f op i e [] → e ≠ .ok) : Inv (s.setPc t pc) := by
  constructor
  · exact h.file_lt
  · exact h.slot_lt
  · exact h.opened_le
  · exact h.slots
  · exact h.distinct
  · intro u g j n hu
    have hp : Pending s u g j n := by
      simp only [SdFsInfo.setPc, Function.update_apply] at hu
      split at hu
      · subst u
        exact hopens g j n hu
      · exact h.pending u g j n hu
    exact ⟨hp.eq, hp.le, hp.lt, hp.slot⟩
  · intro u p hp
    simp only [SdFsInfo.setPc, Function.update_apply] at hp
    split at hp
    · exact htouches p hp
    · exact h.touches u p hp
  · intro u g op j e hu
    simp only [SdFsInfo.setPc, Function.update_apply] at hu
    split at hu
    · exact hclosing g op j e hu
    · exact h.closing u g op j e hu
  · exact h.log

variable [DecidableEq Ptr]

theorem inv_init (fileId : Ptr → ℕ) : Inv (sdFilesystem Thread Ptr fileId).init := by
  constructor <;> simp [sdFilesystem, ThreadPc.opens, ThreadPc.touches]

theorem Inv.setOwed (h : Inv s) (b : Bool) : Inv (s.setOwed t f b) := by
  refine ⟨h.file_lt, h.slot_lt, h.opened_le, h.slots, h.distinct, ?_, h.touches, h.closing, h.log⟩
  intro u g j n hu
  obtain ⟨heq, hle, hlt, hslot⟩ := h.pending u g j n hu
  exact ⟨heq, hle, hlt, hslot⟩

theorem Inv.finish (h : Inv s) {op : Option FileOp} {e : SDError} {v : Value}
    {touches : List (ℕ × Option ℕ)}
    (hx : Outcome.Isolated ⟨t, f, op, fsParseError e, v, touches⟩) :
    Inv (s.finish t f op e v touches) := by
  constructor
  · simpa using h.file_lt
  · simpa using h.slot_lt
  · simpa using h.opened_le
  · simpa using h.slots
  · simpa using h.distinct
  · intro u g j n hu
    have hp : Pending s u g j n := by
      simp only [SdFsInfo.finish_pc, Function.update_apply] at hu
      split at hu
      · cases hu
      · exact h.pending u g j n hu
    exact ⟨by simpa using hp.eq, by simpa using hp.le, by simpa using hp.lt, by simpa using hp.slot⟩
  · intro u p hp
    simp only [SdFsInfo.finish_pc, Function.update_apply] at hp
    split at hp
    · cases hp
    · exact h.touches u p hp
  · intro u g op' j e' hu
    simp only [SdFsInfo.finish_pc, Function.update_apply] at hu
    split at hu
    · cases hu
    · exact h.closing u g op' j e' hu
  · intro x hmem
    rw [SdFsInfo.finish_log] at hmem
    rcases List.mem_cons.mp hmem with rfl | hmem
    · exact hx
    · exact h.log x hmem

theorem Inv.pending_takeSlot (h : Inv s) (isDir : Bool) :
    Pending (s.takeSlot t f isDir i) t f i s.openings := by
  refine ⟨fun g hg => ?_, ?_, Nat.lt_succ_self _, fun _ => ?_⟩
  · rw [SdFsInfo.takeSlot_file_opening] at hg
    split at hg
    · assumption
    · exact absurd hg (h.file_lt g).ne
  · rw [SdFsInfo.takeSlot_file_opening, if_pos rfl]
  · rw [SdFsInfo.takeSlot_files, if_pos rfl]
    exact ⟨rfl, rfl⟩

theorem Pending.takeSlot {u : Thread} {g : Ptr} {j : Slot} {n : ℕ} (h : Pending s u g j n)
    (hut : u ≠ t) (isDir : Bool) : Pending (s.takeSlot t f isDir i) u g j n := by
  obtain ⟨heq, hle, hlt, hslot⟩ := h
  refine ⟨fun g' hg' => ?_, ?_, Nat.lt_succ_of_lt hlt, fun hj => ?_⟩
  · rw [SdFsInfo.takeSlot_file_opening] at hg'
    split at hg'
    · exact absurd hg' hlt.ne'
    · exact heq g' hg'
  · rw [SdFsInfo.takeSlot_file_opening]
    split
    · exact hlt.le
    · exact hle
  · rw [SdFsInfo.takeSlot_files] at hj ⊢
    split at hj
    · exact absurd (Option.some.inj hj).symm hut
    · next hji =>
      rw [if_neg hji]
      exact hslot hj

theorem Inv.takeSlot (h : Inv s) (isDir : Bool) :
    Inv (s.takeSlot t f isDir i) := by
  constructor
  · intro g
    have hg : ((s.takeSlot t f isDir i).file g).opening < s.openings + 1 := by
      rw [SdFsInfo.takeSlot_file_opening]
      split
      · exact Nat.lt_succ_self _
      · exact Nat.lt_succ_of_lt (h.file_lt g)
    exact hg
  · intro j
    have hj : ((s.takeSlot t f isDir i).files j).opening < s.openings + 1 := by
      rw [SdFsInfo.takeSlot_files]
      split
      · exact Nat.lt_succ_self _
      · exact Nat.lt_succ_of_lt (h.slot_lt j)
    exact hj
  · intro g o ho
    rw [SdFsInfo.takeSlot_file_opening]
    have hle := h.opened_le g o ho
    split
    · exact (hle.trans_lt (h.file_lt g)).le
    · exact hle
  · intro j o hj ho
    rw [SdFsInfo.takeSlot_files] at hj ho ⊢
    split at hj
    · next hji => simp [hji] at ho
    · next hji =>
      rw [if_neg hji] at ho ⊢
      obtain ⟨hn, hopened⟩ := h.slots j o hj ho
      refine ⟨hn, fun g hg => ?_⟩
      rw [SdFsInfo.takeSlot_file_opening] at hg
      split at hg
      · exact absurd hg (h.slot_lt j).ne'
      · exact hopened g hg
  · intro j k hj hk hjk
    rw [SdFsInfo.takeSlot_files] at hj hk hjk
    rw [SdFsInfo.takeSlot_files] at hjk
    have hltj := h.slot_lt j
    have hltk := h.slot_lt k
    split at hj <;> split at hk
    · next hji hki => exact hji.trans hki.symm
    · next hji hki =>
      rw [if_pos hji, if_neg hki] at hjk
      exact absurd hjk hltk.ne'
    · next hji hki =>
      rw [if_neg hji, if_pos hki] at hjk
      exact absurd hjk hltj.ne
    · next hji hki =>
      rw [if_neg hji, if_neg hki] at hjk
      exact h.distinct j k hj hk hjk
  · intro u g j n hu
    simp only [SdFsInfo.takeSlot, SdFsInfo.setPc, Function.update_apply] at hu
    split at hu
    · next hut =>
      obtain ⟨rfl, rfl, rfl⟩ : f = g ∧ i = j ∧ s.openings = n := by
        simpa [ThreadPc.opens] using hu
      exact hut ▸ h.pending_takeSlot isDir
    · next hut => exact (h.pending u g j n hu).takeSlot hut isDir
  · intro u p hp
    simp only [SdFsInfo.takeSlot, SdFsInfo.setPc, Function.update_apply] at hp
    split at hp
    · cases hp
    · exact h.touches u p hp
  · intro u g op j e hu
    simp only [SdFsInfo.takeSlot, SdFsInfo.setPc, Function.update_apply] at hu
    split at hu
    · cases hu
    · exact h.closing u g op j e hu
  · exact h.log

theorem Inv.leave (h : Inv s) {op : FileOp} {e : SDError} {v : ℕ} {touches : List (ℕ × Option ℕ)}
    (htouches : ∀ p ∈ touches, p.2 = some p.1) (hnil : touches = [] → e ≠ .ok) :
    Inv (s.leave t f op i e v touches) := by
  unfold SdFsInfo.leave
  split
  · refine h.setPc (by simp [ThreadPc.opens]) htouches ?_
    intro f' op' i' e' hclosing
    obtain ⟨rfl, rfl, rfl, rfl, rfl⟩ := ThreadPc.closing.inj hclosing
    exact hnil rfl
  · refine h.finish ⟨htouches, fun _ hnone => ?_⟩
    simpa [fsParseError_eq_ok] using hnil hnone

theorem Inv.next (h : Inv s) (hok : Held s l) (hmove : Move s l s') : Inv s' := by
  cases hmove with
  | take t f isDir i hpc hi => exact h.takeSlot isDir
  | full t f isDir hpc => exact (h.setOwed true).finish ⟨by simp, by simp⟩
  | @unregistered t f isDir i n hpc =>
    have hheld : (s.files i).threadId = some t := by simpa only [Held, hpc] using hok
    have hpending := h.pending t f i n (by rw [hpc]; rfl)
    have hinv : Inv (s.setFiles i { s.files i with data := none }) :=
      h.setFiles rfl (fun _ hu => hu) (by simp)
    refine hinv.finish ⟨?_, by simp⟩
    simp [SdFsInfo.overwritten, (hpending.slot hheld).2]
  | @findVolume t f isDir i n hpc =>
    refine h.setPc ?_ (by simp [ThreadPc.touches]) (by simp)
    intro g j m hopens
    exact h.pending t g j m (by rw [hpc]; exact hopens)
  | @fOpen t v e f isDir i n fs obj hpc hopen =>
    have hheld : (s.files i).threadId = some t := by simpa only [Held, hpc] using hok
    have hpending := h.pending t f i n (by rw [hpc]; rfl)
    have hidle : Inv (s.setPc t .idle) :=
      h.setPc (by simp [ThreadPc.opens]) (by simp [ThreadPc.touches]) (by simp)
    have hinv := hidle.fOpen (t := t) (i := i) (f := f)
      ⟨hpending.eq, hpending.le, hpending.lt, hpending.slot⟩ (by simp [SdFsInfo.setPc])
      (fun o => FatFs.fOpen_obj hopen) hheld fs
    rw [← SdFsInfo.setPc_finish .idle]
    refine hinv.finish ⟨?_, by simp⟩
    simp [SdFsInfo.overwritten, (hpending.slot hheld).2]
  | refuse t f op e hpc hget =>
    refine h.finish ⟨by simp, fun _ _ => ?_⟩
    simpa [fsParseError_eq_ok] using SdFsInfo.getFiledata_error hget
  | start t f op i hpc hget =>
    exact h.setPc (by simp [ThreadPc.opens]) (by simp [ThreadPc.touches]) (by simp)
  | @valid t f op i synced touches hpc =>
    have htouches := h.touches t
    rw [hpc] at htouches
    exact h.setPc (by simp [ThreadPc.opens]) htouches (by simp)
  | @invalid t f op i synced touches hpc =>
    have htouches := h.touches t
    rw [hpc] at htouches
    exact h.leave htouches fun _ => SDError.noConfusion
  | @read t e v f op i synced touches hpc hop =>
    obtain ⟨hheld, hvalid⟩ : s.Holds t f i ∧ s.fatFs.validate (s.files i).data = true := by
      simpa only [Held, hpc] using hok
    have htouches := h.touches t
    rw [hpc] at htouches
    obtain ⟨hall, hne⟩ := h.append_touched hheld hvalid htouches
    exact h.finish ⟨hall, fun _ hnil => absurd hnil hne⟩
  | @fSync t v f op i synced touches hpc =>
    obtain ⟨hheld, hvalid⟩ : s.Holds t f i ∧ s.fatFs.validate (s.files i).data = true := by
      simpa only [Held, hpc] using hok
    have htouches := h.touches t
    rw [hpc] at htouches
    rw [acted_eq_touched hvalid]
    exact h.setPc (by simp [ThreadPc.opens]) (h.append_touched hheld hvalid htouches).1 (by simp)
  | @syncFails t e v f op i synced touches hpc hop =>
    obtain ⟨hheld, hvalid⟩ : s.Holds t f i ∧ s.fatFs.validate (s.files i).data = true := by
      simpa only [Held, hpc] using hok
    have htouches := h.touches t
    rw [hpc] at htouches
    rw [acted_eq_touched hvalid]
    obtain ⟨hall, hne⟩ := h.append_touched hheld hvalid htouches
    refine h.setPc (by simp [ThreadPc.opens]) hall ?_
    intro f' op' i' e' hclosing
    exact absurd (ThreadPc.closing.inj hclosing).2.2.2.2 hne
  | @call t e v f op i synced touches hpc =>
    obtain ⟨hheld, hvalid⟩ : s.Holds t f i ∧ s.fatFs.validate (s.files i).data = true := by
      simpa only [Held, hpc] using hok
    have htouches := h.touches t
    rw [hpc] at htouches
    rw [acted_eq_touched hvalid]
    obtain ⟨hall, hne⟩ := h.append_touched hheld hvalid htouches
    have hinv : Inv (s.setFiles i { s.files i with data := s.invalidated op i e }) :=
      h.setFiles rfl (fun _ hu => hu) fun _ => invalidated_eq_some
    exact hinv.leave hall fun hnil => absurd hnil hne
  | @free t f op i e touches hpc =>
    have hheld : s.Holds t f i := by simpa only [Held, hpc] using hok
    have htouches := h.touches t
    rw [hpc] at htouches
    have hinv : Inv ((s.setFiles i { s.files i with threadId := none }).forget
        (s.files i).opening) :=
      h.release (by simp [hheld.1]) rfl rfl fun _ ho => ho
    refine hinv.finish ⟨?_, fun _ hnone => ?_⟩
    · intro p hp
      rcases List.mem_append.mp hp with hp | hp
      · exact htouches p hp
      · exact h.touched hheld hp
    · obtain ⟨rfl, -⟩ := List.append_eq_nil_iff.mp hnone
      simpa [fsParseError_eq_ok] using h.closing t f op i e hpc
  | unmountSlot l i e s' hs =>
    refine Inv.sameTable ?_ hs
    unfold SdFsInfo.unmountSlot
    split
    · next hi => exact h.release (Option.isSome_iff_ne_none.mp hi) rfl rfl fun _ => FatFs.fClose_eq_some
    · exact h
  | worker l s' hs => exact h.sameTable hs

end Isolation

instance (x : Outcome Thread Ptr) : Decidable x.Isolated := by
  unfold Outcome.Isolated
  infer_instance

def mountRun {Thread Ptr : Type} : List (SdLabel Thread Ptr) :=
  [.worker .mountCard, .worker (.mountTry (.mount .ok .kept .ok)), .worker .unlock]

def unmountRun {Thread Ptr : Type} : List (SdLabel Thread Ptr) :=
  [.worker .unmountCard, .worker (.unmountNext .ok), .worker (.unmountNext .ok),
    .worker (.unmountNext .ok), .worker .unlock]

def openRun {Thread Ptr : Type} (t : Thread) (f : Ptr) : List (SdLabel Thread Ptr) :=
  [.fsOpen t f false, .findVolume t, .fOpen t .kept .ok]

/-- A file is open while the card is taken out and put back; then the thread opens another. -/
def swappedRun : List (SdLabel Unit Bool) :=
  mountRun ++ openRun () false ++ unmountRun ++ mountRun ++ openRun () true ++
    [SdLabel.start () false .fsFileWrite, .test (), .call () .ok 16]

instance [DecidableEq Thread] (s : SdFsInfo Thread Ptr) (t : Thread) (f : Ptr) (i : Slot) :
    Decidable (s.Holds t f i) :=
  inferInstanceAs (Decidable (_ ∧ _))

instance [DecidableEq Thread] (s : SdFsInfo Thread Ptr) :
    (l : SdLabel Thread Ptr) → Decidable (Held s l)
  | .fOpen t _ _ => by
    dsimp only [Held]
    cases s.pc t <;> dsimp only <;> infer_instance
  | .call t _ _ => by
    dsimp only [Held]
    cases s.pc t <;> dsimp only <;> infer_instance
  | .free t => by
    dsimp only [Held]
    cases s.pc t <;> dsimp only <;> infer_instance
  | .findVolume t => by
    dsimp only [Held]
    cases s.pc t <;> dsimp only <;> infer_instance
  | .fsOpen _ _ _ | .start _ _ _ | .test _ | .worker _ => inferInstanceAs (Decidable True)

def heldRun : List (SdLabel Unit Bool) :=
  mountRun ++ openRun () false ++ openRun () true ++
    [SdLabel.start () false .fsFileWrite, .test (), .call () .ok 16, .start () false .fsFileClose,
      .test (), .call () .ok 0, .test (), .call () .ok 0, .free (), .start () false .fsFileRead]

end FlipperZero.SdFilesystem
