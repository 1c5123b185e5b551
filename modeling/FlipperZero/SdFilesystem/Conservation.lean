import FlipperZero.SdFilesystem.Moves

/-! # Conservation of the slots

A held slot is owed a close through the `File` whose last open took it. A close that finds
its slot releases it, so once no close is owed no slot is held.
-/

namespace FlipperZero.SdFilesystem

open Lib

variable {Thread Ptr : Type}

/-- A close finds the card working and the slot of its kind, if its thread holds the slot; an open
that finds a free slot reuses a `File` only when no slot is held for it. -/
def Closable (s : SdFsInfo Thread Ptr) : SdLabel Thread Ptr → Prop
  | .start t f op =>
    op.closes → ∀ i : Slot, (s.file f).fileId = i → (s.files i).threadId = some t →
      s.status = .ok ∧ op.filter.admits (s.files i).isDir
  | .fsOpen _ f _ =>
    (∃ i, (s.files i).threadId = none) →
      ∀ i, (s.files i).threadId ≠ none → (s.files i).opening ≠ (s.file f).opening
  | _ => True

namespace Conservation

def ThreadPc.found : ThreadPc Ptr → Option (Ptr × Slot)
  | .calling f op i _ _ | .acting f op i _ _ => if op.closes then some (f, i) else none
  | .closing f _ i _ _ => some (f, i)
  | _ => none

structure Inv (s : SdFsInfo Thread Ptr) : Prop where
  file_lt : ∀ f, (s.file f).opening < s.openings
  slot_lt : ∀ i, (s.files i).opening < s.openings
  owed : ∀ i t, (s.files i).threadId = some t →
    ∃ f, (s.file f).opening = (s.files i).opening ∧ s.owed t f = true
  fileId : ∀ i f, (s.files i).threadId ≠ none → (s.file f).opening = (s.files i).opening →
    (s.file f).fileId = i
  found : ∀ t f i, ThreadPc.found (s.pc t) = some (f, i) → ∀ j, (s.files j).threadId = some t →
    (s.file f).opening = (s.files j).opening → j = i

variable {s s' : SdFsInfo Thread Ptr} {l : SdLabel Thread Ptr} {t : Thread} {f : Ptr} {i : Slot}

theorem Inv.sameTable (h : Inv s) (hs : SameTable s s') : Inv s' := by
  obtain ⟨hfiles, hfile, hpc, hopenings, -, howed, -⟩ := hs
  constructor
  · simpa only [hfile, hopenings] using h.file_lt
  · simpa only [hfiles, hopenings] using h.slot_lt
  · simpa only [hfiles, hfile, howed] using h.owed
  · simpa only [hfiles, hfile] using h.fileId
  · simpa only [hpc, hfiles, hfile] using h.found

theorem Inv.setFiles (h : Inv s) {filedata : FileData Thread}
    (hopening : filedata.opening = (s.files i).opening)
    (hthread : ∀ u, filedata.threadId = some u → (s.files i).threadId = some u) :
    Inv (s.setFiles i filedata) := by
  have hheld : ∀ j u, ((s.setFiles i filedata).files j).threadId = some u →
      (s.files j).threadId = some u := by
    intro j u hj
    simp only [SdFsInfo.setFiles, Function.update_apply] at hj
    split at hj
    · subst j
      exact hthread u hj
    · exact hj
  have hopenings : ∀ j, ((s.setFiles i filedata).files j).opening = (s.files j).opening := by
    intro j
    simp only [SdFsInfo.setFiles, Function.update_apply]
    split
    · subst j
      exact hopening
    · rfl
  constructor
  · exact h.file_lt
  · intro j
    rw [hopenings]
    exact h.slot_lt j
  · intro j u hj
    rw [hopenings]
    exact h.owed j u (hheld j u hj)
  · intro j g hj hg
    rw [hopenings] at hg
    obtain ⟨u, hu⟩ := Option.ne_none_iff_exists'.mp hj
    exact h.fileId j g (by simp [hheld j u hu]) hg
  · intro u g j hfound k hk hg
    rw [hopenings] at hg
    exact h.found u g j hfound k (hheld k u hk) hg

theorem Inv.forget (h : Inv s) {n : ℕ} : Inv (s.forget n) :=
  ⟨h.file_lt, h.slot_lt, h.owed, h.fileId, h.found⟩

variable [DecidableEq Thread]

theorem Inv.setPc (h : Inv s) {pc : ThreadPc Ptr}
    (hfound : ∀ f i, ThreadPc.found pc = some (f, i) → ∀ j, (s.files j).threadId = some t →
      (s.file f).opening = (s.files j).opening → j = i) : Inv (s.setPc t pc) := by
  constructor
  · exact h.file_lt
  · exact h.slot_lt
  · exact h.owed
  · exact h.fileId
  · intro u g j hu
    simp only [SdFsInfo.setPc, Function.update_apply] at hu
    split at hu
    · subst u
      exact hfound g j hu
    · exact h.found u g j hu

variable [DecidableEq Ptr]

theorem inv_init (fileId : Ptr → ℕ) : Inv (sdFilesystem Thread Ptr fileId).init := by
  constructor <;> simp [sdFilesystem]

theorem Inv.setOwed (h : Inv s) : Inv (s.setOwed t f true) := by
  refine ⟨h.file_lt, h.slot_lt, fun j u hj => ?_, h.fileId, h.found⟩
  obtain ⟨g, hg, howed⟩ := h.owed j u hj
  refine ⟨g, hg, ?_⟩
  simp only [SdFsInfo.setOwed, Function.update_apply]
  grind

theorem Inv.finish (h : Inv s) {op : Option FileOp} {e : SDError} {v : Value}
    {touches : List (ℕ × Option ℕ)}
    (hclosed : op.any FileOp.closes = true → ∀ j, (s.files j).threadId = some t →
      (s.file f).opening ≠ (s.files j).opening) :
    Inv (s.finish t f op e v touches) := by
  constructor
  · simpa using h.file_lt
  · simpa using h.slot_lt
  · intro j u hj
    rw [SdFsInfo.finish_files] at hj ⊢
    obtain ⟨g, hg, howed⟩ := h.owed j u hj
    refine ⟨g, by simpa using hg, ?_⟩
    by_cases hclose : op.any FileOp.closes = true
    · rw [SdFsInfo.finish_owed_of_ne]
      · exact howed
      · rintro ⟨rfl, rfl⟩
        exact hclosed hclose j hj hg
    · rw [SdFsInfo.finish_owed (by simpa using hclose)]
      exact howed
  · simpa using h.fileId
  · intro u g j hu
    simp only [SdFsInfo.finish_pc, Function.update_apply] at hu
    split at hu
    · cases hu
    · simpa using h.found u g j hu

theorem Inv.leave (h : Inv s) {op : FileOp} {e : SDError} {v : ℕ} {touches : List (ℕ × Option ℕ)}
    (hfound : op.closes = true → ThreadPc.found (s.pc t) = some (f, i)) :
    Inv (s.leave t f op i e v touches) := by
  unfold SdFsInfo.leave
  split
  · next hop =>
    refine h.setPc fun g j hg => ?_
    obtain ⟨rfl, rfl⟩ := Prod.mk.inj (Option.some.inj hg)
    exact h.found t f i (hfound hop)
  · next hop => exact h.finish fun hclose => absurd hclose hop

theorem Inv.takeSlot (h : Inv s) (isDir : Bool)
    (hreuse : ∀ j, (s.files j).threadId ≠ none → (s.files j).opening ≠ (s.file f).opening) :
    Inv (s.takeSlot t f isDir i) := by
  constructor
  · intro g
    have hg : ((s.takeSlot t f isDir i).file g).opening < s.openings + 1 := by
      rw [SdFsInfo.takeSlot_file_opening]
      split
      · exact Nat.lt_succ_self _
      · exact Nat.lt_succ_of_lt (h.file_lt g)
    exact hg
  · intro j
    have hj : ((s.takeSlot t f isDir i).files j).opening < s.openings + 1 := by
      rw [SdFsInfo.takeSlot_files]
      split
      · exact Nat.lt_succ_self _
      · exact Nat.lt_succ_of_lt (h.slot_lt j)
    exact hj
  · intro j u hj
    rw [SdFsInfo.takeSlot_files] at hj ⊢
    split at hj
    · next hji =>
      obtain rfl := Option.some.inj hj
      refine ⟨f, ?_, ?_⟩
      · rw [SdFsInfo.takeSlot_file_opening, if_pos rfl, if_pos hji]
      · rw [SdFsInfo.takeSlot_owed, if_pos ⟨rfl, rfl⟩]
    · next hji =>
      rw [if_neg hji]
      obtain ⟨g, hg, howed⟩ := h.owed j u hj
      have hgf : g ≠ f := by
        rintro rfl
        exact hreuse j (by simp [hj]) hg.symm
      refine ⟨g, ?_, ?_⟩
      · rw [SdFsInfo.takeSlot_file_opening, if_neg hgf]
        exact hg
      · rw [SdFsInfo.takeSlot_owed, if_neg fun hu => hgf hu.2]
        exact howed
  · intro j g hj hg
    rw [SdFsInfo.takeSlot_files] at hj hg
    rw [SdFsInfo.takeSlot_file_opening] at hg
    rw [SdFsInfo.takeSlot_file_fileId]
    split at hg
    · next hgf =>
      rw [if_pos hgf]
      split at hg
      · next hji => rw [hji]
      · exact absurd hg (h.slot_lt j).ne'
    · next hgf =>
      rw [if_neg hgf]
      split at hg
      · exact absurd hg (h.file_lt g).ne
      · next hji =>
        rw [if_neg hji] at hj
        exact h.fileId j g hj hg
  · intro u g j hu k hk hg
    simp only [SdFsInfo.takeSlot, SdFsInfo.setPc, Function.update_apply] at hu
    split at hu
    · cases hu
    · next hut =>
      rw [SdFsInfo.takeSlot_files] at hk hg
      split at hk
      · exact absurd (Option.some.inj hk).symm hut
      · next hki =>
        rw [if_neg hki, SdFsInfo.takeSlot_file_opening] at hg
        split at hg
        · exact absurd hg (h.slot_lt k).ne'
        · exact h.found u g j hu k hk hg

theorem Inv.next (h : Inv s) (hok : Closable s l) (hmove : Move s l s') : Inv s' := by
  cases hmove with
  | take t f isDir i hpc hi => exact h.takeSlot isDir (hok ⟨i, hi⟩)
  | full t f isDir hpc => exact h.setOwed.finish (by simp)
  | @unregistered t f isDir i n hpc =>
    have hinv : Inv (s.setFiles i { s.files i with data := none }) :=
      h.setFiles rfl fun _ hu => hu
    exact hinv.finish (by simp)
  | findVolume t hpc => exact h.setPc nofun
  | @fOpen t v e f isDir i n fs obj hpc hopen =>
    have hinv : Inv (s.setFiles i { s.files i with data := obj }) :=
      h.setFiles rfl fun _ hu => hu
    have hinv' : Inv { s.setFiles i { s.files i with data := obj } with
        fatFs := fs, opened := s.recordOpened f obj } :=
      ⟨hinv.file_lt, hinv.slot_lt, hinv.owed, hinv.fileId, hinv.found⟩
    exact hinv'.finish (by simp)
  | refuse t f op e hpc hget =>
    refine h.finish fun hclose j hj hfile => ?_
    have hj' := h.fileId j f (by simp [hj]) hfile
    obtain ⟨hstatus, hadmits⟩ := hok (by simpa using hclose) j hj' hj
    rw [SdFsInfo.getFiledata_ok.mpr ⟨hstatus, hj', hj, hadmits⟩] at hget
    cases hget
  | start t f op i hpc hget =>
    refine h.setPc fun g j hfound k hk hfile => ?_
    simp only [ThreadPc.found] at hfound
    split at hfound
    · obtain ⟨rfl, rfl⟩ := Prod.mk.inj (Option.some.inj hfound)
      have hk' := h.fileId k f (by simp [hk]) hfile
      exact Fin.ext (hk'.symm.trans (SdFsInfo.getFiledata_ok.mp hget).2.1)
    · cases hfound
  | @valid t f op i synced touches hpc =>
    refine h.setPc fun g j hfound => ?_
    exact h.found t g j (by rw [hpc]; exact hfound)
  | @invalid t f op i synced touches hpc =>
    exact h.leave fun hop => by simp [hpc, ThreadPc.found, hop]
  | @read t e v f op i synced touches hpc hop => exact h.finish (by simp [hop])
  | @fSync t v f op i synced touches hpc =>
    refine h.setPc fun g j hfound => ?_
    exact h.found t g j (by rw [hpc]; exact hfound)
  | @syncFails t e v f op i synced touches hpc hop =>
    refine h.setPc fun g j hfound => ?_
    obtain ⟨rfl, rfl⟩ := Prod.mk.inj (Option.some.inj hfound)
    exact h.found t f i (by simp [hpc, ThreadPc.found, hop])
  | @call t e v f op i synced touches hpc =>
    have hinv : Inv (s.setFiles i { s.files i with data := s.invalidated op i e }) :=
      h.setFiles rfl fun _ hu => hu
    refine hinv.leave fun hop => ?_
    change ThreadPc.found (s.pc t) = _
    simp [hpc, ThreadPc.found, hop]
  | @free t f op i e touches hpc =>
    have hinv : Inv ((s.setFiles i { s.files i with threadId := none }).forget
        (s.files i).opening) := by
      apply Inv.forget
      apply h.setFiles
      · rfl
      · simp
    refine hinv.finish fun _ j hj hfile => ?_
    have hji := hinv.found t f i (by
      change ThreadPc.found (s.pc t) = _
      rw [hpc]
      rfl) j hj hfile
    subst hji
    simp [SdFsInfo.forget, SdFsInfo.setFiles] at hj
  | unmountSlot l i e s' hs =>
    refine Inv.sameTable ?_ hs
    unfold SdFsInfo.unmountSlot
    split
    · apply Inv.forget
      apply h.setFiles
      · rfl
      · simp
    · exact h
  | worker l s' hs => exact h.sameTable hs

end Conservation

/-- A file is opened while no card is mounted, and closed. -/
def noCardRun : List (SdLabel Unit Unit) :=
  [.fsOpen () () false, .findVolume (), .start () () .fsFileClose]

instance [DecidableEq Thread] (s : SdFsInfo Thread Ptr) (l : SdLabel Thread Ptr) :
    Decidable (Closable s l) := by
  cases l <;> unfold Closable <;> infer_instance

/-- Two files are open, one of them through a failed call, and both are closed. -/
def closedRun : List (SdLabel Unit Bool) :=
  [.worker .mountCard, .worker (.mountTry (.mount .ok .kept .ok)), .worker .unlock,
    .fsOpen () false false, .findVolume (), .fOpen () .kept .ok, .fsOpen () true false,
    .findVolume (), .fOpen () .kept .noFile, .start () false .fsFileClose, .test (), .call () .ok 0,
    .test (), .call () .ok 0, .free (), .start () true .fsFileClose, .test (), .free ()]

end FlipperZero.SdFilesystem
