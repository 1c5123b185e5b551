import FlipperZero.SdFilesystem.Basic

/-! # The steps of the file system

Each label that is not blocked moves the state in one of a few ways; the steps of the worker
that leave the slots as they are count as one.
-/

namespace FlipperZero.SdFilesystem

open Lib

variable {Thread Ptr : Type} [DecidableEq Thread]

namespace SdFsInfo

variable {s : SdFsInfo Thread Ptr} {t : Thread} {f : Ptr} {filter : FiledataFilter}

theorem getFiledata_ok {i : Slot} : s.getFiledata t f filter = .ok i ↔
    s.status = .ok ∧ (s.file f).fileId = i ∧ (s.files i).threadId = some t ∧
      filter.admits (s.files i).isDir = true := by
  unfold getFiledata
  constructor
  · intro h
    split at h
    · split at h
      · split at h
        · split at h
          · obtain rfl := Except.ok.inj h
            exact ⟨‹_›, rfl, ‹_›, ‹_›⟩
          · split at h <;> cases h
        · cases h
      · cases h
    · cases h
  · rintro ⟨hstatus, hi, hthread, hadmits⟩
    have hslot : (⟨(s.file f).fileId, hi ▸ i.isLt⟩ : Slot) = i := Fin.ext hi
    rw [if_pos hstatus, dif_pos (hi ▸ i.isLt), hslot, if_pos hthread, if_pos hadmits]

theorem getFiledata_error {e : SDError} (h : s.getFiledata t f filter = .error e) : e ≠ .ok := by
  unfold getFiledata at h
  split at h
  · split at h
    · split at h
      · split at h
        · cases h
        · split at h <;> cases h <;> exact SDError.noConfusion
      · cases h
        exact SDError.noConfusion
    · cases h
      exact SDError.noConfusion
  · cases h
    exact SDError.noConfusion

end SdFsInfo

variable [DecidableEq Ptr]

namespace SdFsInfo

variable {s s' : SdFsInfo Thread Ptr} {t : Thread} {f g : Ptr} {i : Slot} {op : Option FileOp}
  {e : SDError} {v : Value} {touches : List (ℕ × Option ℕ)}

@[simp] theorem finish_files : (s.finish t f op e v touches).files = s.files := by
  unfold finish
  dsimp only
  split <;> rfl

@[simp] theorem finish_pc :
    (s.finish t f op e v touches).pc = Function.update s.pc t .idle := by
  unfold finish
  dsimp only
  split <;> rfl

@[simp] theorem finish_openings : (s.finish t f op e v touches).openings = s.openings := by
  unfold finish
  dsimp only
  split <;> rfl

@[simp] theorem finish_opened : (s.finish t f op e v touches).opened = s.opened := by
  unfold finish
  dsimp only
  split <;> rfl

@[simp] theorem finish_log : (s.finish t f op e v touches).log =
    ⟨t, f, op, fsParseError e, v, touches⟩ :: s.log := by
  unfold finish
  dsimp only
  split <;> rfl

theorem setPc_finish (pc : ThreadPc Ptr) :
    (s.setPc t pc).finish t f op e v touches = s.finish t f op e v touches := by
  unfold finish
  dsimp only
  split <;> simp [setPc, setOwed, setFile]

theorem finish_owed {u : Thread} (h : op.any FileOp.closes = false) :
    (s.finish t f op e v touches).owed u g = s.owed u g := by
  simp [finish, h, setPc, setFile]

theorem finish_owed_of_ne {u : Thread} (h : ¬(u = t ∧ g = f)) :
    (s.finish t f op e v touches).owed u g = s.owed u g := by
  unfold finish
  dsimp only
  split
  · simp only [setPc, setOwed, setFile, Function.update_apply]
    grind
  · rfl

@[simp] theorem finish_file_opening :
    ((s.finish t f op e v touches).file g).opening = (s.file g).opening := by
  unfold finish
  dsimp only
  split <;>
  · simp only [setPc, setOwed, setFile, Function.update_apply]
    split
    · subst g
      rfl
    · rfl

@[simp] theorem finish_file_fileId :
    ((s.finish t f op e v touches).file g).fileId = (s.file g).fileId := by
  unfold finish
  dsimp only
  split <;>
  · simp only [setPc, setOwed, setFile, Function.update_apply]
    split
    · subst g
      rfl
    · rfl

theorem takeSlot_files (isDir : Bool) (i j : Slot) : (s.takeSlot t f isDir i).files j =
    if j = i then ⟨some t, isDir, none, s.openings⟩ else s.files j := by
  simp [takeSlot, setPc, setOwed, setFile, setFiles, Function.update_apply]

theorem takeSlot_file_opening (isDir : Bool) (i : Slot) (g : Ptr) :
    ((s.takeSlot t f isDir i).file g).opening =
      if g = f then s.openings else (s.file g).opening := by
  simp only [takeSlot, setPc, setOwed, setFile, setFiles, Function.update_apply]
  split <;> rfl

theorem takeSlot_file_fileId (isDir : Bool) (i : Slot) (g : Ptr) :
    ((s.takeSlot t f isDir i).file g).fileId = if g = f then i.val else (s.file g).fileId := by
  simp only [takeSlot, setPc, setOwed, setFile, setFiles, Function.update_apply]
  split <;> rfl

theorem takeSlot_owed (isDir : Bool) (i : Slot) (u : Thread) (g : Ptr) :
    (s.takeSlot t f isDir i).owed u g = if u = t ∧ g = f then true else s.owed u g := by
  simp only [takeSlot, setPc, setOwed, setFile, setFiles, Function.update_apply]
  grind

end SdFsInfo

structure SameTable (s s' : SdFsInfo Thread Ptr) : Prop where
  files : s'.files = s.files
  file : s'.file = s.file
  pc : s'.pc = s.pc
  openings : s'.openings = s.openings
  opened : s'.opened = s.opened
  owed : s'.owed = s.owed
  log : s'.log = s.log

inductive Move (s : SdFsInfo Thread Ptr) :
    SdLabel Thread Ptr → SdFsInfo Thread Ptr → Prop where
  | take (t f isDir i) (hpc : s.pc t = .idle) (hi : (s.files i).threadId = none) :
    Move s (.fsOpen t f isDir) (s.takeSlot t f isDir i)
  | full (t f isDir) (hpc : s.pc t = .idle) :
    Move s (.fsOpen t f isDir)
      ((s.setOwed t f true).finish t f none .tooManyOpenFiles (.bool false) [])
  | unregistered (t) {f isDir i n} (hpc : s.pc t = .opening f isDir i n) :
    Move s (.findVolume t)
      ((s.setFiles i { s.files i with data := none }).finish t f none .notEnabled (.bool false)
        (s.overwritten i))
  | findVolume (t) {f isDir i n} (hpc : s.pc t = .opening f isDir i n) :
    Move s (.findVolume t) (s.setPc t (.entering f isDir i n))
  | fOpen (t v e) {f isDir i n fs obj} (hpc : s.pc t = .entering f isDir i n)
    (hopen : s.fatFs.fOpen n v e = some (fs, obj)) :
    Move s (.fOpen t v e)
      ({ s.setFiles i { s.files i with data := obj } with
        fatFs := fs, opened := s.recordOpened f obj }.finish t f none e
          (.bool (e = SDError.ok)) (s.overwritten i))
  | refuse (t f op e) (hpc : s.pc t = .idle) (hget : s.getFiledata t f op.filter = .error e) :
    Move s (.start t f op) (s.finish t f (some op) e (op.result e none) [])
  | start (t f op i) (hpc : s.pc t = .idle) (hget : s.getFiledata t f op.filter = .ok i) :
    Move s (.start t f op) (s.setPc t (.calling f op i false []))
  | valid (t) {f op i synced touches} (hpc : s.pc t = .calling f op i synced touches) :
    Move s (.test t) (s.setPc t (.acting f op i synced touches))
  | invalid (t) {f op i synced touches} (hpc : s.pc t = .calling f op i synced touches) :
    Move s (.test t) (s.leave t f op i .invalidObject 0 touches)
  | read (t e v) {f op i synced touches} (hpc : s.pc t = .calling f op i synced touches)
    (hop : op.closes = false) :
    Move s (.call t e v)
      (s.finish t f (some op) .ok (op.result .ok (some v)) (touches ++ s.touched f i))
  | fSync (t v) {f op i synced touches} (hpc : s.pc t = .acting f op i synced touches) :
    Move s (.call t .ok v) (s.setPc t (.calling f op i true (touches ++ s.acted f i)))
  | syncFails (t e v) {f op i synced touches} (hpc : s.pc t = .acting f op i synced touches)
    (hop : op.closes = true) :
    Move s (.call t e v) (s.setPc t (.closing f op i e (touches ++ s.acted f i)))
  | call (t e v) {f op i synced touches} (hpc : s.pc t = .acting f op i synced touches) :
    Move s (.call t e v)
      ((s.setFiles i { s.files i with data := s.invalidated op i e }).leave t f op i e v
        (touches ++ s.acted f i))
  | free (t) {f op i e touches} (hpc : s.pc t = .closing f op i e touches) :
    Move s (.free t)
      (((s.setFiles i { s.files i with threadId := none }).forget (s.files i).opening).finish
        t f (some op) e (op.result e none) (touches ++ s.touched f i))
  | unmountSlot (l i e s') (hs : SameTable (s.unmountSlot i e) s') : Move s (.worker l) s'
  | worker (l s') (hs : SameTable s s') : Move s (.worker l) s'

namespace SdFsInfo

variable {s s' : SdFsInfo Thread Ptr} {t : Thread} {f : Ptr} {filter : FiledataFilter}

theorem appSd_move {l : WorkerLabel} (h : s.appSd l = some s') : Move s (.worker l) s' := by
  cases l with
  | unmountNext e =>
    simp only [appSd] at h
    split at h
    · split at h
      · cases h
        exact .unmountSlot _ _ e _ ⟨rfl, rfl, rfl, rfl, rfl, rfl, rfl⟩
      · cases h
        exact .worker _ _ ⟨rfl, rfl, rfl, rfl, rfl, rfl, rfl⟩
    · cases h
  | formatCard e =>
    simp only [appSd] at h
    split at h
    · split at h
      · cases h
        exact .worker _ _ ⟨rfl, rfl, rfl, rfl, rfl, rfl, rfl⟩
      · cases h
        exact .worker _ _ ⟨rfl, rfl, rfl, rfl, rfl, rfl, rfl⟩
    · cases h
  | mountCard | mountTry | mountStop | unmountCard | formatMount | unlock =>
    simp only [appSd] at h
    split at h
    · cases h
      exact .worker _ _ ⟨rfl, rfl, rfl, rfl, rfl, rfl, rfl⟩
    · cases h

theorem fsOpen_move {isDir : Bool} (hpc : s.pc t = .idle) :
    Move s (.fsOpen t f isDir) (s.fsOpen t f isDir) := by
  unfold fsOpen
  split
  · next i hi => exact .take t f isDir i hpc (by simpa using List.find?_some hi)
  · exact .full t f isDir hpc

theorem findVolume_move (h : s.findVolume t = some s') : Move s (.findVolume t) s' := by
  unfold findVolume at h
  split at h
  · next hpc =>
    split at h
    · cases h
      exact .findVolume t hpc
    · cases h
      exact .unregistered t hpc
  · cases h

theorem fOpen_move {v : VolumeCheck} {e : SDError} (h : s.fOpen t v e = some s') :
    Move s (.fOpen t v e) s' := by
  unfold fOpen at h
  split at h
  · next hpc =>
    split at h
    · next hopen =>
      cases h
      exact .fOpen t v e hpc hopen
    · cases h
  · cases h

theorem start_move {op : FileOp} (hpc : s.pc t = .idle) :
    Move s (.start t f op) (s.start t f op) := by
  unfold start
  split
  · next i hget => exact .start t f op i hpc hget
  · next e hget => exact .refuse t f op e hpc hget

theorem validates_of_closes {op : FileOp} (h : op.closes = true) : op.validates = true := by
  cases op <;> simp_all [FileOp.closes, FileOp.validates]

theorem closes_of_syncs {op : FileOp} (h : op.syncs = true) : op.closes = true := by
  cases op <;> simp_all [FileOp.closes, FileOp.syncs]

theorem test_move (h : s.test t = some s') : Move s (.test t) s' := by
  unfold test at h
  split at h
  · next hpc =>
    split at h
    · split at h
      · cases h
        exact .valid t hpc
      · cases h
        exact .invalid t hpc
    · cases h
  · cases h

theorem call_move {e : SDError} {v : ℕ} (h : s.call t e v = some s') :
    Move s (.call t e v) s' := by
  unfold call at h
  split at h
  · next f op i synced touches hpc =>
    split at h
    · cases h
    · next hop =>
      cases h
      refine .read t e v hpc ?_
      cases hcloses : op.closes with
      | false => rfl
      | true => exact absurd (validates_of_closes hcloses) hop
  · next f op i synced touches hpc =>
    split at h
    · next hsync =>
      obtain ⟨-, -, rfl⟩ := hsync
      cases h
      exact .fSync t v hpc
    · split at h
      · next hsync =>
        cases h
        exact .syncFails t e v hpc (closes_of_syncs hsync.1)
      · cases h
        exact .call t e v hpc
  · cases h

theorem free_move (h : s.free t = some s') : Move s (.free t) s' := by
  unfold free at h
  split at h
  · next hpc =>
    cases h
    exact .free t hpc
  · cases h

end SdFsInfo

theorem move_of_next {fileId : Ptr → ℕ} {s s' : SdFsInfo Thread Ptr} {l : SdLabel Thread Ptr}
    (h : (sdFilesystem Thread Ptr fileId).next s l = some s') : Move s l s' := by
  cases l with
  | fsOpen t f isDir =>
    simp only [sdFilesystem] at h
    split at h
    · next hpc =>
      obtain rfl := Option.some.inj h
      have hmove : Move s (.fsOpen t f isDir) (s.fsOpen t f isDir) := SdFsInfo.fsOpen_move hpc.1
      cases isDir <;> exact hmove
    · cases h
  | findVolume t => exact SdFsInfo.findVolume_move h
  | fOpen t v e => exact SdFsInfo.fOpen_move h
  | start t f op =>
    simp only [sdFilesystem] at h
    split at h
    · next hpc =>
      cases h
      exact SdFsInfo.start_move hpc.1
    · cases h
  | test t => exact SdFsInfo.test_move h
  | call t e v => exact SdFsInfo.call_move h
  | free t =>
    simp only [sdFilesystem] at h
    split at h
    · exact SdFsInfo.free_move h
    · cases h
  | worker l => exact SdFsInfo.appSd_move h

end FlipperZero.SdFilesystem
