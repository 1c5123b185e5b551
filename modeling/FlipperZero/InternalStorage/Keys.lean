import FlipperZero.InternalStorage.Basic

/-! # Reading and writing a key

What the storage task does for one command, as one function of the file system. The steps of the
task from the opening of the file to the result are these functions.
-/

namespace FlipperZero.InternalStorage

open FlipperZero.Lib FlipperZero.Mlib FlipperZero.Rtos FlipperZero.Record

variable {D H Thread Data Lfs File : Type}

section Keys

variable (fs : LittleFs Lfs File)

/-- The result, the bytes written to the buffer and the file system after the command. -/
def LittleFs.readKey (lfs : Lfs) (key : String) (size : ℕ) : ℤ × List (BitVec 8) × Lfs :=
  let (ret, file, lfs) := fs.fileOpen lfs key [.rdonly]
  if ret = 0 then
    let (ret, bytes, file, lfs) := fs.fileRead lfs file size
    (ret, bytes, (fs.fileClose lfs file).2)
  else (ret, [], lfs)

def LittleFs.writeKey (lfs : Lfs) (key : String) (buffer : List (BitVec 8)) (size : ℕ) : ℤ × Lfs :=
  let (ret, file, lfs) := fs.fileOpen lfs key [.wronly, .creat, .trunc]
  if ret = 0 then
    let (ret, file, lfs) := fs.fileWrite lfs file buffer size
    (ret, (fs.fileClose lfs file).2)
  else (ret, lfs)

/-- Opening returns 0 or an error, which is negative. On a flash without faults a file that was
truncated and written whole is closed without an error, and after a close without an error it opens
for reading and has these bytes. -/
structure LittleFs.Persists : Prop where
  fileOpen_nonpos : ∀ lfs key flags, (fs.fileOpen lfs key flags).1 ≤ 0
  closes : ∀ {lfs lfs₁ lfs₂ : Lfs} {file file₁ : File} {key : String} {bytes : List (BitVec 8)},
    fs.fileOpen lfs key [.wronly, .creat, .trunc] = (0, file, lfs₁) →
    fs.fileWrite lfs₁ file bytes bytes.length = ((bytes.length : ℤ), file₁, lfs₂) →
    (fs.fileClose lfs₂ file₁).1 = 0
  reads : ∀ {lfs lfs₁ lfs₂ : Lfs} {file file₁ : File} {key : String} {bytes : List (BitVec 8)},
    fs.fileOpen lfs key [.wronly, .creat, .trunc] = (0, file, lfs₁) →
    fs.fileWrite lfs₁ file bytes bytes.length = ((bytes.length : ℤ), file₁, lfs₂) →
    (fs.fileClose lfs₂ file₁).1 = 0 →
    ∃ file₂ lfs₃ file₃ lfs₄,
      fs.fileOpen (fs.fileClose lfs₂ file₁).2 key [.rdonly] = (0, file₂, lfs₃) ∧
      fs.fileRead lfs₃ file₂ bytes.length = ((bytes.length : ℤ), bytes, file₃, lfs₄)

variable {fs} {lfs lfs' : Lfs} {key : String} {bytes : List (BitVec 8)}

theorem LittleFs.Persists.readKey_writeKey (hfs : fs.Persists) (hne : bytes ≠ [])
    (h : fs.writeKey lfs key bytes bytes.length = ((bytes.length : ℤ), lfs')) :
    ∃ lfs'', fs.readKey lfs' key bytes.length = ((bytes.length : ℤ), bytes, lfs'') := by
  have hnonpos := hfs.fileOpen_nonpos lfs key [.wronly, .creat, .trunc]
  rcases hopen : fs.fileOpen lfs key [.wronly, .creat, .trunc] with ⟨ret, file, lfs₁⟩
  rw [hopen] at hnonpos
  simp only [LittleFs.writeKey, hopen] at h
  split at h
  · next hret =>
    rcases hwrite : fs.fileWrite lfs₁ file bytes bytes.length with ⟨ret', file₁, lfs₂⟩
    have hclose : (ret', (fs.fileClose lfs₂ file₁).2) = ((bytes.length : ℤ), lfs') := by
      rw [← h]
      exact congrArg (fun x : ℤ × File × Lfs => (x.1, (fs.fileClose x.2.2 x.2.1).2)) hwrite.symm
    obtain ⟨rfl, rfl⟩ := Prod.mk.inj hclose
    obtain ⟨file₂, lfs₃, file₃, lfs₄, hopen', hread⟩ :=
      hfs.reads (hret ▸ hopen) hwrite (hfs.closes (hret ▸ hopen) hwrite)
    refine ⟨(fs.fileClose lfs₄ file₃).2, ?_⟩
    simp only [LittleFs.readKey, hopen', if_true, hread]
  · next hret =>
    have hpos := List.length_pos_of_ne_nil hne
    have hlength := congrArg Prod.fst h
    simp only at hlength hnonpos
    omega

end Keys

section Task

theorem State.fill_nil (s : State D H Thread Data Lfs File) (buffer : ℕ) :
    s.fill buffer [] = s := by
  have hbuffers : Function.update s.buffers buffer (s.buffers buffer) = s.buffers :=
    Function.update_eq_self _ _
  exact congrArg (fun buffers => { s with buffers := buffers }) hbuffers

variable [DecidableEq Thread] {cfg : Config Thread Data Lfs File}
  {s : State D H Thread Data Lfs File} {command : InternalStorageCommand Thread}

variable (cfg) in
def TaskRun : State D H Thread Data Lfs File → State D H Thread Data Lfs File → Prop :=
  Relation.ReflTransGen fun s s' => taskStep cfg s = some s'

theorem taskStep_open {ret : ℤ} {file : File} {lfs : Lfs} (htask : s.task = .open command)
    (hopen : cfg.fs.fileOpen s.lfs (s.frames command.data).key command.function.openFlags =
      (ret, file, lfs)) :
    taskStep cfg s = some { s with
      lfs := lfs
      task := if ret = 0 then .transfer command file else .store command ret } := by
  unfold taskStep
  rw [htask]
  simp only [hopen]

theorem taskStep_transfer_readKey {ret : ℤ} {bytes : List (BitVec 8)} {file file' : File}
    {lfs : Lfs} (htask : s.task = .transfer command file) (hfunction : command.function = .readKey)
    (hread : cfg.fs.fileRead s.lfs file (s.frames command.data).size = (ret, bytes, file', lfs)) :
    taskStep cfg s = some { s.fill (s.frames command.data).buffer bytes with
      lfs := lfs
      task := .close command file' ret } := by
  unfold taskStep
  rw [htask]
  simp only [hfunction, hread]

theorem taskStep_transfer_writeKey {ret : ℤ} {file file' : File}
    {lfs : Lfs} (htask : s.task = .transfer command file) (hfunction : command.function = .writeKey)
    (hwrite : cfg.fs.fileWrite s.lfs file (s.buffers (s.frames command.data).buffer)
      (s.frames command.data).size = (ret, file', lfs)) :
    taskStep cfg s = some { s with lfs := lfs, task := .close command file' ret } := by
  unfold taskStep
  rw [htask]
  simp only [hfunction, hwrite]

theorem taskStep_close {ret : ℤ} {file : File} (htask : s.task = .close command file ret) :
    taskStep cfg s = some { s with
      lfs := (cfg.fs.fileClose s.lfs file).2
      task := .store command ret } := by
  unfold taskStep
  rw [htask]

theorem taskRun_readKey (htask : s.task = .open command) (hfunction : command.function = .readKey)
    {ret : ℤ} {bytes : List (BitVec 8)} {lfs : Lfs}
    (hkey : cfg.fs.readKey s.lfs (s.frames command.data).key (s.frames command.data).size =
      (ret, bytes, lfs)) :
    TaskRun cfg s { s.fill (s.frames command.data).buffer bytes with
      lfs := lfs
      task := .store command ret } := by
  rcases hopen : cfg.fs.fileOpen s.lfs (s.frames command.data).key [.rdonly] with ⟨ret', file, lfs'⟩
  have hflags : command.function.openFlags = [.rdonly] :=
    congrArg InternalStorageCommandFunction.openFlags hfunction
  rw [← hflags] at hopen
  have hfirst := taskStep_open htask hopen
  rw [hflags] at hopen
  simp only [LittleFs.readKey, hopen] at hkey
  split at hkey
  · next hret =>
    rcases hread : cfg.fs.fileRead lfs' file (s.frames command.data).size with
      ⟨ret'', bytes', file', lfs''⟩
    have hclose : (ret'', bytes', (cfg.fs.fileClose lfs'' file').2) = (ret, bytes, lfs) := by
      rw [← hkey]
      exact congrArg (fun x : ℤ × List (BitVec 8) × File × Lfs =>
        (x.1, x.2.1, (cfg.fs.fileClose x.2.2.2 x.2.2.1).2)) hread.symm
    obtain ⟨rfl, rfl, rfl⟩ :
        ret'' = ret ∧ bytes' = bytes ∧ (cfg.fs.fileClose lfs'' file').2 = lfs := by
      simpa only [Prod.mk.injEq] using hclose
    rw [if_pos hret] at hfirst
    refine .head hfirst (.head (taskStep_transfer_readKey rfl hfunction hread) (.single ?_))
    exact taskStep_close rfl
  · next hret =>
    obtain ⟨rfl, rfl, rfl⟩ : ret' = ret ∧ [] = bytes ∧ lfs' = lfs := by
      simpa only [Prod.mk.injEq] using hkey
    rw [if_neg hret] at hfirst
    rw [State.fill_nil]
    exact .single hfirst

theorem taskRun_writeKey (htask : s.task = .open command) (hfunction : command.function = .writeKey)
    {ret : ℤ} {lfs : Lfs}
    (hkey : cfg.fs.writeKey s.lfs (s.frames command.data).key
      (s.buffers (s.frames command.data).buffer) (s.frames command.data).size = (ret, lfs)) :
    TaskRun cfg s { s with lfs := lfs, task := .store command ret } := by
  rcases hopen : cfg.fs.fileOpen s.lfs (s.frames command.data).key [.wronly, .creat, .trunc] with
    ⟨ret', file, lfs'⟩
  have hflags : command.function.openFlags = [.wronly, .creat, .trunc] :=
    congrArg InternalStorageCommandFunction.openFlags hfunction
  rw [← hflags] at hopen
  have hfirst := taskStep_open htask hopen
  rw [hflags] at hopen
  simp only [LittleFs.writeKey, hopen] at hkey
  split at hkey
  · next hret =>
    rcases hwrite : cfg.fs.fileWrite lfs' file (s.buffers (s.frames command.data).buffer)
      (s.frames command.data).size with ⟨ret'', file', lfs''⟩
    have hclose : (ret'', (cfg.fs.fileClose lfs'' file').2) = (ret, lfs) := by
      rw [← hkey]
      exact congrArg (fun x : ℤ × File × Lfs => (x.1, (cfg.fs.fileClose x.2.2 x.2.1).2))
        hwrite.symm
    obtain ⟨rfl, rfl⟩ := Prod.mk.inj hclose
    rw [if_pos hret] at hfirst
    refine .head hfirst (.head (taskStep_transfer_writeKey rfl hfunction hwrite) (.single ?_))
    exact taskStep_close rfl
  · next hret =>
    obtain ⟨rfl, rfl⟩ := Prod.mk.inj hkey
    rw [if_neg hret] at hfirst
    exact .single hfirst

end Task

end FlipperZero.InternalStorage
