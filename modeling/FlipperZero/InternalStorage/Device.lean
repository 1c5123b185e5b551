import FlipperZero.Lib.Loop
import Mathlib.Algebra.Group.Nat.Defs
import Mathlib.Data.Int.Notation

/-! # The pages behind the blocks

The storage keeps its blocks in the pages of the free flash. The address of a block, its page and
the number of the blocks come from separate roundings of the borders of the free flash.
-/

namespace FlipperZero.InternalStorage

open Lib

def flashBase : BitVec 32 := 0x08000000
def apiHalFlashReadBlock : BitVec 32 := 8
def apiHalFlashWriteBlock : BitVec 32 := 8
def apiHalFlashPageSize : BitVec 32 := 4096

theorem toNat_flashBase : flashBase.toNat = 0x08000000 := rfl

theorem toNat_pageSize : apiHalFlashPageSize.toNat = 4096 := rfl

/-- The memory `FLASH` of a linker script. -/
structure FlashMemory where
  origin : ℕ
  length : ℕ
  deriving DecidableEq, Repr

/-- The firmware is linked behind a boot loader or without one, alike for both targets. -/
def flashMemories : List FlashMemory := [⟨0x08008000, 780 * 1024⟩, ⟨0x08000000, 812 * 1024⟩]

/-- What the linker leaves behind the image, up to the end of the memory. -/
structure FreeFlash where
  memory : FlashMemory
  memory_mem : memory ∈ flashMemories
  start : BitVec 32
  stop : BitVec 32
  origin_le : memory.origin ≤ start.toNat
  start_le : start.toNat ≤ stop.toNat
  stop_eq : stop.toNat = memory.origin + memory.length

namespace FreeFlash

variable (region : FreeFlash)

theorem base_le : flashBase.toNat ≤ region.start.toNat :=
  ((by decide : ∀ m ∈ flashMemories, flashBase.toNat ≤ m.origin) _ region.memory_mem).trans
    region.origin_le

theorem stop_eq_border : region.stop.toNat = 0x080CB000 :=
  region.stop_eq.trans
    ((by decide : ∀ m ∈ flashMemories, m.origin + m.length = 0x080CB000) _ region.memory_mem)

theorem stop_le : region.stop.toNat ≤ flashBase.toNat + 256 * 4096 := by
  rw [stop_eq_border]
  decide

def apiHalFlashGetFreePageStartAddress : BitVec 32 :=
  let pageStart := region.start - region.start % apiHalFlashPageSize
  if pageStart ≠ region.start then pageStart + apiHalFlashPageSize else pageStart

def apiHalFlashGetFreePageCount : BitVec 32 :=
  (region.stop - region.apiHalFlashGetFreePageStartAddress) / apiHalFlashPageSize

end FreeFlash

/-- The description of the block device that littlefs works with. -/
structure DeviceConfig where
  startAddress : BitVec 32
  startPage : BitVec 32
  readSize : BitVec 32
  progSize : BitVec 32
  blockSize : BitVec 32
  blockCount : BitVec 32
deriving DecidableEq, Repr

/-- What `internal_storage_alloc` sets of the device. -/
def internalStorageAlloc (region : FreeFlash) : DeviceConfig where
  startAddress := region.apiHalFlashGetFreePageStartAddress
  startPage := (region.apiHalFlashGetFreePageStartAddress - flashBase) / apiHalFlashPageSize
  readSize := apiHalFlashReadBlock
  progSize := apiHalFlashWriteBlock
  blockSize := apiHalFlashPageSize
  blockCount := region.apiHalFlashGetFreePageCount

namespace DeviceConfig

variable (c : DeviceConfig)

def address (block off : BitVec 32) : BitVec 32 := c.startAddress + block * c.blockSize + off

/-- The result and the bytes that are copied, with their addresses. -/
def internalStorageDeviceRead (memory : BitVec 32 → BitVec 8) (block off size : BitVec 32) :
    ℤ × List (BitVec 32 × BitVec 8) :=
  (0, (List.range size.toNat).map fun k =>
    let address := c.address block off + BitVec.ofNat 32 k
    (address, memory address))

/-- The variables of `internal_storage_device_prog`, with the double words that it has written. -/
structure ProgState where
  address : BitVec 32
  buffer : List (BitVec 64)
  size : BitVec 32
  writes : List (BitVec 32 × BitVec 64)

/-- A round of the loop of `internal_storage_device_prog`; the flash may refuse a write. -/
def progRound (accepts : BitVec 32 → Bool) (s : ProgState) :
    (ℤ × List (BitVec 32 × BitVec 64)) ⊕ ProgState :=
  if 0 < s.size then
    if accepts s.address then
      .inr
        { address := s.address + c.progSize
          buffer := s.buffer.tail
          size := s.size - c.progSize
          writes := s.writes ++ [(s.address, s.buffer.headD 0)] }
    else .inl (-1, s.writes)
  else .inl (0, s.writes)

def internalStorageDeviceProg (accepts : BitVec 32 → Bool) (block off : BitVec 32)
    (buffer : List (BitVec 64)) (size : BitVec 32) (n : ℕ) :
    Option (ℤ × List (BitVec 32 × BitVec 64)) :=
  loop (c.progRound accepts) n ⟨c.address block off, buffer, size, []⟩

def erasePage (block : BitVec 32) : BitVec 8 := (c.startPage + block).setWidth 8

/-- The result and the pages that are erased; the flash may refuse. -/
def internalStorageDeviceErase (accepts : BitVec 8 → Bool) (block : BitVec 32) :
    ℤ × List (BitVec 8) :=
  if accepts (c.erasePage block) then (0, [c.erasePage block]) else (-1, [])

end DeviceConfig

def InPage (page : BitVec 8) (a : BitVec 32) : Prop :=
  a.toNat / 4096 = flashBase.toNat / 4096 + page.toNat

namespace FreeFlash

variable (region : FreeFlash)

def Contains (a : BitVec 32) : Prop := region.start.toNat ≤ a.toNat ∧ a.toNat < region.stop.toNat

def firstPage : ℕ := (region.start.toNat + 4095) / 4096 * 4096

structure Request (block off size : BitVec 32) : Prop where
  block_lt : block.toNat < (internalStorageAlloc region).blockCount.toNat
  within : off.toNat + size.toNat ≤ (internalStorageAlloc region).blockSize.toNat

/-- Reading, programming and erasing a block act on one page of the region, which is no other
block's. What is programmed starts at a double word and has a number of these, as littlefs
promises; erasing takes a whole page. -/
structure Addressed (page : BitVec 32 → BitVec 8) : Prop where
  read : ∀ block off size, region.Request block off size →
    ∀ memory, ∀ copy ∈
      ((internalStorageAlloc region).internalStorageDeviceRead memory block off size).2,
      InPage (page block) copy.1 ∧ region.Contains copy.1
  prog : ∀ block off size, region.Request block off size → off.toNat % 8 = 0 → size.toNat % 8 = 0 →
    ∀ accepts buffer, ∃ n ret writes,
      (internalStorageAlloc region).internalStorageDeviceProg accepts block off buffer size n =
        some (ret, writes) ∧
      ∀ w ∈ writes, ∀ k < 8, InPage (page block) (w.1 + BitVec.ofNat 32 k) ∧
        region.Contains (w.1 + BitVec.ofNat 32 k)
  erase : ∀ block, block.toNat < (internalStorageAlloc region).blockCount.toNat →
    ∀ accepts, ∀ erased ∈ ((internalStorageAlloc region).internalStorageDeviceErase accepts block).2,
      erased = page block ∧ ∀ a, InPage erased a → region.Contains a
  disjoint : ∀ block block', block.toNat < (internalStorageAlloc region).blockCount.toNat →
    block'.toNat < (internalStorageAlloc region).blockCount.toNat → block ≠ block' →
    page block ≠ page block'

/-! ## Where the blocks are -/

theorem firstPage_le : region.start.toNat ≤ region.firstPage := by
  simp only [firstPage]
  omega

theorem base_le_firstPage : flashBase.toNat ≤ region.firstPage :=
  region.base_le.trans region.firstPage_le

theorem firstPage_lt : region.firstPage ≤ flashBase.toNat + 256 * 4096 := by
  have hstart := region.start_le
  have hstop := region.stop_le
  simp only [firstPage, toNat_flashBase] at *
  omega

/-- The region ends at the border of a page, so the first one in it is not past the end. -/
theorem firstPage_le_stop : region.firstPage ≤ region.stop.toNat := by
  have hle := region.start_le
  have hstop := region.stop_eq_border
  simp only [firstPage]
  omega

theorem firstPage_mod : region.firstPage % 4096 = 0 := Nat.mul_mod_left _ _

theorem toNat_pageStart :
    (region.start - region.start % apiHalFlashPageSize).toNat =
      region.start.toNat / 4096 * 4096 := by
  have hrem : (region.start % apiHalFlashPageSize).toNat = region.start.toNat % 4096 :=
    BitVec.toNat_umod
  have hle : region.start % apiHalFlashPageSize ≤ region.start := by
    rw [BitVec.le_def, hrem]
    exact Nat.mod_le _ _
  rw [BitVec.toNat_sub_of_le hle, hrem]
  omega

theorem toNat_startAddress :
    region.apiHalFlashGetFreePageStartAddress.toNat = region.firstPage := by
  have hpage := region.toNat_pageStart
  have hlt := region.firstPage_lt
  simp only [toNat_flashBase, firstPage] at hlt
  simp only [apiHalFlashGetFreePageStartAddress, firstPage]
  split
  next hne =>
    have hne' := mt BitVec.eq_of_toNat_eq hne
    rw [hpage] at hne'
    rw [BitVec.toNat_add, hpage, toNat_pageSize]
    omega
  next heq =>
    have hstart : region.start.toNat / 4096 * 4096 = region.start.toNat := by
      rw [← hpage, not_not.mp heq]
    rw [hpage]
    omega

theorem toNat_startPage : (internalStorageAlloc region).startPage.toNat =
    (region.firstPage - flashBase.toNat) / 4096 := by
  have hstart := region.toNat_startAddress
  have hle : flashBase ≤ region.apiHalFlashGetFreePageStartAddress := by
    rw [BitVec.le_def, hstart]
    exact region.base_le_firstPage
  simp only [internalStorageAlloc]
  rw [BitVec.toNat_udiv, BitVec.toNat_sub_of_le hle, hstart, toNat_pageSize]

theorem toNat_blockCount :
    (internalStorageAlloc region).blockCount.toNat =
      (region.stop.toNat - region.firstPage) / 4096 := by
  have hstart := region.toNat_startAddress
  have hle : region.apiHalFlashGetFreePageStartAddress ≤ region.stop := by
    rw [BitVec.le_def, hstart]
    exact region.firstPage_le_stop
  simp only [internalStorageAlloc, apiHalFlashGetFreePageCount]
  rw [BitVec.toNat_udiv, BitVec.toNat_sub_of_le hle, hstart, toNat_pageSize]

section Block

variable {region} {block off : BitVec 32}

theorem block_end_le
    (hblock : block.toNat < (internalStorageAlloc region).blockCount.toNat) :
    region.firstPage + block.toNat * 4096 + 4096 ≤ region.stop.toNat := by
  rw [region.toNat_blockCount] at hblock
  omega

theorem toNat_address {k : ℕ}
    (hblock : block.toNat < (internalStorageAlloc region).blockCount.toNat)
    (hk : off.toNat + k < 4096) :
    ((internalStorageAlloc region).address block off + BitVec.ofNat 32 k).toNat =
      region.firstPage + block.toNat * 4096 + (off.toNat + k) := by
  have hend := block_end_le hblock
  have hstop := region.stop_le
  have hstart : (internalStorageAlloc region).startAddress.toNat = region.firstPage :=
    region.toNat_startAddress
  have hsize : (internalStorageAlloc region).blockSize.toNat = 4096 := toNat_pageSize
  rw [toNat_flashBase] at hstop
  simp only [DeviceConfig.address, BitVec.toNat_add, BitVec.toNat_mul, BitVec.toNat_ofNat, hstart,
    hsize]
  omega

theorem toNat_erasePage
    (hblock : block.toNat < (internalStorageAlloc region).blockCount.toNat) :
    ((internalStorageAlloc region).erasePage block).toNat =
      (region.firstPage - flashBase.toNat) / 4096 + block.toNat := by
  have hend := block_end_le hblock
  have hstop := region.stop_le
  have hbase := region.base_le_firstPage
  simp only [DeviceConfig.erasePage, BitVec.toNat_setWidth, BitVec.toNat_add,
    region.toNat_startPage]
  rw [toNat_flashBase] at *
  omega

theorem inPage_erasePage_iff {a : BitVec 32}
    (hblock : block.toNat < (internalStorageAlloc region).blockCount.toNat) :
    InPage ((internalStorageAlloc region).erasePage block) a ↔
      region.firstPage + block.toNat * 4096 ≤ a.toNat ∧
        a.toNat < region.firstPage + block.toNat * 4096 + 4096 := by
  have hmod := region.firstPage_mod
  have hbase := region.base_le_firstPage
  rw [InPage, toNat_erasePage hblock]
  rw [toNat_flashBase] at *
  constructor
  · intro hpage
    constructor <;> omega
  · rintro ⟨hle, hlt⟩
    omega

theorem contains_of_inPage {a : BitVec 32}
    (hblock : block.toNat < (internalStorageAlloc region).blockCount.toNat)
    (ha : InPage ((internalStorageAlloc region).erasePage block) a) : region.Contains a := by
  have hend := block_end_le hblock
  have hstart := region.firstPage_le
  obtain ⟨hle, hlt⟩ := (inPage_erasePage_iff hblock).mp ha
  constructor <;> omega

theorem inPage_address {k : ℕ}
    (hblock : block.toNat < (internalStorageAlloc region).blockCount.toNat)
    (hk : off.toNat + k < 4096) :
    InPage ((internalStorageAlloc region).erasePage block)
      ((internalStorageAlloc region).address block off + BitVec.ofNat 32 k) := by
  rw [inPage_erasePage_iff hblock, toNat_address hblock hk]
  constructor <;> omega

theorem erasePage_ne {block' : BitVec 32}
    (hblock : block.toNat < (internalStorageAlloc region).blockCount.toNat)
    (hblock' : block'.toNat < (internalStorageAlloc region).blockCount.toNat)
    (hne : block ≠ block') :
    (internalStorageAlloc region).erasePage block ≠
      (internalStorageAlloc region).erasePage block' := by
  intro heq
  apply hne
  apply BitVec.eq_of_toNat_eq
  have hpage := congrArg BitVec.toNat heq
  rw [toNat_erasePage hblock, toNat_erasePage hblock'] at hpage
  omega

end Block

end FreeFlash

/-- What holds of the addresses of a run of double words holds of all that are programmed. -/
theorem DeviceConfig.prog_writes (c : DeviceConfig) (hprog : c.progSize = 8)
    (accepts : BitVec 32 → Bool) {P : BitVec 32 → Prop} {m : ℕ} {s : ProgState}
    (hsize : s.size.toNat = 8 * m) (hwrites : ∀ w ∈ s.writes, P w.1)
    (hnext : ∀ j < m, P (s.address + BitVec.ofNat 32 (8 * j))) :
    ∃ n ret writes, loop (c.progRound accepts) n s = some (ret, writes) ∧
      ∀ w ∈ writes, P w.1 := by
  induction m generalizing s with
  | zero =>
    have hleave : c.progRound accepts s = .inl (0, s.writes) := by
      rw [progRound, if_neg (by rw [BitVec.lt_def, hsize]; exact Nat.not_lt_zero _)]
    exact ⟨1, _, _, loop_inl hleave, hwrites⟩
  | succ m ih =>
    have hpos : 0 < s.size := by
      rw [BitVec.lt_def, hsize]
      exact Nat.succ_pos _
    have hhead := hnext 0 (Nat.succ_pos m)
    rw [Nat.mul_zero, BitVec.add_zero] at hhead
    cases haccept : accepts s.address with
    | false =>
      have hleave : c.progRound accepts s = .inl (-1, s.writes) := by
        rw [progRound, if_pos hpos, haccept, if_neg Bool.false_ne_true]
      exact ⟨1, _, _, loop_inl hleave, hwrites⟩
    | true =>
      have hround : c.progRound accepts s = .inr
          { address := s.address + c.progSize
            buffer := s.buffer.tail
            size := s.size - c.progSize
            writes := s.writes ++ [(s.address, s.buffer.headD 0)] } := by
        rw [progRound, if_pos hpos, haccept, if_pos rfl]
      have hrest : (s.size - c.progSize).toNat = 8 * m := by
        have hlt := s.size.isLt
        rw [hprog, BitVec.toNat_sub, hsize]
        simp only [BitVec.reduceToNat]
        omega
      have hkept : ∀ w ∈ s.writes ++ [(s.address, s.buffer.headD 0)], P w.1 := by
        intro w hw
        rcases List.mem_append.mp hw with hw | hw
        · exact hwrites w hw
        · rw [List.mem_singleton.mp hw]
          exact hhead
      have htail : ∀ j < m, P (s.address + c.progSize + BitVec.ofNat 32 (8 * j)) := by
        intro j hj
        have hj' := hnext (j + 1) (Nat.succ_lt_succ hj)
        rw [Nat.mul_succ, Nat.add_comm, BitVec.ofNat_add, ← BitVec.add_assoc] at hj'
        rwa [hprog]
      obtain ⟨n, ret, writes, hn, hwrites'⟩ :=
        ih (s := ⟨s.address + c.progSize, s.buffer.tail, s.size - c.progSize, _⟩) hrest hkept htail
      exact ⟨n + 1, ret, writes, (loop_inr hround).trans hn, hwrites'⟩

namespace FreeFlash

variable (region : FreeFlash)

theorem prog_addressed {block off size : BitVec 32} (h : region.Request block off size)
    (hoff : off.toNat % 8 = 0) (hsize : size.toNat % 8 = 0) (accepts : BitVec 32 → Bool)
    (buffer : List (BitVec 64)) : ∃ n ret writes,
      (internalStorageAlloc region).internalStorageDeviceProg accepts block off buffer size n =
        some (ret, writes) ∧
      ∀ w ∈ writes, ∀ k < 8,
        InPage ((internalStorageAlloc region).erasePage block) (w.1 + BitVec.ofNat 32 k) ∧
          region.Contains (w.1 + BitVec.ofNat 32 k) := by
  obtain ⟨hblock, hwithin⟩ := h
  have hblockSize : (internalStorageAlloc region).blockSize.toNat = 4096 := toNat_pageSize
  apply DeviceConfig.prog_writes (internalStorageAlloc region) rfl accepts
    (P := fun address => ∀ k < 8,
      InPage ((internalStorageAlloc region).erasePage block) (address + BitVec.ofNat 32 k) ∧
        region.Contains (address + BitVec.ofNat 32 k))
    (m := size.toNat / 8)
  · show size.toNat = _
    omega
  · rintro w ⟨⟩
  · intro j hj k hk
    have hlt : off.toNat + (8 * j + k) < 4096 := by omega
    have hpage := inPage_address hblock hlt
    rw [BitVec.ofNat_add, ← BitVec.add_assoc] at hpage
    exact ⟨hpage, contains_of_inPage hblock hpage⟩

theorem addressed : region.Addressed (internalStorageAlloc region).erasePage where
  read := by
    rintro block off size ⟨hblock, hwithin⟩ memory copy hcopy
    obtain ⟨k, hk, rfl⟩ := List.mem_map.mp hcopy
    have hsize : (internalStorageAlloc region).blockSize.toNat = 4096 := toNat_pageSize
    have hlt : off.toNat + k < 4096 := by
      rw [List.mem_range] at hk
      omega
    have hpage := inPage_address hblock hlt
    exact ⟨hpage, contains_of_inPage hblock hpage⟩
  prog _ _ _ hrequest hoff hsize accepts buffer :=
    region.prog_addressed hrequest hoff hsize accepts buffer
  erase := by
    intro block hblock accepts erased herased
    unfold DeviceConfig.internalStorageDeviceErase at herased
    split at herased
    · obtain rfl := List.mem_singleton.mp herased
      exact ⟨rfl, fun a ha => contains_of_inPage hblock ha⟩
    · cases herased
  disjoint _ _ hblock hblock' hne := erasePage_ne hblock hblock' hne

end FreeFlash

end FlipperZero.InternalStorage
