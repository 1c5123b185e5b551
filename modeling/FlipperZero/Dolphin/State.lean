import FlipperZero.InternalStorage.Keys
import FlipperZero.Lib.ByteImage

/-! # The state of the dolphin

The data is stored behind a header with a magic, a version and the sum of its bytes. An image is
accepted as a whole or not at all.
-/

namespace FlipperZero.Dolphin

open Lib InternalStorage

def dolphinStoreKey : String := "dolphin_state"
def dolphinStoreHeaderMagic : BitVec 8 := 0xD0
def dolphinStoreHeaderVersion : BitVec 8 := 0x01

structure DolphinStoreHeader where
  magic : BitVec 8
  version : BitVec 8
  checksum : BitVec 8
  flags : BitVec 8
  timestamp : BitVec 32
deriving DecidableEq, Repr

structure DolphinStoreData where
  limitIbutton : BitVec 32
  limitNfc : BitVec 32
  limitIr : BitVec 32
  limitRfid : BitVec 32
  flags : BitVec 32
  icounter : BitVec 32
  butthurt : BitVec 32
deriving DecidableEq, Repr

structure DolphinStore where
  header : DolphinStoreHeader
  data : DolphinStoreData
deriving DecidableEq, Repr

/-- The state, with the file system behind its internal storage. -/
structure DolphinState (Lfs : Type) where
  lfs : Lfs
  data : DolphinStoreData
deriving DecidableEq, Repr

namespace DolphinStoreData

def size : ℕ := 28

def words (data : DolphinStoreData) : List (BitVec 32) :=
  [data.limitIbutton, data.limitNfc, data.limitIr, data.limitRfid, data.flags, data.icounter,
    data.butthurt]

def bytes (data : DolphinStoreData) : List (BitVec 8) := wordsBytes data.words

def ofBytes (bytes : List (BitVec 8)) : DolphinStoreData :=
  ⟨wordAt bytes 0, wordAt bytes 1, wordAt bytes 2, wordAt bytes 3, wordAt bytes 4, wordAt bytes 5,
    wordAt bytes 6⟩

@[simp] theorem length_bytes (data : DolphinStoreData) : data.bytes.length = size :=
  length_wordsBytes _

theorem ofBytes_bytes (data : DolphinStoreData) : ofBytes data.bytes = data := by
  have hword (k : Fin 7) : wordAt data.bytes k = data.words.get k := wordAt_wordsBytes k.isLt
  exact congr (congr (congr (congr (congr (congr (congrArg _ (hword 0)) (hword 1)) (hword 2))
    (hword 3)) (hword 4)) (hword 5)) (hword 6)

theorem bytes_ofBytes {bytes : List (BitVec 8)} (h : bytes.length = size) :
    (ofBytes bytes).bytes = bytes := wordsBytes_wordAt (n := 7) h

end DolphinStoreData

namespace DolphinStore

def size : ℕ := 36

/-- The bytes of the store in memory, without padding. -/
def bytes (store : DolphinStore) : List (BitVec 8) :=
  [store.header.magic, store.header.version, store.header.checksum, store.header.flags] ++
    (wordsBytes [store.header.timestamp] ++ store.data.bytes)

def ofBytes (bytes : List (BitVec 8)) : DolphinStore where
  header := ⟨bytes.getD 0 0, bytes.getD 1 0, bytes.getD 2 0, bytes.getD 3 0, wordAt bytes 1⟩
  data := .ofBytes (bytes.drop 8)

@[simp] theorem length_bytes (store : DolphinStore) : store.bytes.length = size := by
  rw [bytes, List.length_append, List.length_append, length_wordsBytes,
    DolphinStoreData.length_bytes]
  rfl

theorem ofBytes_bytes (store : DolphinStore) : ofBytes store.bytes = store := by
  have htimestamp : wordAt store.bytes 1 = store.header.timestamp := by
    rw [bytes, wordAt_succ rfl]
    exact wordAt_zero _ _
  have hdata : DolphinStoreData.ofBytes (store.bytes.drop 8) = store.data :=
    store.data.ofBytes_bytes
  rw [ofBytes, htimestamp, hdata]
  rfl

end DolphinStore

variable {Lfs File : Type} (fs : LittleFs Lfs File)

def dolphinStateSave (state : DolphinState Lfs) : Bool × DolphinState Lfs :=
  let checksum := byteSum state.data.bytes
  let store : DolphinStore :=
    { header := ⟨dolphinStoreHeaderMagic, dolphinStoreHeaderVersion, checksum, 0, 0⟩
      data := state.data }
  let (ret, lfs) := fs.writeKey state.lfs dolphinStoreKey store.bytes DolphinStore.size
  if ret ≠ DolphinStore.size then (false, { state with lfs := lfs })
  else (true, { state with lfs := lfs })

/-- Load into the variable `store`, which holds any value before. -/
def dolphinStateLoad (store : DolphinStore) (state : DolphinState Lfs) :
    Bool × DolphinState Lfs :=
  let (ret, bytes, lfs) := fs.readKey state.lfs dolphinStoreKey DolphinStore.size
  let state := { state with lfs := lfs }
  let store := DolphinStore.ofBytes (bytes ++ store.bytes.drop bytes.length)
  if ret ≠ DolphinStore.size then (false, state)
  else if store.header.magic = dolphinStoreHeaderMagic ∧
      store.header.version = dolphinStoreHeaderVersion then
    if store.header.checksum = byteSum store.data.bytes then
      (true, { state with data := store.data })
    else (false, state)
  else (false, state)

variable {fs} {image : List (BitVec 8)} {store : DolphinStore} {state : DolphinState Lfs}

/-- The key reads as an image of the size of a store. -/
def Stored (fs : LittleFs Lfs File) (lfs : Lfs) (image : List (BitVec 8)) : Prop :=
  image.length = DolphinStore.size ∧ ∃ lfs',
    fs.readKey lfs dolphinStoreKey DolphinStore.size = ((DolphinStore.size : ℤ), image, lfs')

/-- What `dolphin_state_load` checks of an image. -/
def Accepted (image : List (BitVec 8)) : Prop :=
  image.getD 0 0 = dolphinStoreHeaderMagic ∧ image.getD 1 0 = dolphinStoreHeaderVersion ∧
    image.getD 2 0 = byteSum (image.drop 8)

theorem dolphinStateLoad_stored (state : DolphinState Lfs) (store : DolphinStore)
    (h : Stored fs state.lfs image) :
    ((dolphinStateLoad fs store state).1 = true ↔ Accepted image) ∧
    (Accepted image →
      (dolphinStateLoad fs store state).2.data = DolphinStoreData.ofBytes (image.drop 8)) := by
  obtain ⟨hlength, lfs', hread⟩ := h
  have hmemory : image ++ store.bytes.drop image.length = image := by
    rw [hlength, ← DolphinStore.length_bytes store, List.drop_length, List.append_nil]
  have hbytes : (DolphinStoreData.ofBytes (image.drop 8)).bytes = image.drop 8 := by
    refine DolphinStoreData.bytes_ofBytes ?_
    rw [List.length_drop, hlength]
    rfl
  simp only [dolphinStateLoad, hread, hmemory, DolphinStore.ofBytes, hbytes, Accepted,
    ne_eq, not_true_eq_false, if_false]
  split
  · next hheader =>
    split
    · next hsum => exact ⟨iff_of_true rfl ⟨hheader.1, hheader.2, hsum⟩, fun _ => rfl⟩
    · next hsum => exact ⟨iff_of_false Bool.false_ne_true fun h => hsum h.2.2,
        fun h => absurd h.2.2 hsum⟩
  · next hheader => exact ⟨iff_of_false Bool.false_ne_true fun h => hheader ⟨h.1, h.2.1⟩,
      fun h => absurd ⟨h.1, h.2.1⟩ hheader⟩

theorem dolphinStateLoad_data (h : (dolphinStateLoad fs store state).1 = false) :
    (dolphinStateLoad fs store state).2.data = state.data := by
  simp only [dolphinStateLoad] at h ⊢
  split
  · rfl
  · next hret =>
    rw [if_neg hret] at h
    split
    · next hheader =>
      rw [if_pos hheader] at h
      split
      · next hsum =>
        rw [if_pos hsum] at h
        cases h
      · rfl
    · rfl

theorem dolphinStateSave_stored (hfs : fs.Persists) (h : (dolphinStateSave fs state).1 = true) :
    ∃ image, Stored fs (dolphinStateSave fs state).2.lfs image ∧ Accepted image ∧
      DolphinStoreData.ofBytes (image.drop 8) = state.data := by
  let saved : DolphinStore :=
    ⟨⟨dolphinStoreHeaderMagic, dolphinStoreHeaderVersion, byteSum state.data.bytes, 0, 0⟩,
      state.data⟩
  have hsize : saved.bytes.length = DolphinStore.size := DolphinStore.length_bytes saved
  have hne : saved.bytes ≠ [] := List.cons_ne_nil _ _
  refine ⟨saved.bytes, ⟨hsize, ?_⟩, ⟨rfl, rfl, rfl⟩, state.data.ofBytes_bytes⟩
  rcases hwrite : fs.writeKey state.lfs dolphinStoreKey saved.bytes DolphinStore.size with
    ⟨ret, lfs⟩
  have hsave : dolphinStateSave fs state = if ret ≠ DolphinStore.size then
      (false, { state with lfs := lfs }) else (true, { state with lfs := lfs }) := by
    simp only [dolphinStateSave]
    rw [hwrite]
  rw [hsave] at h ⊢
  split at h
  · cases h
  · next hret =>
    obtain rfl := not_not.mp hret
    rw [if_neg hret]
    rw [← hsize] at hwrite
    have hread := hfs.readKey_writeKey hne hwrite
    rwa [hsize] at hread

theorem Accepted.set {k : ℕ} {byte : BitVec 8} (h : Accepted image) (hk : k < image.length)
    (hplace : k < 3 ∨ 8 ≤ k) (hchange : byte ≠ image.get ⟨k, hk⟩) :
    ¬Accepted (image.set k byte) := by
  have hself : (image.set k byte).getD k 0 = byte := by
    rw [List.getD_eq_getElem?_getD, List.getElem?_set_self hk, Option.getD_some]
  have hother (j : ℕ) (hj : k ≠ j) : (image.set k byte).getD j 0 = image.getD j 0 := by
    rw [List.getD_eq_getElem?_getD, List.getElem?_set_ne hj, ← List.getD_eq_getElem?_getD]
  have hold : image.getD k 0 = image.get ⟨k, hk⟩ := by
    rw [List.getD_eq_getElem?_getD, List.getElem?_eq_getElem hk]
    rfl
  obtain ⟨hmagic, hversion, hsum⟩ := h
  rintro ⟨hmagic', hversion', hsum'⟩
  rcases hplace with hheader | hdata
  · have hrest : (image.set k byte).drop 8 = image.drop 8 := by
      rw [List.drop_set, if_pos (by omega)]
    rw [hrest] at hsum'
    refine hchange (hself.symm.trans (Eq.trans ?_ hold))
    obtain rfl | rfl | rfl : k = 0 ∨ k = 1 ∨ k = 2 := by omega
    · exact hmagic'.trans hmagic.symm
    · exact hversion'.trans hversion.symm
    · exact hsum'.trans hsum.symm
  · have hrest : (image.set k byte).drop 8 = (image.drop 8).set (k - 8) byte := by
      rw [List.drop_set, if_neg (by omega)]
    have hlt : k - 8 < (image.drop 8).length := by
      rw [List.length_drop]
      omega
    have hget : (image.drop 8).get ⟨k - 8, hlt⟩ = image.get ⟨k, hk⟩ := by
      simp only [List.get_eq_getElem, List.getElem_drop, Nat.add_sub_cancel' hdata]
    rw [hrest, hother 2 (by omega), hsum] at hsum'
    exact hchange (((byteSum_set hlt byte).mp hsum'.symm).trans hget)

/-- What a save stored is loaded as it was. A stored image of which one byte of the magic, the
version, the checksum or the data was changed is not loaded, and a load that fails leaves the data
as it was. -/
theorem dolphin_state_persists (hfs : fs.Persists) :
    (∀ (state : DolphinState Lfs) (data : DolphinStoreData) (store : DolphinStore),
      let (saved, after) := dolphinStateSave fs state
      saved = true → (dolphinStateLoad fs store ⟨after.lfs, data⟩).1 = true ∧
        (dolphinStateLoad fs store ⟨after.lfs, data⟩).2.data = state.data) ∧
    (∀ (state state' : DolphinState Lfs) (store store' : DolphinStore) (image : List (BitVec 8))
      (k : ℕ) (hk : k < image.length) (byte : BitVec 8), Stored fs state.lfs image →
      (dolphinStateLoad fs store state).1 = true → (k < 3 ∨ 8 ≤ k) →
      byte ≠ image.get ⟨k, hk⟩ → Stored fs state'.lfs (image.set k byte) →
        (dolphinStateLoad fs store' state').1 = false) ∧
    ∀ (state : DolphinState Lfs) (store : DolphinStore),
      (dolphinStateLoad fs store state).1 = false →
        (dolphinStateLoad fs store state).2.data = state.data := by
  refine ⟨fun state data store hsaved => ?_, ?_, fun _ _ => dolphinStateLoad_data⟩
  · obtain ⟨image, hstored, haccepted, hdata⟩ := dolphinStateSave_stored hfs hsaved
    have hload := dolphinStateLoad_stored ⟨(dolphinStateSave fs state).2.lfs, data⟩ store hstored
    exact ⟨hload.1.mpr haccepted, (hload.2 haccepted).trans hdata⟩
  · rintro state state' store store' image k hk byte hstored hload hplace hchange hstored'
    have haccepted := (dolphinStateLoad_stored state store hstored).1.mp hload
    rw [Bool.eq_false_iff, ne_eq, (dolphinStateLoad_stored state' store' hstored').1]
    exact haccepted.set hk hplace hchange

section Files

def keyFiles : LittleFs (String → Option (List (BitVec 8))) String where
  format _ := (0, fun _ => none)
  mount lfs := (0, lfs)
  fileOpen lfs key flags :=
    if .trunc ∈ flags then (0, key, Function.update lfs key (some []))
    else if (lfs key).isSome then (0, key, lfs)
    else (-2, key, lfs)
  fileRead lfs file size :=
    let bytes := ((lfs file).getD []).take size
    (bytes.length, bytes, file, lfs)
  fileWrite lfs file bytes size :=
    (size, file, Function.update lfs file (some (bytes.take size)))
  fileClose lfs _ := (0, lfs)

theorem keyFiles_persists : keyFiles.Persists where
  fileOpen_nonpos lfs key flags := by
    simp only [keyFiles]
    split
    · exact Int.le_refl 0
    · split
      · exact Int.le_refl 0
      · exact (by decide : (-2 : ℤ) ≤ 0)
  closes _ _ := rfl
  reads := by
    rintro lfs lfs₁ lfs₂ file file₁ key bytes hopen hwrite -
    obtain ⟨rfl, rfl⟩ : key = file ∧ Function.update lfs key (some []) = lfs₁ :=
      Prod.mk.inj (Prod.mk.inj hopen).2
    obtain ⟨rfl, rfl⟩ : key = file₁ ∧ Function.update (Function.update lfs key (some [])) key
        (some (bytes.take bytes.length)) = lfs₂ := Prod.mk.inj (Prod.mk.inj hwrite).2
    rw [List.take_length, Function.update_idem]
    refine ⟨key, Function.update lfs key (some bytes), key, Function.update lfs key (some bytes),
      ?_, ?_⟩
    · simp [keyFiles]
    · simp [keyFiles]

/-- A state is saved in an empty file system and loaded over another one. -/
theorem dolphin_state_persists_saved :
    (dolphinStateLoad keyFiles ⟨⟨0xFF, 0, 3, 0, 9⟩, ⟨6, 5, 4, 3, 2, 1, 0⟩⟩
      ⟨(dolphinStateSave keyFiles ⟨fun _ => none, ⟨1, 2, 3, 4, 5, 0x1FF, 7⟩⟩).2.lfs,
        ⟨0, 0, 0, 0, 0, 0, 0⟩⟩).2.data = ⟨1, 2, 3, 4, 5, 0x1FF, 7⟩ :=
  ((dolphin_state_persists keyFiles_persists).1
    ⟨fun _ => none, ⟨1, 2, 3, 4, 5, 0x1FF, 7⟩⟩ _ _ rfl).2

end Files

end FlipperZero.Dolphin
