import FlipperZero.IButton.KeyLoad

/-! # Saving a key

A key that is saved is read back as the same key. The old file is removed and the name set before
the new file is there, so a failure after that loses the stored key.
-/

namespace FlipperZero.IButton

open Lib Firmware SdFilesystem

def Whole : List (List Byte) → (ℕ → Transfer) → Prop
  | [], _ => True
  | chunk :: chunks, writes => ((writes 0).error = .ok ∧ chunk.length ≤ (writes 0).limit) ∧
      Whole chunks fun n => writes (n + 1)

def Leaves : List (List Byte) → (ℕ → Transfer) → List Byte → Prop
  | [], _, _ => False
  | chunk :: chunks, writes, content =>
    if (writes 0).error = .ok ∧ chunk.length ≤ (writes 0).limit then
      ∃ rest, content = chunk ++ rest ∧ Leaves chunks (fun n => writes (n + 1)) rest
    else content = chunk.take (writes 0).limit

/-- A save that reports failure keeps the old file and the old name. -/
def SavesSafely (input : SaveInput) (keyName : List Char) (key : NamedKey) : Prop :=
  (saveKey input keyName key).result = false →
    (∀ content, input.files (keyPath key.name) = some content →
      (saveKey input keyName key).files (keyPath key.name) = some content) ∧
    (saveKey input keyName key).key.name = key.name

/-- The save is refused before the old file is removed, or nothing fails; or it is to be saved
under its old name, with no file there or with contents that the failing write leaves again. -/
def KeepsOld (input : SaveInput) (keyName : List Char) (key : NamedKey) : Prop :=
  (input.mkdirError ≠ .ok ∧ input.mkdirError ≠ .exist) ∨ input.removeFault ≠ none ∨
    (input.openFault = none ∧ Whole (keyChunks key.toIButtonKey) input.writes) ∨
    (strlcpy keyName ibuttonKeyNameSize = key.name ∧
      ∀ content, input.files (keyPath key.name) = some content →
        input.openFault = none ∧ Leaves (keyChunks key.toIButtonKey) input.writes content)

variable {input : SaveInput} {key : NamedKey} {keyName : List Char} {chunks : List (List Byte)}
  {writes : ℕ → Transfer} {content : List Byte}

theorem writeChunks_of_whole (h : Whole chunks writes) :
    writeChunks chunks writes = (chunks.flatten, true) := by
  induction chunks generalizing writes with
  | nil => rfl
  | cons chunk chunks ih =>
    obtain ⟨⟨herror, hlimit⟩, hrest⟩ := h
    rw [writeChunks, ih hrest, List.take_of_length_le hlimit, if_neg (by simp [herror])]
    rfl

theorem writeChunks_of_not_whole (h : ¬ Whole chunks writes) :
    (writeChunks chunks writes).2 = false ∧
      (Leaves chunks writes content ↔ content = (writeChunks chunks writes).1) := by
  induction chunks generalizing writes content with
  | nil => exact absurd trivial h
  | cons chunk chunks ih =>
    rw [writeChunks, Leaves]
    by_cases hwhole : (writes 0).error = .ok ∧ chunk.length ≤ (writes 0).limit
    · have hrest : ¬ Whole chunks fun n => writes (n + 1) := fun hrest => h ⟨hwhole, hrest⟩
      rw [List.take_of_length_le hwhole.2, if_neg (by simp [hwhole.1]), if_pos hwhole]
      refine ⟨(@ih (fun n => writes (n + 1)) [] hrest).1, ?_⟩
      constructor
      · rintro ⟨rest, rfl, hleaves⟩
        rw [(ih hrest).2.mp hleaves]
      · rintro rfl
        exact ⟨_, rfl, (ih hrest).2.mpr rfl⟩
    · have hshort : (writes 0).error ≠ .ok ∨
          (chunk.take (writes 0).limit).length ≠ chunk.length := by
        by_contra hnot
        obtain ⟨herror, hlength⟩ := not_or.mp hnot
        rw [not_not, List.length_take] at hlength
        exact hwhole ⟨not_not.mp herror, by omega⟩
      rw [if_pos hshort, if_neg hwhole]
      exact ⟨rfl, Iff.rfl⟩

theorem keyText_eq {key : IButtonKey} : keyText key = (keyChunks key).flatten := by
  simp [keyText, keyChunks, List.flatMap]

theorem saveKey_of_removed (hmkdir : input.mkdirError = .ok ∨ input.mkdirError = .exist)
    (hremove : input.removeFault = none) :
    saveKey input keyName key =
      match input.openFault with
      | some _ => ⟨false, key.setName keyName, Function.update input.files (keyPath key.name) none,
          some .cannotCreateFile⟩
      | none =>
        let written := writeChunks (keyChunks key.toIButtonKey) input.writes
        ⟨written.2, key.setName keyName,
          Function.update (Function.update input.files (keyPath key.name) none)
            (keyPath (strlcpy keyName ibuttonKeyNameSize)) (some written.1),
          if written.2 then none else some .cannotWrite⟩ := by
  have hfiles : (removeFile input (keyPath key.name)).2 =
      Function.update input.files (keyPath key.name) none := by
    simp only [removeFile, hremove]
    split
    · rfl
    · next hnone => rw [← hnone, Function.update_eq_self]
  have herror : (removeFile input (keyPath key.name)).1 = .ok ∨
      (removeFile input (keyPath key.name)).1 = .notExist := by
    simp only [removeFile, hremove]
    split
    · exact .inl rfl
    · exact .inr rfl
  rw [saveKey, if_neg (by tauto)]
  simp only
  rw [if_neg (by tauto), hfiles]
  rfl

theorem savesSafely_of_kept (message : FileMessage)
    (h : saveKey input keyName key = ⟨false, key, input.files, some message⟩) :
    SavesSafely input keyName key := by
  intro _
  rw [h]
  exact ⟨fun content hcontent => hcontent, rfl⟩

theorem savesSafely_of_openFault {e : { e : FSError // e ≠ .ok }}
    (hmkdir : input.mkdirError = .ok ∨ input.mkdirError = .exist)
    (hremove : input.removeFault = none) (hopen : input.openFault = some e) :
    SavesSafely input keyName key ↔ strlcpy keyName ibuttonKeyNameSize = key.name ∧
      input.files (keyPath key.name) = none := by
  rw [SavesSafely, saveKey_of_removed hmkdir hremove, hopen]
  simp only [Function.update_self, forall_const]
  constructor
  · rintro ⟨hlost, hname⟩
    refine ⟨hname, Option.eq_none_iff_forall_ne_some.mpr fun content hcontent => ?_⟩
    cases hlost content hcontent
  · rintro ⟨hname, hnone⟩
    refine ⟨fun content hcontent => ?_, hname⟩
    rw [hnone] at hcontent
    cases hcontent

theorem savesSafely_of_not_whole (hmkdir : input.mkdirError = .ok ∨ input.mkdirError = .exist)
    (hremove : input.removeFault = none) (hopen : input.openFault = none)
    (hwhole : ¬ Whole (keyChunks key.toIButtonKey) input.writes) :
    SavesSafely input keyName key ↔ strlcpy keyName ibuttonKeyNameSize = key.name ∧
      ∀ content, input.files (keyPath key.name) = some content →
        Leaves (keyChunks key.toIButtonKey) input.writes content := by
  have hfalse := (@writeChunks_of_not_whole _ _ [] hwhole).1
  rw [SavesSafely, saveKey_of_removed hmkdir hremove, hopen]
  simp only [hfalse, forall_const]
  constructor
  · rintro ⟨hlost, hname⟩
    have hname : strlcpy keyName ibuttonKeyNameSize = key.name := hname
    refine ⟨hname, fun content hcontent => ?_⟩
    have hleft := hlost content hcontent
    rw [hname, Function.update_self] at hleft
    exact (writeChunks_of_not_whole hwhole).2.mpr (Option.some.inj hleft).symm
  · rintro ⟨hname, hleaves⟩
    refine ⟨fun content hcontent => ?_, hname⟩
    rw [hname, Function.update_self]
    exact congrArg some ((writeChunks_of_not_whole hwhole).2.mp (hleaves content hcontent)).symm

/-- A failed save keeps the old file and the old name exactly when it fails before the removal of
the old file, or has nothing to lose. -/
theorem save_key_safe (input : SaveInput) (keyName : List Char) (key : NamedKey) :
    SavesSafely input keyName key ↔ KeepsOld input keyName key := by
  by_cases hmkdir : input.mkdirError ≠ .ok ∧ input.mkdirError ≠ .exist
  · refine iff_of_true (savesSafely_of_kept .cannotCreateFolder ?_) (.inl hmkdir)
    rw [saveKey, if_pos hmkdir]
  · have hmade : input.mkdirError = .ok ∨ input.mkdirError = .exist := by tauto
    cases hremove : input.removeFault with
    | some e =>
      refine iff_of_true (savesSafely_of_kept .cannotRemoveOldFile ?_)
        (.inr (.inl (by simp [hremove])))
      rw [saveKey, if_neg hmkdir]
      simp only [removeFile, hremove]
      rw [if_pos e.property]
    | none =>
      have hkeeps : KeepsOld input keyName key ↔
          (input.openFault = none ∧ Whole (keyChunks key.toIButtonKey) input.writes) ∨
          (strlcpy keyName ibuttonKeyNameSize = key.name ∧
            ∀ content, input.files (keyPath key.name) = some content →
              input.openFault = none ∧ Leaves (keyChunks key.toIButtonKey) input.writes content) := by
        simp only [KeepsOld, hmkdir, hremove, ne_eq, not_true_eq_false, false_or]
      rw [hkeeps]
      cases hopen : input.openFault with
      | some e =>
        rw [savesSafely_of_openFault hmade hremove hopen]
        simp [Option.eq_none_iff_forall_ne_some]
      | none =>
        by_cases hwhole : Whole (keyChunks key.toIButtonKey) input.writes
        · refine iff_of_true ?_ (.inl ⟨rfl, hwhole⟩)
          intro hresult
          rw [saveKey_of_removed hmade hremove, hopen] at hresult
          simp only [writeChunks_of_whole hwhole] at hresult
          cases hresult
        · rw [savesSafely_of_not_whole hmade hremove hopen hwhole]
          simp [hwhole]

/-- A Cyfral key is renamed on a card that takes no new file. -/
theorem save_key_loses :
    ¬ SavesSafely ⟨fun path => if path = keyPath ['A'] then some [0x43#8] else none, .exist, none,
        some ⟨.denied, by decide⟩, fun _ => ⟨.ok, 0⟩⟩ ['B'] ⟨⟨.keyCyfral, .replicate 8 0⟩, ['A']⟩ := by
  rw [savesSafely_of_openFault (.inr rfl) rfl rfl]
  rintro ⟨-, hnone⟩
  simp at hnone

section RoundTrip

theorem hexText_value (b : Byte) : ∃ m n, hexValue (hexDigit (b.toNat / 16)) = some m ∧
    hexValue (hexDigit (b.toNat % 16)) = some n ∧ BitVec.ofNat 8 (16 * m + n) = b := by
  have hlt := b.isLt
  refine ⟨_, _, hexValue_hexDigit (by omega), hexValue_hexDigit (by omega), ?_⟩
  rw [Nat.div_add_mod, BitVec.ofNat_toNat, BitVec.setWidth_eq]

theorem groups_flatMap (bytes : List Byte) : Groups (bytes.flatMap byteGroup) bytes := by
  induction bytes with
  | nil => exact .nil
  | cons b bytes ih =>
    obtain ⟨m, n, hm, hn, hb⟩ := hexText_value b
    have hcons := Groups.cons hm hn ih
    rwa [hb] at hcons

theorem denotes_keyText (key : IButtonKey) : Denotes (keyText key) key.type key.typeData [] := by
  refine ⟨key.typeData.flatMap byteGroup, by rw [List.append_nil]; rfl, groups_flatMap _, ?_⟩
  rw [IButtonKey.typeData, List.length_take, Vector.length_toList]
  cases key.type <;> rfl

/-- A key that is saved is in its file, and is loaded from there over any key. -/
theorem key_file_round_trip (input : SaveInput) (keyName : List Char) (key : NamedKey)
    (h : (saveKey input keyName key).result = true) :
    (saveKey input keyName key).files (keyPath (strlcpy keyName ibuttonKeyNameSize)) =
        some (keyText key.toIButtonKey) ∧
      ∀ name held, (loadKey (.ofContent name (keyText key.toIButtonKey)) held).result = true ∧
        (loadKey (.ofContent name (keyText key.toIButtonKey)) held).key.type = key.type ∧
        (loadKey (.ofContent name (keyText key.toIButtonKey)) held).key.typeData = key.typeData := by
  have hdenotes := denotes_keyText key.toIButtonKey
  constructor
  · have hmade : input.mkdirError = .ok ∨ input.mkdirError = .exist := by
      by_contra hnot
      rw [saveKey, if_pos (by tauto)] at h
      cases h
    have hremove : input.removeFault = none := by
      by_contra hne
      obtain ⟨e, he⟩ := Option.ne_none_iff_exists'.mp hne
      rw [saveKey, if_neg (by tauto)] at h
      simp only [removeFile, he] at h
      rw [if_pos e.property] at h
      cases h
    rw [saveKey_of_removed hmade hremove] at h ⊢
    cases hopen : input.openFault with
    | some e => simp [hopen] at h
    | none =>
      have hwhole : Whole (keyChunks key.toIButtonKey) input.writes := by
        by_contra hnot
        simp [hopen, (@writeChunks_of_not_whole _ _ [] hnot).1] at h
      simp only [writeChunks_of_whole hwhole, Function.update_self, keyText_eq]
  · intro name held
    exact ⟨loadKey_result_iff.mpr ⟨_, hdenotes.complete⟩, loadKey_denotes hdenotes⟩

/-- A Metakom key on an empty card. -/
theorem key_file_round_trip_metakom : ∃ key : NamedKey, key.typeData = [1, 2, 0xAB, 4] ∧
    ∀ name held, (loadKey (.ofContent name (keyText key.toIButtonKey)) held).key.typeData =
      [1, 2, 0xAB, 4] := by
  obtain ⟨key, hdata, hsaved⟩ : ∃ key : NamedKey, key.typeData = [1, 2, 0xAB, 4] ∧
      (saveKey ⟨fun _ => none, .ok, none, none, fun _ => ⟨.ok, 3⟩⟩ ['B'] key).result = true :=
    ⟨⟨⟨.keyMetakom, #v[1, 2, 0xAB, 4, 0, 0, 0, 0]⟩, ['A']⟩, by decide, by decide⟩
  have h := key_file_round_trip _ _ _ hsaved
  exact ⟨key, hdata, fun name held => (h.2 name held).2.2.trans hdata⟩

end RoundTrip

end FlipperZero.IButton
