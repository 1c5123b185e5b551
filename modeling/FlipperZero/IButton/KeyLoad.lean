import FlipperZero.IButton.KeyFile
import Mathlib.Data.List.GetD

/-! # What loading a key does to the current key

The type of the current key is set before the data are read, so a failing read leaves the old
data under the new type. Of the contents only the letter and the length decide whether a file is
loaded; the spaces are not looked at, and what is no digit ends the number of its group.
-/

namespace FlipperZero.IButton

open Lib Firmware SdFilesystem

def FullReads : ℕ → OpenFile → Prop
  | 0, _ => True
  | n + 1, f => ¬ f.Short 1 ∧ ¬ (f.next 1).Short 2 ∧ FullReads n ((f.next 1).next 2)

/-- A file was selected and opened, and its first byte is the letter of a type. -/
def LoadInput.Names (input : LoadInput) (type : IButtonKeyType) : Prop :=
  input.selected ≠ none ∧ input.openError = .ok ∧ ¬ input.file.Short 1 ∧
    input.file.bytes 1 = [typeLetter type]

inductive Loaded (input : LoadInput) (key : NamedKey) : LoadOutcome → Prop
  | kept (message : Option FileMessage) (hnames : ∀ type, ¬ input.Names type) :
      Loaded input key ⟨false, key, message⟩
  | retyped (type : IButtonKeyType) (hnames : input.Names type)
      (hreads : ¬ FullReads type.dataSize (input.file.next 1)) :
      Loaded input key ⟨false, key.setType type, some .cannotRead⟩
  | loaded (name : List Char) (type : IButtonKeyType) (data : List Byte) (hname : input.selected = some name)
      (hnames : input.Names type) (hreads : FullReads type.dataSize (input.file.next 1))
      (hdata : loadData type.dataSize (typeLetter type :: [0, 0, 0]) (input.file.next 1) = some data) :
      Loaded input key
        ⟨true, { ((key.setType type).setName name).setType type with data := keyData data }, none⟩

variable {input : LoadInput} {key : NamedKey} {type type' : IButtonKeyType} {f : OpenFile} {n : ℕ}
  {buffer data content rest text bytes : List Byte}

theorem typeLetter_injective : Function.Injective typeLetter := by
  intro type type' h
  cases type <;> cases type' <;> first | rfl | exact absurd h (by decide)

theorem parseType_eq {b : Byte} : parseType [b, 0, 0, 0] = some type ↔ b = typeLetter type := by
  by_cases hb : b = 0#8
  · subst hb
    cases type <;> decide
  · have hstring : cString [b, 0, 0, 0] = [b] := by simp [cString, hb]
    simp only [parseType, hstring, List.cons.injEq, and_true]
    constructor
    · intro h
      repeat' split at h
      all_goals cases h <;> assumption
    · rintro rfl
      cases type <;> decide

theorem loadData_isSome {n : ℕ} {f : OpenFile} {buffer : List Byte} : (loadData n buffer f).isSome ↔ FullReads n f := by
  induction n generalizing buffer f with
  | zero => exact iff_of_true rfl trivial
  | succ n ih =>
    rw [loadData, FullReads]
    split
    · next hshort => simp [hshort]
    · next hshort =>
      split
      · next hshort' => simp [hshort']
      · next hshort' => simp [hshort, hshort', ih]

theorem bytes_of_not_short (h : ¬ f.Short n) : (f.bytes n).length = n := by
  by_contra hne
  exact h (.inr hne)

theorem loaded_loadKey : Loaded input key (loadKey input key) := by
  unfold loadKey
  split
  · next hselected => exact .kept _ fun type h => h.1 hselected
  · next name hselected =>
    split
    · next hopen => exact .kept _ fun type h => hopen h.2.1
    · next hopen =>
      split
      · next hshort => exact .kept _ fun type h => h.2.2.1 hshort
      · next hshort =>
        obtain ⟨b, hb⟩ := List.length_eq_one_iff.mp (bytes_of_not_short hshort)
        have hbuffer : fillBuffer [0, 0, 0, 0] (input.file.bytes 1) = [b, 0, 0, 0] := by
          rw [hb]
          rfl
        simp only [hbuffer]
        split
        · next hparse =>
          refine .kept _ fun type h => ?_
          obtain rfl : b = typeLetter type := by simpa [hb] using h.2.2.2
          rw [parseType_eq.mpr rfl] at hparse
          cases hparse
        · next type hparse =>
          obtain rfl := parseType_eq.mp hparse
          have hnames : input.Names type :=
            ⟨by simp [hselected], not_not.mp hopen, hshort, hb⟩
          split
          · next hdata =>
            refine .retyped type hnames fun h => ?_
            rw [← @loadData_isSome _ _ [typeLetter type, 0, 0, 0], hdata] at h
            cases h
          · next data hdata =>
            refine .loaded name type data hselected hnames ?_ hdata
            rw [← @loadData_isSome _ _ [typeLetter type, 0, 0, 0], hdata]
            rfl

theorem LoadInput.Names.eq (h : input.Names type) (h' : input.Names type') : type = type' := by
  apply typeLetter_injective
  have := h.2.2.2.symm.trans h'.2.2.2
  simpa using this

theorem setType_eq_iff : key.setType type = key ↔ type = key.type := by
  constructor
  · intro h
    exact congrArg (fun k : NamedKey => k.type) h
  · rintro rfl
    rfl

/-- A load that does not succeed keeps the current key exactly when the letter of the file is that
of its type or no read of the data fails. -/
theorem load_key_keeps (input : LoadInput) (key : NamedKey) :
    ((loadKey input key).result = false → (loadKey input key).key = key) ↔
      ∀ type, input.Names type → type = key.type ∨ FullReads type.dataSize (input.file.next 1) := by
  have hloaded := @loaded_loadKey input key
  generalize loadKey input key = outcome at hloaded ⊢
  cases hloaded with
  | kept message hnames =>
    exact iff_of_true (fun _ => rfl) fun type h => absurd h (hnames type)
  | retyped type hnames hreads =>
    constructor
    · intro hkeeps type' hnames'
      obtain rfl := hnames.eq hnames'
      exact .inl (setType_eq_iff.mp (hkeeps rfl))
    · intro hall _
      exact setType_eq_iff.mpr ((hall type hnames).resolve_right hreads)
  | loaded name type data hname hnames hreads hdata =>
    refine iff_of_true (by rintro ⟨⟩) fun type' hnames' => ?_
    obtain rfl := hnames.eq hnames'
    exact .inr hreads

/-- The file of a Metakom key that ends after its letter is opened with a Dallas key at hand. -/
theorem load_key_retypes :
    ¬ ((loadKey ⟨some ['A'], .ok, [0x4D#8], fun _ => ⟨.ok, 0xFFFF⟩⟩
          ⟨⟨.keyDallas, .replicate 8 1⟩, ['B']⟩).result = false →
        (loadKey ⟨some ['A'], .ok, [0x4D#8], fun _ => ⟨.ok, 0xFFFF⟩⟩
          ⟨⟨.keyDallas, .replicate 8 1⟩, ['B']⟩).key = ⟨⟨.keyDallas, .replicate 8 1⟩, ['B']⟩) := by
  intro h
  have htype := congrArg (fun k : NamedKey => k.type) (h (by decide))
  revert htype
  decide

section Contents

def OpenFile.ofContent (content : List Byte) : OpenFile := ⟨content, fun _ => ⟨.ok, 0xFFFF⟩⟩

/-- Groups of a space and two digits, with the bytes that they denote. -/
inductive Groups : List Byte → List Byte → Prop
  | nil : Groups [] []
  | cons {b c : Byte} {m n : ℕ} {text bytes : List Byte} (hb : hexValue b = some m)
      (hc : hexValue c = some n) (h : Groups text bytes) :
      Groups (0x20#8 :: b :: c :: text) (BitVec.ofNat 8 (16 * m + n) :: bytes)

/-- The contents are a letter and as many groups as its type has bytes, with something after. -/
def Denotes (content : List Byte) (type : IButtonKeyType) (bytes rest : List Byte) : Prop :=
  ∃ text, content = typeLetter type :: (text ++ rest) ∧ Groups text bytes ∧
    bytes.length = type.dataSize

/-- The contents are a letter and as many bytes as the groups of its type have. -/
def Complete (content : List Byte) (type : IButtonKeyType) : Prop :=
  ∃ rest, content = typeLetter type :: rest ∧ 3 * type.dataSize ≤ rest.length

/-- A load succeeds exactly when the contents denote a key, and then gives this key. -/
def ReadsStrictly (denotes : IButtonKeyType → List Byte → Prop) (outcome : LoadOutcome) : Prop :=
  (outcome.result = true ↔ ∃ type bytes, denotes type bytes) ∧
    ∀ type bytes, denotes type bytes → outcome.key.type = type ∧ outcome.key.typeData = bytes

theorem short_ofContent (hn : n ≤ 2) : (OpenFile.ofContent content).Short n ↔ content.length < n := by
  have hlimit : min n 0xFFFF = n := by omega
  simp only [OpenFile.Short, OpenFile.bytes, OpenFile.ofContent, hlimit, List.length_take]
  simp

theorem bytes_ofContent (hn : n ≤ 2) : (OpenFile.ofContent content).bytes n = content.take n := by
  have hlimit : min n 0xFFFF = n := by omega
  simp only [OpenFile.bytes, OpenFile.ofContent, hlimit]

theorem next_ofContent (hn : n ≤ 2) (hlen : n ≤ content.length) :
    (OpenFile.ofContent content).next n = .ofContent (content.drop n) := by
  simp only [OpenFile.next, bytes_ofContent hn, List.length_take, Nat.min_eq_left hlen]
  rfl

theorem fullReads_ofContent : FullReads n (.ofContent content) ↔ 3 * n ≤ content.length := by
  induction n generalizing content with
  | zero => simp [FullReads]
  | succ n ih =>
    rw [FullReads, short_ofContent (by omega)]
    by_cases hone : 1 ≤ content.length
    · rw [next_ofContent (by omega) hone, short_ofContent le_rfl, List.length_drop]
      by_cases hthree : 3 ≤ content.length
      · rw [next_ofContent le_rfl (by rw [List.length_drop]; omega), ih, List.length_drop,
          List.length_drop]
        omega
      · omega
    · omega

/-- Groups are read as the bytes that they denote; the buffer keeps the NUL after the digits. -/
theorem loadData_groups (h : Groups text bytes) (x y : Byte) :
    loadData bytes.length [x, y, 0, 0] (.ofContent (text ++ rest)) = some bytes := by
  induction h generalizing x y with
  | nil => rfl
  | @cons b c m n text bytes hb hc h ih =>
    obtain ⟨-, -, -, -, -, hbzero⟩ := of_hexValue hb
    obtain ⟨-, -, -, -, -, hczero⟩ := of_hexValue hc
    have hstring : cString [b, c, 0, 0] = [b, c] := by simp [cString, hbzero, hczero]
    have hspace : ¬ (OpenFile.ofContent (0x20#8 :: b :: c :: text ++ rest)).Short 1 := by
      rw [short_ofContent (by omega)]
      simp
    have hvalue : ¬ (OpenFile.ofContent (b :: c :: (text ++ rest))).Short 2 := by
      rw [short_ofContent le_rfl]
      simp
    have hnext : (OpenFile.ofContent (0x20#8 :: b :: c :: text ++ rest)).next 1 =
        .ofContent (b :: c :: (text ++ rest)) := next_ofContent (by omega) (by simp)
    have hnext' : (OpenFile.ofContent (b :: c :: (text ++ rest))).next 2 =
        .ofContent (text ++ rest) := next_ofContent le_rfl (by simp)
    rw [List.length_cons, loadData, if_neg hspace, hnext, if_neg hvalue, hnext']
    have hbuffer : fillBuffer (fillBuffer [x, y, 0, 0]
        ((OpenFile.ofContent (0x20#8 :: b :: c :: text ++ rest)).bytes 1))
        ((OpenFile.ofContent (b :: c :: (text ++ rest))).bytes 2) = [b, c, 0, 0] := rfl
    simp only [hbuffer]
    rw [ih, hstring, strtol_two hb hc, BitVec.ofInt_natCast]
    rfl

theorem groups_length (h : Groups text bytes) : text.length = 3 * bytes.length := by
  induction h with
  | nil => rfl
  | cons hb hc h ih => simp only [List.length_cons, ih]; omega

def LoadInput.ofContent (name : List Char) (content : List Byte) : LoadInput :=
  ⟨some name, .ok, .ofContent content⟩

theorem names_ofContent {name : List Char} :
    (LoadInput.ofContent name content).Names type ↔ ∃ rest, content = typeLetter type :: rest := by
  simp only [LoadInput.Names, LoadInput.ofContent, short_ofContent (by omega : 1 ≤ 2),
    bytes_ofContent (by omega : 1 ≤ 2)]
  cases content with
  | nil => simp
  | cons b rest => simp

theorem loadKey_result_iff {name : List Char} :
    (loadKey (.ofContent name content) key).result = true ↔ ∃ type, Complete content type := by
  have hloaded := @loaded_loadKey (.ofContent name content) key
  have hcomplete {type : IButtonKeyType} (h : (LoadInput.ofContent name content).Names type) :
      FullReads type.dataSize ((OpenFile.ofContent content).next 1) ↔ Complete content type := by
    obtain ⟨rest, rfl⟩ := names_ofContent.mp h
    rw [next_ofContent (by omega) (by simp), fullReads_ofContent]
    constructor
    · exact fun hle => ⟨rest, rfl, hle⟩
    · rintro ⟨rest', heq, hle⟩
      rwa [(List.cons.inj heq).2]
  generalize loadKey (.ofContent name content) key = outcome at hloaded ⊢
  cases hloaded with
  | kept message hnames =>
    refine iff_of_false (by rintro ⟨⟩) ?_
    rintro ⟨type, rest, heq, -⟩
    exact hnames type (names_ofContent.mpr ⟨rest, heq⟩)
  | retyped type hnames hreads =>
    refine iff_of_false (by rintro ⟨⟩) ?_
    rintro ⟨type', h⟩
    obtain ⟨rest, heq, -⟩ := id h
    obtain rfl := hnames.eq (names_ofContent.mpr ⟨rest, heq⟩)
    exact hreads ((hcomplete hnames).mpr h)
  | loaded name type data hname hnames hreads hdata =>
    exact iff_of_true rfl ⟨type, (hcomplete hnames).mp hreads⟩

theorem take_keyData (h : bytes.length ≤ 8) : (keyData bytes).toList.take bytes.length = bytes := by
  apply List.ext_getElem
  · simp [h]
  · intro i hi hi'
    have hlt : i < 8 := by omega
    simp only [List.getElem_take, keyData, Vector.getElem_toList, Vector.getElem_ofFn]
    exact List.getD_eq_getElem _ _ hi'

theorem loadKey_denotes {name : List Char} (h : Denotes content type bytes rest) :
    (loadKey (.ofContent name content) key).key.type = type ∧
      (loadKey (.ofContent name content) key).key.typeData = bytes := by
  obtain ⟨text, rfl, hgroups, hlen⟩ := h
  have hresult : (loadKey (.ofContent name (typeLetter type :: (text ++ rest))) key).result = true :=
    loadKey_result_iff.mpr ⟨type, _, rfl, by
      rw [List.length_append, groups_length hgroups, hlen]; omega⟩
  have hloaded := @loaded_loadKey (.ofContent name (typeLetter type :: (text ++ rest))) key
  generalize loadKey (.ofContent name (typeLetter type :: (text ++ rest))) key = outcome
    at hloaded hresult ⊢
  cases hloaded with
  | kept => cases hresult
  | retyped => cases hresult
  | loaded name' type' data hname hnames hreads hdata =>
    obtain rfl := hnames.eq (names_ofContent.mpr ⟨_, rfl⟩)
    have hnext : (OpenFile.ofContent (typeLetter type' :: (text ++ rest))).next 1 =
        .ofContent (text ++ rest) := next_ofContent (by omega) (by simp)
    have hload := @loadData_groups rest text bytes hgroups (typeLetter type') 0
    rw [hlen, ← hnext] at hload
    obtain rfl : bytes = data := Option.some.inj (hload.symm.trans hdata)
    refine ⟨rfl, ?_⟩
    have hle : bytes.length ≤ 8 := by
      rw [hlen]
      cases type' <;> decide
    have htake := take_keyData hle
    rw [hlen] at htake
    exact htake

theorem Denotes.complete (h : Denotes content type bytes rest) : Complete content type := by
  obtain ⟨text, rfl, hgroups, hlen⟩ := h
  refine ⟨_, rfl, ?_⟩
  rw [List.length_append, groups_length hgroups, hlen]
  omega

theorem Complete.eq (h : Complete content type) (h' : Complete content type') : type = type' := by
  obtain ⟨rest, rfl, -⟩ := h
  obtain ⟨rest', heq, -⟩ := h'
  exact typeLetter_injective (List.cons.inj heq).1

theorem readsStrictly_iff {denotes : IButtonKeyType → List Byte → Prop} {name : List Char}
    (h : ∀ type bytes, denotes type bytes → ∃ rest, Denotes content type bytes rest) :
    ReadsStrictly denotes (loadKey (.ofContent name content) key) ↔
      ∀ type, Complete content type → ∃ bytes, denotes type bytes := by
  rw [ReadsStrictly, loadKey_result_iff]
  constructor
  · rintro ⟨hiff, -⟩ type hcomplete
    obtain ⟨type', bytes, hdenotes⟩ := hiff.mp ⟨type, hcomplete⟩
    obtain ⟨rest, hrest⟩ := h _ _ hdenotes
    obtain rfl := hcomplete.eq hrest.complete
    exact ⟨bytes, hdenotes⟩
  · intro hall
    refine ⟨⟨?_, ?_⟩, ?_⟩
    · rintro ⟨type, hcomplete⟩
      exact ⟨type, hall type hcomplete⟩
    · rintro ⟨type, bytes, hdenotes⟩
      obtain ⟨rest, hrest⟩ := h _ _ hdenotes
      exact ⟨type, hrest.complete⟩
    · intro type bytes hdenotes
      obtain ⟨rest, hrest⟩ := h _ _ hdenotes
      exact loadKey_denotes hrest

/-- A file that is read whole is loaded strictly exactly when it is too short, begins with no
letter or denotes a key; with and without bytes allowed after the groups. -/
theorem load_key_strict (name : List Char) (content : List Byte) (key : NamedKey) :
    (ReadsStrictly (fun type bytes => ∃ rest, Denotes content type bytes rest)
        (loadKey (.ofContent name content) key) ↔
      ∀ type, Complete content type → ∃ bytes rest, Denotes content type bytes rest) ∧
    (ReadsStrictly (fun type bytes => Denotes content type bytes [])
        (loadKey (.ofContent name content) key) ↔
      ∀ type, Complete content type → ∃ bytes, Denotes content type bytes []) :=
  ⟨readsStrictly_iff fun _ _ h => h, readsStrictly_iff fun _ _ h => ⟨[], h⟩⟩

/-- A Cyfral file with a letter in the place of a digit and one in the place of a space. -/
theorem load_key_damaged :
    ¬ ReadsStrictly (fun type bytes => ∃ rest, Denotes (ascii ['C', ' ', '0', 'G', 'x', '1', '2'])
        type bytes rest)
      (loadKey (.ofContent ['A'] (ascii ['C', ' ', '0', 'G', 'x', '1', '2']))
        ⟨⟨.keyDallas, .replicate 8 0⟩, []⟩) := by
  rintro ⟨hiff, -⟩
  obtain ⟨type, bytes, rest, text, heq, hgroups, hlen⟩ := hiff.mp (by decide)
  cases hgroups with
  | nil => cases type <;> cases hlen
  | @cons b c m n text bytes hb hc h =>
    obtain ⟨-, -, rfl, -⟩ : _ ∧ _ ∧ 0x47#8 = c ∧ _ := by simpa [ascii] using heq
    cases hc

end Contents

end FlipperZero.IButton
