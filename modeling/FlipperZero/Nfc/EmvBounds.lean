import FlipperZero.Nfc.EmvDecoder

/-! # The accesses of the EMV decoders

A decoder makes no access out of bounds exactly when the response follows its grammar. Every round
of a decoder takes one element of the grammar, or stops at the first byte that begins none.
-/

namespace FlipperZero.Nfc

open Lib

/-- What the inner loop reads in the window of a template, which begins with its length byte. -/
inductive Template : (window : ℕ) → List (BitVec 8) → Prop
  | done {s} : Template 0 s
  | aid {w s rest} (h : afterValue 16 s = some rest)
      (hrest : Template (w - (s.length - rest.length)) rest) : Template (w + 1) (tagAid :: s)
  | priority {w s rest} (h : afterValue 1 s = some rest)
      (hrest : Template (w - (s.length - rest.length)) rest) : Template (w + 1) (tagPriority :: s)
  | other {w tag s} (hne : tag ≠ tagAid) (hne' : tag ≠ tagPriority) (hrest : Template w s) :
      Template (w + 1) (tag :: s)

inductive PpseResponse : List (BitVec 8) → Prop
  | nil : PpseResponse []
  | template {len s} (h : Template len.toNat (len :: s)) (hrest : PpseResponse (s.drop len.toNat)) :
      PpseResponse (tagAppTemplate :: len :: s)
  | other {tag s} (hne : tag ≠ tagAppTemplate) (hrest : PpseResponse s) : PpseResponse (tag :: s)

/-- A byte that begins no value is followed by another, so the last byte is of a value. -/
inductive SelectAppResponse : List (BitVec 8) → Prop
  | nil : SelectAppResponse []
  | name {s rest} (h : afterValue 31 s = some rest) (hrest : SelectAppResponse rest) :
      SelectAppResponse (tagCardName :: s)
  | pdol {tag low s rest} (hne : tag ≠ tagCardName) (hpdol : tag ++ low = tagPdol)
      (h : afterValue 255 s = some rest) (hrest : SelectAppResponse rest) :
      SelectAppResponse (tag :: low :: s)
  | other {tag low s} (hne : tag ≠ tagCardName) (hpdol : tag ++ low ≠ tagPdol)
      (hrest : SelectAppResponse (low :: s)) : SelectAppResponse (tag :: low :: s)

inductive GetProcOptResponse : List (BitVec 8) → Prop
  | nil : GetProcOptResponse []
  | cardNum {s} (h : 9 ≤ s.length) : GetProcOptResponse (tagCardNum :: s)
  | afl {s rest} (h : afterValue 255 s = some rest) (hrest : GetProcOptResponse rest) :
      GetProcOptResponse (tagAfl :: s)
  | other {tag s} (hne : tag ≠ tagCardNum) (hne' : tag ≠ tagAfl) (hrest : GetProcOptResponse s) :
      GetProcOptResponse (tag :: s)

inductive ReadSfiResponse : List (BitVec 8) → Prop
  | nil : ReadSfiResponse []
  | pan {s} (h : 9 ≤ s.length) : ReadSfiResponse (tagPan :: s)
  | other {tag s} (hne : tag ≠ tagPan) (hrest : ReadSfiResponse s) : ReadSfiResponse (tag :: s)

variable {buff s rest : List (BitVec 8)} {tag low : BitVec 8}

section Card

variable {a : CardState}

theorem readSfi_rounds (hshort : buff.length < 2 ^ 16) :
    Rounds (readSfiRound buff) (fun _ => True) (fun a => ReadSfiResponse (buff.drop a.i))
      (fun a => a.i = 0) (fun a => buff.length - a.i) a := by
  cases hdrop : buff.drop a.i with
  | nil =>
    apply Rounds.leaves (false, a.app)
    · rw [readSfiRound, if_neg (not_lt_of_drop hdrop)]
    · rw [hdrop]
      exact .nil
  | cons tag s =>
    have hat := at_of_drop hdrop
    have hnext : next a.i = a.i + 1 := next_eq (by have := hat.lt; omega)
    by_cases hpan : tag = tagPan
    · subst hpan
      have hcopy : (memcpy a.app.cardNumber buff (a.i + 2) 8).isSome ↔ 9 ≤ s.length :=
        memcpy_cardNumber hat
      cases hcopied : memcpy a.app.cardNumber buff (a.i + 2) 8 with
      | none =>
        apply Rounds.stops
        · rw [readSfiRound, if_pos hat.lt, hat.read]
          simp [hcopied]
        · rw [hdrop]
          rintro (_ | hlength | hne)
          · simp [hcopied] at hcopy
            omega
          · exact hne rfl
      | some cardNumber =>
        apply Rounds.leaves (true, { a.app with cardNumber })
        · rw [readSfiRound, if_pos hat.lt, hat.read]
          simp [hcopied]
        · rw [hdrop]
          exact .pan (hcopy.mp (by rw [hcopied]; rfl))
    · refine .keeps { a with i := next a.i } ?_ trivial ?_ ?_
      · rw [readSfiRound, if_pos hat.lt, hat.read]
        simp [hpan]
      · have hlt := hat.lt
        show buff.length - next a.i < buff.length - a.i
        omega
      · rw [hdrop, hnext, ← Nat.add_zero (a.i + 1), hat.drop]
        constructor
        · rintro (_ | _ | ⟨_, hrest⟩)
          · exact absurd rfl hpan
          · exact hrest
        · exact .other hpan

theorem getProcOpt_rounds (hshort : buff.length < 2 ^ 16) :
    Rounds (getProcOptRound buff) (fun _ => True) (fun a => GetProcOptResponse (buff.drop a.i))
      (fun a => a.i = 0) (fun a => buff.length - a.i) a := by
  cases hdrop : buff.drop a.i with
  | nil =>
    apply Rounds.leaves (false, a.app)
    · rw [getProcOptRound, if_neg (not_lt_of_drop hdrop)]
    · rw [hdrop]
      exact .nil
  | cons tag s =>
    have hat := at_of_drop hdrop
    have hlt := hat.lt
    have hnext : next a.i = a.i + 1 := next_eq (by omega)
    by_cases hnum : tag = tagCardNum
    · subst hnum
      have hcopy : (memcpy a.app.cardNumber buff (a.i + 2) 8).isSome ↔ 9 ≤ s.length :=
        memcpy_cardNumber hat
      cases hcopied : memcpy a.app.cardNumber buff (a.i + 2) 8 with
      | none =>
        apply Rounds.stops
        · rw [getProcOptRound, if_pos hlt, hat.read]
          simp [hcopied]
        · rw [hdrop]
          rintro (_ | hlength | _ | hne)
          · simp [hcopied] at hcopy
            omega
          · exact hne rfl
      | some cardNumber =>
        apply Rounds.leaves (true, { a.app with cardNumber })
        · rw [getProcOptRound, if_pos hlt, hat.read]
          simp [hcopied]
        · rw [hdrop]
          exact .cardNum (hcopy.mp (by rw [hcopied]; rfl))
    · by_cases hafl : tag = tagAfl
      · subst hafl
        cases hvalue : afterValue 255 s with
        | none =>
          apply Rounds.stops
          · rw [getProcOptRound, if_pos hlt, hat.read]
            simp [hnum, emvParseTLV_eq_none hat hvalue]
          · rw [hdrop]
            rintro (_ | _ | ⟨hsome, _⟩ | ⟨_, hne⟩)
            · rw [hvalue] at hsome
              cases hsome
            · exact hne rfl
        | some rest =>
          obtain ⟨tlv, htlv, _, hidx, hrest⟩ :=
            emvParseTLV_eq_some a.app.afl.data hshort hat hvalue
          refine .keeps ⟨next tlv.idx, { a.app with afl := ⟨tlv.len, tlv.dest⟩ }⟩ ?_ trivial ?_ ?_
          · rw [getProcOptRound, if_pos hlt, hat.read]
            simp [hnum, htlv]
          · show buff.length - next tlv.idx < buff.length - a.i
            omega
          · rw [hdrop, hrest]
            constructor
            · rintro (_ | _ | ⟨hsome, htail⟩ | ⟨_, hne⟩)
              · rw [hvalue] at hsome
                exact Option.some.inj hsome ▸ htail
              · exact absurd rfl hne
            · exact .afl hvalue
      · refine .keeps { a with i := next a.i } ?_ trivial ?_ ?_
        · rw [getProcOptRound, if_pos hlt, hat.read]
          simp [hnum, hafl]
        · show buff.length - next a.i < buff.length - a.i
          omega
        · rw [hdrop, hnext, ← Nat.add_zero (a.i + 1), hat.drop]
          constructor
          · rintro (_ | _ | _ | ⟨_, _, htail⟩)
            · exact absurd rfl hnum
            · exact absurd rfl hafl
            · exact htail
          · exact .other hnum hafl

end Card

section SelectApp

variable {a : SelectAppState}

theorem afterValue_mono {cap cap' : ℕ} (hcap : cap ≤ cap') (h : afterValue cap s = some rest) :
    afterValue cap' s = some rest := by
  obtain ⟨len, t, hs, hlen, hfits, hrest⟩ := afterValue_eq_some_iff.mp h
  exact afterValue_eq_some_iff.mpr ⟨len, t, hs, hlen.trans hcap, hfits, hrest⟩

theorem name_round (hshort : buff.length < 2 ^ 16) (hat : At buff a.i tagCardName s)
    (hvalue : afterValue 31 s = some rest) :
    ∃ i app, selectAppRound buff a = some (.inr ⟨i, true, app⟩) ∧ a.i < i ∧
      buff.drop i = rest := by
  obtain ⟨tlv, htlv, hlen, hidx, hrest⟩ :=
    emvParseTLV_eq_some a.app.name hshort hat (afterValue_mono (by decide) hvalue)
  have hread : buff[a.i + 1]? = some tlv.len := hat.readNext.trans hlen
  have hlt : tlv.len.toNat < 32 := by
    obtain ⟨len, t, rfl, hcap, _⟩ := afterValue_eq_some_iff.mp hvalue
    obtain rfl := Option.some.inj hlen
    exact Nat.lt_succ_of_le hcap
  have hstored : (store tlv.dest tlv.len.toNat 0#8).isSome := store_isSome.mpr hlt
  obtain ⟨name, hname⟩ := Option.isSome_iff_exists.mp hstored
  refine ⟨next tlv.idx, { a.app with name }, ?_, by omega, hrest⟩
  rw [selectAppRound, if_pos hat.lt, hat.read]
  simp [hread, htlv, hname]

theorem name_stops (hshort : buff.length < 2 ^ 16) (hat : At buff a.i tagCardName s)
    (hvalue : afterValue 31 s = none) : selectAppRound buff a = none := by
  rw [selectAppRound, if_pos hat.lt, hat.read]
  cases hname : afterValue 32 s with
  | none => simp [emvParseTLV_eq_none hat hname]
  | some rest =>
    obtain ⟨tlv, htlv, hlen, _⟩ := emvParseTLV_eq_some a.app.name hshort hat hname
    have hread : buff[a.i + 1]? = some tlv.len := hat.readNext.trans hlen
    have hstore : store tlv.dest tlv.len.toNat 0#8 = none := by
      rw [← Option.not_isSome_iff_eq_none, store_isSome]
      intro hlt
      obtain ⟨len, t, rfl, _, hfits, rfl⟩ := afterValue_eq_some_iff.mp hname
      obtain rfl := Option.some.inj hlen
      rw [afterValue, if_pos ⟨Nat.le_of_lt_succ hlt, hfits⟩] at hvalue
      cases hvalue
    simp [hread, htlv, hstore]

theorem selectApp_name (hshort : buff.length < 2 ^ 16) (hdrop : buff.drop a.i = tagCardName :: s) :
    Rounds (selectAppRound buff) (fun _ => True) (fun a => SelectAppResponse (buff.drop a.i))
      (fun a => a.i = 0) (fun a => buff.length - a.i) a := by
  have hat := at_of_drop hdrop
  have hlt := hat.lt
  cases hvalue : afterValue 31 s with
  | none =>
    apply Rounds.stops (name_stops hshort hat hvalue)
    rw [hdrop]
    rintro (_ | ⟨hsome, _⟩ | ⟨hne, _⟩ | hne)
    · rw [hvalue] at hsome
      cases hsome
    · exact hne rfl
    · exact hne rfl
  | some rest =>
    obtain ⟨i, app, hround, hi, hrest⟩ := name_round hshort hat hvalue
    refine .keeps _ hround trivial ?_ ?_
    · show buff.length - i < buff.length - a.i
      omega
    · rw [hdrop, hrest]
      constructor
      · rintro (_ | ⟨hsome, htail⟩ | ⟨hne, _⟩ | hne)
        · rw [hvalue] at hsome
          exact Option.some.inj hsome ▸ htail
        · exact absurd rfl hne
        · exact absurd rfl hne
      · exact .name hvalue

theorem selectApp_pdol (hshort : buff.length < 2 ^ 16) (hdrop : buff.drop a.i = tag :: low :: s)
    (hname : tag ≠ tagCardName) (hpdol : tag ++ low = tagPdol) :
    Rounds (selectAppRound buff) (fun _ => True) (fun a => SelectAppResponse (buff.drop a.i))
      (fun a => a.i = 0) (fun a => buff.length - a.i) a := by
  have hat := at_of_drop hdrop
  have hlt := hat.lt
  have hnext : next a.i = a.i + 1 := next_eq (by omega)
  have hlow : buff[a.i + 1]? = some low := hat.readNext
  have hat' : At buff (a.i + 1) low s := at_of_drop (hat.drop 0)
  cases hvalue : afterValue 255 s with
  | none =>
    apply Rounds.stops
    · rw [selectAppRound, if_pos hlt, hat.read, hlow]
      simp [hname, hpdol, hnext, emvParseTLV_eq_none hat' hvalue]
    · rw [hdrop]
      rintro (_ | _ | ⟨_, _, hsome, _⟩ | ⟨_, hne⟩)
      · exact hname rfl
      · rw [hvalue] at hsome
        cases hsome
      · exact hne hpdol
  | some rest =>
    obtain ⟨tlv, htlv, _, hidx, hrest⟩ := emvParseTLV_eq_some a.app.pdol.data hshort hat' hvalue
    refine .keeps ⟨next tlv.idx, a.foundName,
      { a.app with pdol := ⟨tlv.len, tlv.dest⟩ }⟩ ?_ trivial ?_ ?_
    · rw [selectAppRound, if_pos hlt, hat.read, hlow]
      simp [hname, hpdol, hnext, htlv]
    · show buff.length - next tlv.idx < buff.length - a.i
      omega
    · rw [hdrop, hrest]
      constructor
      · rintro (_ | _ | ⟨_, _, hsome, htail⟩ | ⟨_, hne⟩)
        · exact absurd rfl hname
        · rw [hvalue] at hsome
          exact Option.some.inj hsome ▸ htail
        · exact absurd hpdol hne
      · exact .pdol hname hpdol hvalue

theorem selectApp_rounds (hshort : buff.length < 2 ^ 16) :
    Rounds (selectAppRound buff) (fun _ => True) (fun a => SelectAppResponse (buff.drop a.i))
      (fun a => a.i = 0) (fun a => buff.length - a.i) a := by
  cases hdrop : buff.drop a.i with
  | nil =>
    apply Rounds.leaves (a.foundName, a.app)
    · rw [selectAppRound, if_neg (not_lt_of_drop hdrop)]
    · rw [hdrop]
      exact .nil
  | cons tag s =>
    by_cases hname : tag = tagCardName
    · exact selectApp_name hshort (hname ▸ hdrop)
    · have hat := at_of_drop hdrop
      have hlt := hat.lt
      cases s with
      | nil =>
        apply Rounds.stops
        · rw [selectAppRound, if_pos hlt, hat.read, hat.readNext]
          simp
        · rw [hdrop]
          rintro ⟨⟩
          exact hname rfl
      | cons low s =>
        by_cases hpdol : tag ++ low = tagPdol
        · exact selectApp_pdol hshort hdrop hname hpdol
        · have hnext : next a.i = a.i + 1 := next_eq (by omega)
          have hlow : buff[a.i + 1]? = some low := hat.readNext
          refine .keeps { a with i := next a.i } ?_ trivial ?_ ?_
          · rw [selectAppRound, if_pos hlt, hat.read, hlow]
            simp [hname, hpdol]
          · show buff.length - next a.i < buff.length - a.i
            omega
          · rw [hdrop, hnext, hat.drop 0]
            constructor
            · rintro (_ | _ | ⟨_, hpdol', _⟩ | ⟨_, _, htail⟩)
              · exact absurd rfl hname
              · exact absurd hpdol' hpdol
              · exact htail
            · exact .other hname hpdol

end SelectApp

section Ppse

variable {a : PpseState} {i j : ℕ} {appLen : BitVec 8}

/-- In the inner loop both indexes are inside the response or at its end. -/
def PpseState.Inside (buff : List (BitVec 8)) (a : PpseState) : Prop :=
  ∀ j appLen, a.template = some (j, appLen) → a.i < buff.length ∧ j ≤ buff.length

/-- What remains of the response, and of the template in the inner loop, follows the grammar. -/
def PpseState.Remains (buff : List (BitVec 8)) (a : PpseState) : Prop :=
  match a.template with
  | some (j, appLen) => Template (a.i + appLen.toNat - j) (buff.drop j) ∧
      PpseResponse (buff.drop (a.i + appLen.toNat + 1))
  | none => PpseResponse (buff.drop a.i)

def PpseState.Starts (a : PpseState) : Prop := a.i = 0 ∧ a.template = none

/-- The bytes ahead of the outer loop, and then those ahead of the inner one. -/
def PpseState.ahead (buff : List (BitVec 8)) (a : PpseState) : ℕ ×ₗ ℕ :=
  toLex (buff.length - a.i, a.template.elim 0 fun t => buff.length - t.1)

theorem ahead_lt_of_i {b : PpseState} (hlt : a.i < buff.length) (hi : a.i < b.i) :
    b.ahead buff < a.ahead buff := by
  apply Prod.Lex.toLex_lt_toLex.mpr
  exact Or.inl (by show buff.length - b.i < buff.length - a.i; omega)

theorem ahead_lt_of_j {b : PpseState} {k : ℕ} (hi : b.i = a.i) (ha : a.template = some (j, appLen))
    (hb : b.template = some (k, appLen)) (hlt : j < buff.length) (hk : j < k) :
    b.ahead buff < a.ahead buff := by
  apply Prod.Lex.toLex_lt_toLex.mpr
  refine Or.inr ⟨by rw [hi], ?_⟩
  rw [ha, hb]
  show buff.length - k < buff.length - j
  omega

/-- The end of a template: the outer loop goes on behind it, and from 0 where the index has become
too large. -/
theorem template_leaves (hshort : buff.length < 2 ^ 16) (ha : a.template = some (j, appLen))
    (hin : a.Inside buff) (hend : ¬j < a.i + appLen.toNat) :
    Rounds (ppseRound buff) (PpseState.Inside buff) (PpseState.Remains buff) PpseState.Starts
      (PpseState.ahead buff) a := by
  obtain ⟨hi, hj⟩ := hin j appLen ha
  have hround : ppseRound buff a =
      some (.inr { a with i := next ((a.i + appLen.toNat) % 2 ^ 16), template := none }) := by
    rw [ppseRound, ha]
    exact if_neg hend
  have hmod : (a.i + appLen.toNat) % 2 ^ 16 = a.i + appLen.toNat := Nat.mod_eq_of_lt (by omega)
  have hwindow : a.i + appLen.toNat - j = 0 := by omega
  rw [hmod] at hround
  by_cases hwrap : a.i + appLen.toNat + 1 < 2 ^ 16
  · have hnext := next_eq hwrap
    refine .keeps _ hround ?_ ?_ ?_
    · rintro _ _ ⟨⟩
    · apply ahead_lt_of_i hi
      show a.i < next (a.i + appLen.toNat)
      omega
    · simp only [PpseState.Remains, ha, hwindow, hnext]
      exact and_iff_right .done
  · refine .restarts _ hround ?_ ⟨?_, rfl⟩ ?_
    · rintro _ _ ⟨⟩
    · show (a.i + appLen.toNat + 1) % 2 ^ 16 = 0
      omega
    · simp only [PpseState.Remains, ha, hwindow]
      rw [List.drop_of_length_le (show buff.length ≤ a.i + appLen.toNat + 1 by omega)]
      exact ⟨.done, .nil⟩

theorem template_keeps {b : PpseState} {k : ℕ} (ha : a.template = some (j, appLen))
    (hin : a.Inside buff) (hat : At buff j tag s) (hround : ppseRound buff a = some (.inr b))
    (hi : b.i = a.i) (hb : b.template = some (k, appLen)) (hk : j < k) (hk' : k ≤ buff.length)
    (hwindow : Template (a.i + appLen.toNat - j) (tag :: s) ↔
      Template (a.i + appLen.toNat - k) (buff.drop k)) (hdrop : buff.drop j = tag :: s) :
    Rounds (ppseRound buff) (PpseState.Inside buff) (PpseState.Remains buff) PpseState.Starts
      (PpseState.ahead buff) a := by
  refine .keeps b hround ?_ (ahead_lt_of_j hi ha hb hat.lt hk) ?_
  · intro j' appLen' hb'
    rw [hb] at hb'
    obtain ⟨rfl, rfl⟩ := Prod.mk.inj (Option.some.inj hb')
    exact ⟨hi ▸ (hin j appLen ha).1, hk'⟩
  · simp only [PpseState.Remains, ha, hb, hi, hdrop, hwindow]

theorem window_of_value {w k : ℕ} (hw : a.i + appLen.toNat - j = w + 1)
    (hk : k = j + 1 + (s.length - rest.length)) :
    a.i + appLen.toNat - k = w - (s.length - rest.length) := by
  omega

theorem exists_window (hend : j < a.i + appLen.toNat) : ∃ w, a.i + appLen.toNat - j = w + 1 :=
  ⟨a.i + appLen.toNat - j - 1, by omega⟩

theorem ppseRound_template (ha : a.template = some (j, appLen)) :
    ppseRound buff a = templateRound buff a j appLen := by
  rw [ppseRound, ha]

theorem template_aid (hshort : buff.length < 2 ^ 16) (ha : a.template = some (j, appLen))
    (hin : a.Inside buff) (hend : j < a.i + appLen.toNat) (hdrop : buff.drop j = tagAid :: s) :
    Rounds (ppseRound buff) (PpseState.Inside buff) (PpseState.Remains buff) PpseState.Starts
      (PpseState.ahead buff) a := by
  obtain ⟨w, hw⟩ := exists_window hend
  have hround : ppseRound buff a = templateRound buff a j appLen := ppseRound_template ha
  have hat := at_of_drop hdrop
  have hlength := hat.length
  cases hvalue : afterValue 16 s with
  | none =>
    apply Rounds.stops
    · rw [hround, templateRound, if_pos hend, hat.read]
      simp [emvParseTLV_eq_none hat hvalue]
    · simp only [PpseState.Remains, ha, hw, hdrop]
      rintro ⟨_ | ⟨hsome, _⟩ | _ | ⟨hne, _⟩, _⟩
      · rw [hvalue] at hsome
        cases hsome
      · exact hne rfl
  | some rest =>
    obtain ⟨tlv, htlv, hlen, hidx, hrest⟩ := emvParseTLV_eq_some a.app.aid hshort hat hvalue
    have hread : buff[j + 1]? = some tlv.len := hat.readNext.trans hlen
    apply template_keeps (b := { a with
      appAidFound := true
      app := { a.app with aidLen := tlv.len, aid := tlv.dest }
      template := some (next tlv.idx, appLen) }) ha hin hat ?_ rfl rfl ?_ ?_ ?_ hdrop
    · rw [hround, templateRound, if_pos hend, hat.read]
      simp [hread, htlv]
    · omega
    · omega
    · rw [hw, hrest, window_of_value hw hidx]
      constructor
      · rintro (_ | ⟨hsome, htail⟩ | _ | ⟨hne, _⟩)
        · rw [hvalue] at hsome
          obtain rfl := Option.some.inj hsome
          exact htail
        · exact absurd rfl hne
      · exact .aid hvalue

theorem template_priority (hshort : buff.length < 2 ^ 16) (ha : a.template = some (j, appLen))
    (hin : a.Inside buff) (hend : j < a.i + appLen.toNat)
    (hdrop : buff.drop j = tagPriority :: s) :
    Rounds (ppseRound buff) (PpseState.Inside buff) (PpseState.Remains buff) PpseState.Starts
      (PpseState.ahead buff) a := by
  obtain ⟨w, hw⟩ := exists_window hend
  have hround : ppseRound buff a = templateRound buff a j appLen := ppseRound_template ha
  have haid : tagPriority ≠ tagAid := by decide
  have hat := at_of_drop hdrop
  have hlength := hat.length
  cases hvalue : afterValue 1 s with
  | none =>
    apply Rounds.stops
    · rw [hround, templateRound, if_pos hend, hat.read]
      simp [haid, emvParseTLV_eq_none hat hvalue]
    · simp only [PpseState.Remains, ha, hw, hdrop]
      rintro ⟨_ | _ | ⟨hsome, _⟩ | ⟨_, hne⟩, _⟩
      · rw [hvalue] at hsome
        cases hsome
      · exact hne rfl
  | some rest =>
    obtain ⟨tlv, htlv, _, hidx, hrest⟩ := emvParseTLV_eq_some a.app.priority hshort hat hvalue
    apply template_keeps (b := { a with
      app := { a.app with priority := tlv.dest }
      template := some (next tlv.idx, appLen) }) ha hin hat ?_ rfl rfl ?_ ?_ ?_ hdrop
    · rw [hround, templateRound, if_pos hend, hat.read]
      simp [haid, htlv]
    · omega
    · omega
    · rw [hw, hrest, window_of_value hw hidx]
      constructor
      · rintro (_ | _ | ⟨hsome, htail⟩ | ⟨_, hne⟩)
        · rw [hvalue] at hsome
          obtain rfl := Option.some.inj hsome
          exact htail
        · exact absurd rfl hne
      · exact .priority hvalue

theorem template_other (hshort : buff.length < 2 ^ 16) (ha : a.template = some (j, appLen))
    (hin : a.Inside buff) (hend : j < a.i + appLen.toNat) (hdrop : buff.drop j = tag :: s)
    (haid : tag ≠ tagAid) (hpriority : tag ≠ tagPriority) :
    Rounds (ppseRound buff) (PpseState.Inside buff) (PpseState.Remains buff) PpseState.Starts
      (PpseState.ahead buff) a := by
  obtain ⟨w, hw⟩ := exists_window hend
  have hat := at_of_drop hdrop
  have hlength := hat.length
  have hnext : next j = j + 1 := next_eq (by omega)
  apply template_keeps (b := { a with template := some (next j, appLen) }) ha hin hat ?_ rfl
    rfl ?_ ?_ ?_ hdrop
  · rw [ppseRound_template ha, templateRound, if_pos hend, hat.read]
    simp [haid, hpriority]
  · omega
  · omega
  · have hwindow : a.i + appLen.toNat - (j + 1) = w := by omega
    rw [hw, hnext, hwindow, hat.drop 0]
    constructor
    · rintro (_ | _ | _ | ⟨_, _, htail⟩)
      · exact absurd rfl haid
      · exact absurd rfl hpriority
      · exact htail
    · exact .other haid hpriority

theorem template_rounds (hshort : buff.length < 2 ^ 16) (ha : a.template = some (j, appLen))
    (hin : a.Inside buff) :
    Rounds (ppseRound buff) (PpseState.Inside buff) (PpseState.Remains buff) PpseState.Starts
      (PpseState.ahead buff) a := by
  by_cases hend : j < a.i + appLen.toNat
  · cases hdrop : buff.drop j with
    | nil =>
      obtain ⟨w, hw⟩ := exists_window hend
      apply Rounds.stops
      · have hread : buff[j]? = none := List.getElem?_eq_none (List.drop_eq_nil_iff.mp hdrop)
        rw [ppseRound_template ha, templateRound, if_pos hend, hread]
        rfl
      · simp only [PpseState.Remains, ha, hw, hdrop]
        rintro ⟨⟨⟩, _⟩
    | cons tag s =>
      by_cases haid : tag = tagAid
      · exact template_aid hshort ha hin hend (haid ▸ hdrop)
      · by_cases hpriority : tag = tagPriority
        · exact template_priority hshort ha hin hend (hpriority ▸ hdrop)
        · exact template_other hshort ha hin hend hdrop haid hpriority
  · exact template_leaves hshort ha hin hend

theorem ppse_rounds (hshort : buff.length < 2 ^ 16) (hin : a.Inside buff) :
    Rounds (ppseRound buff) (PpseState.Inside buff) (PpseState.Remains buff) PpseState.Starts
      (PpseState.ahead buff) a := by
  cases ha : a.template with
  | some t => exact template_rounds hshort ha hin
  | none =>
    cases hdrop : buff.drop a.i with
    | nil =>
      apply Rounds.leaves (a.appAidFound, a.app)
      · rw [ppseRound, ha]
        exact if_neg (not_lt_of_drop hdrop)
      · simp only [PpseState.Remains, ha, hdrop]
        exact .nil
    | cons tag s =>
      have hat := at_of_drop hdrop
      have hlt := hat.lt
      have hlength := hat.length
      have hnext : next a.i = a.i + 1 := next_eq (by omega)
      have hround : ppseRound buff a = searchRound buff a := by rw [ppseRound, ha]
      rw [searchRound, if_pos hlt, hat.read, hnext] at hround
      by_cases htag : tag = tagAppTemplate
      · subst htag
        cases s with
        | nil =>
          have hread : buff[a.i + 1]? = none := hat.readNext
          apply Rounds.stops
          · rw [hround]
            simp [hread]
          · simp only [PpseState.Remains, ha, hdrop]
            rintro (_ | _ | ⟨hne, _⟩)
            exact hne rfl
        | cons appLen s =>
          have hread : buff[a.i + 1]? = some appLen := hat.readNext
          refine .keeps { a with i := a.i + 1, template := some (a.i + 1, appLen) } ?_ ?_ ?_ ?_
          · rw [hround]
            simp [hread]
          · rintro _ _ ⟨⟩
            rw [List.length_cons] at hlength
            constructor
            · show a.i + 1 < buff.length
              omega
            · omega
          · exact ahead_lt_of_i hlt (Nat.lt_succ_self _)
          · have hwindow : a.i + 1 + appLen.toNat - (a.i + 1) = appLen.toNat := by omega
            have hbehind : buff.drop (a.i + 1 + appLen.toNat + 1) = s.drop appLen.toNat := by
              rw [Nat.add_assoc, hat.drop, List.drop_succ_cons]
            simp only [PpseState.Remains, ha, hdrop, hwindow, hbehind]
            rw [← Nat.add_zero (a.i + 1), hat.drop]
            constructor
            · rintro (_ | ⟨htemplate, hrest⟩ | ⟨hne, _⟩)
              · exact ⟨htemplate, hrest⟩
              · exact absurd rfl hne
            · rintro ⟨htemplate, hrest⟩
              exact .template htemplate hrest
      · refine .keeps { a with i := a.i + 1 } ?_ ?_ ?_ ?_
        · rw [hround]
          simp [htag]
        · intro j appLen hb
          exact absurd (ha.symm.trans hb) nofun
        · exact ahead_lt_of_i hlt (Nat.lt_succ_self _)
        · simp only [PpseState.Remains, ha, hdrop]
          rw [← Nat.add_zero (a.i + 1), hat.drop]
          constructor
          · rintro (_ | _ | ⟨_, hrest⟩)
            · exact absurd rfl htag
            · exact hrest
          · exact .other htag

end Ppse

/-- The decoders stay inside the response and inside their fields exactly when the response follows
the grammar of the decoder. -/
theorem responses_in_bounds (r : Response) (app : EmvApplication) :
    (StaysInBounds emvDecodePpseResponse r app ↔ PpseResponse r.bytes) ∧
    (StaysInBounds emvDecodeSelectAppResponse r app ↔ SelectAppResponse r.bytes) ∧
    (StaysInBounds emvDecodeGetProcOpt r app ↔ GetProcOptResponse r.bytes) ∧
    (StaysInBounds emvDecodeReadSfiRecord r app ↔ ReadSfiResponse r.bytes) := by
  refine ⟨?_, ?_, ?_, ?_⟩
  · refine inBounds_iff (a := ⟨0, false, app, none⟩) (fun _ => ppse_rounds r.short) ?_ ?_ ⟨rfl, rfl⟩
    · rintro ⟨_, _, _, _⟩ ⟨_, _, _, _⟩ ⟨rfl, rfl⟩ ⟨rfl, rfl⟩
      exact Iff.rfl
    · rintro _ _ ⟨⟩
  · refine inBounds_iff (a := ⟨0, false, app⟩) (fun _ _ => selectApp_rounds r.short) ?_ trivial rfl
    rintro ⟨_, _, _⟩ ⟨_, _, _⟩ rfl rfl
    exact Iff.rfl
  · refine inBounds_iff (a := ⟨0, app⟩) (fun _ _ => getProcOpt_rounds r.short) ?_ trivial rfl
    rintro ⟨_, _⟩ ⟨_, _⟩ rfl rfl
    exact Iff.rfl
  · refine inBounds_iff (a := ⟨0, app⟩) (fun _ _ => readSfi_rounds r.short) ?_ trivial rfl
    rintro ⟨_, _⟩ ⟨_, _⟩ rfl rfl
    exact Iff.rfl

/-- The answer that the source holds for the selection of an application. -/
def selectAppAns : Response where
  bytes := [0x6F, 0x20, 0x84, 0x07, 0xA0, 0x00, 0x00, 0x00, 0x03, 0x10, 0x10, 0xA5, 0x15, 0x50, 0x04,
    0x56, 0x49, 0x53, 0x41, 0x9F, 0x38, 0x0C, 0x9F, 0x66, 0x04, 0x9F, 0x02, 0x06, 0x9F, 0x37, 0x04,
    0x5F, 0x2A, 0x02, 0x90, 0x00]
  short := by decide

/-- A template with an application identifier of 17 bytes, and the status word. -/
def longAid : Response where
  bytes := [0x61, 0x14, 0x4F, 0x11] ++ List.replicate 17 0xA0 ++ [0x90, 0x00]
  short := by decide

def cutAfter (tag : BitVec 8) : Response := ⟨[tag], by simp⟩

def emptyApplication : EmvApplication where
  priority := Vector.replicate 1 0
  aid := Vector.replicate 16 0
  aidLen := 0
  name := Vector.replicate 32 0
  cardNumber := Vector.replicate 8 0
  pdol := ⟨0, Vector.replicate 255 0⟩
  afl := ⟨0, Vector.replicate 255 0⟩

theorem not_responses_in_bounds :
    (¬StaysInBounds emvDecodePpseResponse longAid emptyApplication ∧
      ¬StaysInBounds emvDecodePpseResponse (cutAfter tagAppTemplate) emptyApplication) ∧
    ¬StaysInBounds emvDecodeSelectAppResponse selectAppAns emptyApplication ∧
    ¬StaysInBounds emvDecodeGetProcOpt (cutAfter tagCardNum) emptyApplication ∧
    ¬StaysInBounds emvDecodeReadSfiRecord (cutAfter tagPan) emptyApplication := by
  refine ⟨⟨?_, ?_⟩, ?_, ?_, ?_⟩
  · exact fun h => h 3 (by decide +kernel)
  · exact fun h => h 1 (by decide +kernel)
  · exact fun h => h 36 (by decide +kernel)
  · exact fun h => h 1 (by decide +kernel)
  · exact fun h => h 1 (by decide +kernel)

end FlipperZero.Nfc
