import FlipperZero.Nfc.EmvDecoder
import Mathlib.Data.Nat.Find

/-! # The records that the NFC worker reads

The worker goes through the entries of the Application File Locator with a counter of eight bits,
and through the records of an entry with another one. Every READ RECORD is answered by the card, and
the receive buffer is looked through for a card number whatever the exchange returned.
-/

namespace FlipperZero.Nfc

open Lib

/-- What an exchange with the card returns, and what the receive buffer holds then. -/
structure Exchange where
  err : ℕ
  rx : Response

def errNone : ℕ := 0

def emvPrepareReadSfiRecord (sfi recordNum : BitVec 8) : List (BitVec 8) :=
  [0x00, 0xB2, recordNum, sfi <<< 3 ||| 1 <<< 2, 0x00]

/-- What `emv_decode_read_sfi_record` returns: whether a card number begins in the response. -/
def panDecoded (r : Response) : Bool := decide (tagPan ∈ r.bytes)

/-- An exchange of a READ RECORD for the entry at an offset, and whether its receive buffer was
decoded. -/
structure Read where
  entry : BitVec 8
  command : List (BitVec 8)
  exchange : Exchange
  decoded : Bool

/-- The variables of the loop over the records of an entry. -/
structure FileLoop where
  sfi : BitVec 8
  record : BitVec 8
  recordEnd : BitVec 8

/-- The variables of the loop over the entries, with those of the inner loop while it is running. -/
structure AflLoop where
  i : BitVec 8
  panFound : Bool
  file : Option FileLoop
  log : List Read

section Loops

variable (afl : Apdu) (answers : ℕ → Exchange)

def aflByte (k : ℕ) : BitVec 8 := afl.data[k]?.getD 0

/-- A round of the innermost loop over the Application File Locator that is running. -/
def aflRound (s : AflLoop) : (Bool × List Read) ⊕ AflLoop :=
  match s.file with
  | none =>
    if s.i < afl.size ∧ ¬s.panFound then
      .inr { s with
        file := some ⟨aflByte afl s.i.toNat >>> 3, aflByte afl (s.i.toNat + 1),
          aflByte afl (s.i.toNat + 2)⟩ }
    else .inl (s.panFound, s.log)
  | some f =>
    if f.record ≤ f.recordEnd then
      let exchange := answers s.log.length
      let log := s.log ++ [⟨s.i, emvPrepareReadSfiRecord f.sfi f.record, exchange, true⟩]
      if panDecoded exchange.rx then .inr ⟨s.i + 4, true, none, log⟩
      else .inr { s with log, file := some { f with record := f.record + 1 } }
    else .inr { s with i := s.i + 4, file := none }

def readRecords (n : ℕ) : Option (Bool × List Read) :=
  loop (aflRound afl answers) n ⟨0, false, none, []⟩

/-- A READ RECORD as it is named by an entry. -/
abbrev Named := BitVec 8 × List (BitVec 8)

def first (e : ℕ) : ℕ := (aflByte afl (4 * e + 1)).toNat

def last (e : ℕ) : ℕ := (aflByte afl (4 * e + 2)).toNat

def nameOf (e record : ℕ) : Named :=
  (BitVec.ofNat 8 (4 * e),
    emvPrepareReadSfiRecord (aflByte afl (4 * e) >>> 3) (BitVec.ofNat 8 record))

/-- The records of an entry, from the first to the last one inclusive. -/
def recordsOf (e : ℕ) : List Named :=
  (List.range (last afl e + 1 - first afl e)).map fun k => nameOf afl e (first afl e + k)

/-- The records of the entries before one, in order. -/
def recordsBefore (e : ℕ) : List Named := (List.range e).flatMap (recordsOf afl)

/-- The records that the entries of four bytes name. -/
def named : List Named := recordsBefore afl (afl.size.toNat / 4)

/-- The loops end, and have read the named records in order, not all of them only where a card
number was decoded. No receive buffer was decoded after an exchange that failed. -/
def ReadsNamed : Prop :=
  ∃ n found log, readRecords afl answers n = some (found, log) ∧
    log.map (fun x => (x.entry, x.command)) <+: named afl ∧
    (log.map (fun x => (x.entry, x.command)) = named afl ∨
      ∃ x ∈ log.getLast?, panDecoded x.exchange.rx = true) ∧
    ∀ x ∈ log, x.decoded = true → x.exchange.err = errNone

def Pan (j : ℕ) : Prop := panDecoded (answers j).rx = true

/-- The exchanges succeed up to a card number. It comes by the end of every entry whose last record
is 255, and it comes unless the size is at most 252 and what is left of it over entries of four
bytes names no record. -/
structure Answered : Prop where
  succeed : ∀ j < (named afl).length, (∀ i < j, ¬Pan answers i) → (answers j).err = errNone
  ends : ∀ e < afl.size.toNat / 4, last afl e = 255 →
    ∃ j < (recordsBefore afl (e + 1)).length, Pan answers j
  whole : (∃ j < (named afl).length, Pan answers j) ∨ afl.size.toNat ≤ 252 ∧
    (4 ∣ afl.size.toNat ∨ last afl (afl.size.toNat / 4) < first afl (afl.size.toNat / 4))

end Loops

section Decoded

theorem readSfi_decodes (r : Response) (app : EmvApplication) :
    ∃ n res, emvDecodeReadSfiRecord r app n = some res ∧
      (res = none → panDecoded r = true) ∧ ∀ b app', res = some (b, app') → b = panDecoded r := by
  have hfrom (s : List (BitVec 8)) : ∀ i, r.bytes.drop i = s →
      ∃ n res, loop (checked (readSfiRound r.bytes)) n ⟨i, app⟩ = some res ∧
        (res = none → tagPan ∈ s) ∧ ∀ b app', res = some (b, app') → b = decide (tagPan ∈ s) := by
    induction s with
    | nil =>
      intro i hi
      have hround : readSfiRound r.bytes ⟨i, app⟩ = some (.inl (false, app)) :=
        if_neg (not_lt_of_drop hi)
      refine ⟨1, some (false, app), ?_, ?_, ?_⟩
      · rw [loop, checked, hround]
      · intro hnone
        cases hnone
      · rintro b app' ⟨⟩
        rfl
    | cons tag s ih =>
      intro i hi
      have hat := at_of_drop hi
      have hshort := r.short
      have hlt := hat.lt
      by_cases hpan : tag = tagPan
      · subst hpan
        cases hcopied : memcpy app.cardNumber r.bytes (i + 2) 8 with
        | none =>
          have hround : readSfiRound r.bytes ⟨i, app⟩ = none := by
            rw [readSfiRound, if_pos hlt, hat.read]
            simp [hcopied]
          refine ⟨1, none, ?_, fun _ => List.mem_cons_self, ?_⟩
          · rw [loop, checked, hround]
          · intro b app' h
            cases h
        | some cardNumber =>
          have hround : readSfiRound r.bytes ⟨i, app⟩ =
              some (.inl (true, { app with cardNumber })) := by
            rw [readSfiRound, if_pos hlt, hat.read]
            simp [hcopied]
          refine ⟨1, some (true, { app with cardNumber }), ?_, fun _ => List.mem_cons_self, ?_⟩
          · rw [loop, checked, hround]
          · rintro b app' ⟨⟩
            exact (decide_eq_true List.mem_cons_self).symm
      · have hround : readSfiRound r.bytes ⟨i, app⟩ = some (.inr ⟨i + 1, app⟩) := by
          rw [readSfiRound, if_pos hlt, hat.read]
          simp [hpan, next_eq (show i + 1 < 2 ^ 16 by omega)]
        have hmem : tagPan ∈ tag :: s ↔ tagPan ∈ s := by
          rw [List.mem_cons]
          exact or_iff_right (Ne.symm hpan)
        obtain ⟨n, res, hn, hnone, hsome⟩ := ih (i + 1) (by simpa using hat.drop 0)
        refine ⟨n + 1, res, ?_, fun h => hmem.mpr (hnone h), ?_⟩
        · rw [loop, checked, hround]
          exact hn
        · intro b app' h
          rw [hsome b app' h, decide_eq_decide]
          exact hmem.symm
  obtain ⟨n, res, hn, hnone, hsome⟩ := hfrom r.bytes 0 rfl
  exact ⟨n, res, hn, fun h => decide_eq_true (hnone h), hsome⟩

end Decoded

section Entries

variable {afl : Apdu} {answers : ℕ → Exchange} {e t n : ℕ} {found : Bool} {log : List Read}
  {s : AflLoop}

/-- The exchanges of the named records, from the first answer on. -/
def logOf (answers : ℕ → Exchange) (records : List Named) : List Read :=
  records.zipIdx.map fun x => ⟨x.1.1, x.1.2, answers x.2, true⟩

theorem logOf_concat (records : List Named) (x : Named) : logOf answers (records ++ [x]) =
    logOf answers records ++ [⟨x.1, x.2, answers records.length, true⟩] := by
  rw [logOf, List.zipIdx_append, List.map_append]
  simp [logOf]

theorem length_logOf (records : List Named) : (logOf answers records).length = records.length := by
  simp [logOf]

theorem map_logOf (records : List Named) :
    (logOf answers records).map (fun x => (x.entry, x.command)) = records := by
  rw [logOf, List.map_map]
  exact List.zipIdx_map_fst 0 records

theorem recordsBefore_succ (afl : Apdu) (e : ℕ) :
    recordsBefore afl (e + 1) = recordsBefore afl e ++ recordsOf afl e := by
  simp [recordsBefore, List.range_succ]

theorem length_recordsOf (afl : Apdu) (e : ℕ) :
    (recordsOf afl e).length = last afl e + 1 - first afl e := by
  simp [recordsOf]

theorem take_recordsOf (ht : t < (recordsOf afl e).length) :
    (recordsOf afl e).take (t + 1) =
      (recordsOf afl e).take t ++ [nameOf afl e (first afl e + t)] := by
  rw [List.take_succ_eq_append_getElem ht]
  congr 2
  simp [recordsOf]

def atEntry (afl : Apdu) (answers : ℕ → Exchange) (e : ℕ) : AflLoop :=
  ⟨BitVec.ofNat 8 (4 * e), false, none, logOf answers (recordsBefore afl e)⟩

/-- In the inner loop, with so many records of the entry read. -/
def inFile (afl : Apdu) (answers : ℕ → Exchange) (e t : ℕ) : AflLoop :=
  ⟨BitVec.ofNat 8 (4 * e), false,
    some ⟨aflByte afl (4 * e) >>> 3, BitVec.ofNat 8 (first afl e + t), aflByte afl (4 * e + 2)⟩,
    logOf answers (recordsBefore afl e ++ (recordsOf afl e).take t)⟩

theorem last_le (afl : Apdu) (e : ℕ) : last afl e ≤ 255 := Nat.le_of_lt_succ (BitVec.isLt _)

theorem first_le (afl : Apdu) (e : ℕ) : first afl e ≤ 255 := Nat.le_of_lt_succ (BitVec.isLt _)

theorem round_atEntry (he : 4 * e < afl.size.toNat) :
    aflRound afl answers (atEntry afl answers e) = .inr (inFile afl answers e 0) := by
  have hsize := afl.size.isLt
  have hi : (BitVec.ofNat 8 (4 * e)).toNat = 4 * e := by
    rw [BitVec.toNat_ofNat, Nat.mod_eq_of_lt (by omega)]
  have hlt : BitVec.ofNat 8 (4 * e) < afl.size := by
    rw [BitVec.lt_def, hi]
    exact he
  have hfirst : BitVec.ofNat 8 (first afl e) = aflByte afl (4 * e + 1) := by
    rw [first, BitVec.ofNat_toNat, BitVec.setWidth_eq]
  simp [aflRound, atEntry, inFile, hlt, hi, hfirst]

theorem record_toNat (ht : t < (recordsOf afl e).length) :
    (BitVec.ofNat 8 (first afl e + t)).toNat = first afl e + t := by
  have hlast := last_le afl e
  rw [length_recordsOf] at ht
  rw [BitVec.toNat_ofNat, Nat.mod_eq_of_lt (by omega)]

theorem length_before (ht : t ≤ (recordsOf afl e).length) :
    (recordsBefore afl e ++ (recordsOf afl e).take t).length =
      (recordsBefore afl e).length + t := by
  rw [List.length_append, List.length_take, Nat.min_eq_left ht]

theorem round_record (ht : t < (recordsOf afl e).length) :
    let log := logOf answers (recordsBefore afl e ++ (recordsOf afl e).take (t + 1))
    (Pan answers ((recordsBefore afl e).length + t) →
      aflRound afl answers (inFile afl answers e t) =
        .inr ⟨BitVec.ofNat 8 (4 * e) + 4, true, none, log⟩) ∧
    (¬Pan answers ((recordsBefore afl e).length + t) →
      aflRound afl answers (inFile afl answers e t) = .inr (inFile afl answers e (t + 1))) := by
  intro log
  have hle : BitVec.ofNat 8 (first afl e + t) ≤ aflByte afl (4 * e + 2) := by
    have hlen := ht
    rw [length_recordsOf] at hlen
    rw [BitVec.le_def, record_toNat ht]
    show first afl e + t ≤ last afl e
    omega
  have hnext : BitVec.ofNat 8 (first afl e + t) + 1 = BitVec.ofNat 8 (first afl e + (t + 1)) := by
    rw [← Nat.add_assoc, BitVec.ofNat_add (first afl e + t) 1]
    rfl
  have hlog : logOf answers (recordsBefore afl e ++ (recordsOf afl e).take t) ++
      [⟨BitVec.ofNat 8 (4 * e), emvPrepareReadSfiRecord (aflByte afl (4 * e) >>> 3)
        (BitVec.ofNat 8 (first afl e + t)), answers ((recordsBefore afl e).length + t), true⟩] =
      log := by
    show _ = logOf answers (recordsBefore afl e ++ (recordsOf afl e).take (t + 1))
    rw [take_recordsOf ht, ← List.append_assoc, logOf_concat, length_before ht.le]
    rfl
  have hlength : (logOf answers (recordsBefore afl e ++ (recordsOf afl e).take t)).length =
      (recordsBefore afl e).length + t := by
    rw [length_logOf, length_before ht.le]
  constructor
  · intro hpan
    simp only [aflRound, inFile, if_pos hle, hlength, hlog]
    exact if_pos hpan
  · intro hpan
    simp only [aflRound, inFile, if_pos hle, hlength, hlog, hnext]
    exact if_neg hpan

/-- The last record of an entry is passed, unless it is 255 and the counter begins again. -/
theorem round_passed (hlast : last afl e ≠ 255) :
    aflRound afl answers (inFile afl answers e (recordsOf afl e).length) =
      .inr (atEntry afl answers (e + 1)) := by
  have hle := last_le afl e
  have hle' := first_le afl e
  have hgt : ¬BitVec.ofNat 8 (first afl e + (recordsOf afl e).length) ≤ aflByte afl (4 * e + 2) := by
    rw [BitVec.le_def, BitVec.toNat_ofNat, length_recordsOf, Nat.mod_eq_of_lt (by omega)]
    show ¬first afl e + (last afl e + 1 - first afl e) ≤ last afl e
    omega
  have hi : BitVec.ofNat 8 (4 * e) + 4 = BitVec.ofNat 8 (4 * (e + 1)) := by
    rw [Nat.mul_succ, BitVec.ofNat_add (4 * e) 4]
    rfl
  simp only [aflRound, inFile, if_neg hgt, hi, List.take_length]
  rw [atEntry, recordsBefore_succ]

theorem round_wraps (hlast : last afl e = 255) :
    ∃ s x, aflRound afl answers (inFile afl answers e (recordsOf afl e).length) = .inr s ∧
      s.log = logOf answers (recordsBefore afl (e + 1) ++ [x]) ∧ x.1 = BitVec.ofNat 8 (4 * e) := by
  have hle' := first_le afl e
  have hzero : BitVec.ofNat 8 (first afl e + (recordsOf afl e).length) = 0#8 := by
    have hsum : first afl e + (last afl e + 1 - first afl e) = 256 := by omega
    rw [length_recordsOf, hsum]
    rfl
  have hle : 0#8 ≤ aflByte afl (4 * e + 2) := BitVec.le_def.mpr (Nat.zero_le _)
  have hlog : _ = logOf answers (recordsBefore afl (e + 1) ++ [nameOf afl e 0]) :=
    (logOf_concat _ _).symm
  simp only [aflRound, inFile, hzero, if_pos hle, List.take_length, ← recordsBefore_succ,
    length_logOf]
  split
  · exact ⟨_, nameOf afl e 0, rfl, hlog, rfl⟩
  · exact ⟨_, nameOf afl e 0, rfl, hlog, rfl⟩

theorem reaches_inFile (hreach : Reaches (aflRound afl answers) s (inFile afl answers e 0))
    (hpan : ∀ j < t, ¬Pan answers ((recordsBefore afl e).length + j))
    (ht : t ≤ (recordsOf afl e).length) :
    Reaches (aflRound afl answers) s (inFile afl answers e t) := by
  induction t with
  | zero => exact hreach
  | succ t ih =>
    have hnone : ∀ j < t, ¬Pan answers ((recordsBefore afl e).length + j) :=
      fun j hj => hpan j (by omega)
    exact (ih hnone (by omega)).next ((round_record ht).2 (hpan t (Nat.lt_succ_self t)))

def start : AflLoop := ⟨0, false, none, []⟩

/-- Before a card number the entries are gone through in order, while none ends with record 255. -/
theorem reaches_entry (he : ∀ i < e, 4 * i < afl.size.toNat) (hlast : ∀ i < e, last afl i ≠ 255)
    (hpan : ∀ j < (recordsBefore afl e).length, ¬Pan answers j) :
    Reaches (aflRound afl answers) start (atEntry afl answers e) := by
  induction e with
  | zero => exact .refl _ _
  | succ e ih =>
    rw [recordsBefore_succ, List.length_append] at hpan
    have hreach := ih (fun i hi => he i (by omega)) (fun i hi => hlast i (by omega))
      fun j hj => hpan j (by omega)
    have hfile := reaches_inFile (hreach.next (round_atEntry (he e (Nat.lt_succ_self e))))
      (fun j hj => hpan _ (by omega)) le_rfl
    exact hfile.next (round_passed (hlast e (Nat.lt_succ_self e)))

/-- What holds of the loops in every round: the counter goes by fours, and the log is that of the
records read, of which only the last one gave a card number. -/
structure Running (afl : Apdu) (answers : ℕ → Exchange) (s : AflLoop) : Prop where
  fours : s.i.toNat % 4 = 0
  log : ∃ records, s.log = logOf answers records
  found : s.panFound = true → s.file = none ∧ ∃ x ∈ s.log.getLast?, panDecoded x.exchange.rx = true

theorem add_four (i : BitVec 8) (h : i.toNat % 4 = 0) : (i + 4).toNat % 4 = 0 := by
  have hfour : (4 : BitVec 8).toNat = 4 := rfl
  rw [BitVec.toNat_add, hfour]
  omega

theorem Running.next {s' : AflLoop} (h : Running afl answers s)
    (hs : aflRound afl answers s = .inr s') : Running afl answers s' ∧ s.log <+: s'.log := by
  obtain ⟨hfours, ⟨records, hlog⟩, hfound⟩ := h
  obtain ⟨i, panFound, file, log⟩ := s
  cases file with
  | none =>
    simp only [aflRound] at hs
    split at hs
    · next hin =>
      obtain rfl := Sum.inr.inj hs
      exact ⟨⟨hfours, ⟨records, hlog⟩, fun htrue => absurd htrue hin.2⟩, List.prefix_rfl⟩
    · cases hs
  | some f =>
    have hnot : panFound ≠ true := by
      rintro htrue
      cases (hfound htrue).1
    obtain rfl : log = logOf answers records := hlog
    have hconcat (x : Named) : _ = logOf answers (records ++ [x]) := (logOf_concat records x).symm
    simp only [aflRound, length_logOf] at hs
    split at hs
    · split at hs
      · next hpan =>
        obtain rfl := Sum.inr.inj hs
        refine ⟨⟨add_four i hfours, ⟨_, hconcat (i, _)⟩, fun _ => ⟨rfl, ?_⟩⟩, List.prefix_append _ _⟩
        exact ⟨_, List.getLast?_concat, hpan⟩
      · obtain rfl := Sum.inr.inj hs
        exact ⟨⟨hfours, ⟨_, hconcat (i, _)⟩, fun htrue => absurd htrue hnot⟩,
          List.prefix_append _ _⟩
    · obtain rfl := Sum.inr.inj hs
      exact ⟨⟨add_four i hfours, ⟨records, rfl⟩, fun htrue => absurd htrue hnot⟩, List.prefix_rfl⟩

theorem running_start : Running afl answers start :=
  ⟨rfl, ⟨[], rfl⟩, fun htrue => absurd htrue Bool.false_ne_true⟩

theorem Running.reaches {s' : AflLoop} (h : Running afl answers s)
    (hreach : Reaches (aflRound afl answers) s s') : Running afl answers s' := by
  obtain ⟨k, hk⟩ := hreach
  induction k generalizing s with
  | zero =>
    obtain rfl := Option.some.inj hk
    exact h
  | succ k ih =>
    unfold rounds at hk
    split at hk
    · cases hk
    · next s₁ hs => exact ih (h.next hs).1 hk

theorem Running.leaves (h : Running afl answers s)
    (hn : loop (aflRound afl answers) n s = some (found, log)) :
    s.log <+: log ∧ (∃ records, log = logOf answers records) ∧
      (found = true → ∃ x ∈ log.getLast?, panDecoded x.exchange.rx = true) ∧
      (found = false → afl.size.toNat ≤ 252) := by
  have hleave := loop_invariant (P := fun a => Running afl answers a ∧ s.log <+: a.log)
    (Q := fun b => s.log <+: b.2 ∧ (∃ records, b.2 = logOf answers records) ∧
      (b.1 = true → ∃ x ∈ b.2.getLast?, panDecoded x.exchange.rx = true) ∧
      (b.1 = false → afl.size.toNat ≤ 252)) ?_ ?_ ⟨h, List.prefix_rfl⟩ hn
  · exact hleave
  · rintro a a' ⟨ha, hbefore⟩ hbody
    exact ⟨(ha.next hbody).1, hbefore.trans (ha.next hbody).2⟩
  · rintro a b ⟨ha, hbefore⟩ hbody
    obtain ⟨hfours, hlog, hfound⟩ := ha
    obtain ⟨i, panFound, file, log'⟩ := a
    cases file with
    | none =>
      simp only [aflRound] at hbody
      split at hbody
      · cases hbody
      · next hin =>
        obtain rfl := Sum.inl.inj hbody
        refine ⟨hbefore, hlog, fun htrue => (hfound htrue).2, fun hfalse => ?_⟩
        have hsize : ¬i < afl.size := fun hlt => hin ⟨hlt, by simp [show panFound = false from hfalse]⟩
        rw [BitVec.lt_def] at hsize
        have hlt := i.isLt
        have hfours' : i.toNat % 4 = 0 := hfours
        omega
    | some f =>
      simp only [aflRound] at hbody
      split at hbody
      · split at hbody <;> cases hbody
      · cases hbody

theorem last_pan {records : List Named}
    (h : ∃ x ∈ (logOf answers records).getLast?, panDecoded x.exchange.rx = true) :
    ∃ m, records.length = m + 1 ∧ Pan answers m := by
  obtain ⟨x, hx, hpan⟩ := h
  rcases records.eq_nil_or_concat with rfl | ⟨records, y, rfl⟩
  · cases hx
  · rw [List.concat_eq_append, logOf_concat, List.getLast?_concat] at hx
    obtain rfl := Option.some.inj hx
    exact ⟨records.length, by simp, hpan⟩

theorem prefix_of_reaches {records records' : List Named}
    (hn : readRecords afl answers n = some (found, logOf answers records))
    (hreach : Reaches (aflRound afl answers) start s) (hs : s.log = logOf answers records') :
    records' <+: records := by
  obtain ⟨m, hm⟩ := hreach.loop_eq hn
  obtain ⟨hbefore, _⟩ := (running_start.reaches hreach).leaves hm
  have hmap := hbefore.map fun x => (x.entry, x.command)
  rwa [hs, map_logOf, map_logOf] at hmap

theorem recordsBefore_add (afl : Apdu) (e k : ℕ) :
    ∃ rest, recordsBefore afl (e + k) = recordsBefore afl e ++ rest ∧
      ∀ x ∈ rest, ∃ i, e ≤ i ∧ i < e + k ∧ x.1 = BitVec.ofNat 8 (4 * i) := by
  induction k with
  | zero => exact ⟨[], (List.append_nil _).symm, fun x hx => absurd hx List.not_mem_nil⟩
  | succ k ih =>
    obtain ⟨rest, hrest, hnames⟩ := ih
    refine ⟨rest ++ recordsOf afl (e + k), ?_, ?_⟩
    · rw [← Nat.add_assoc, recordsBefore_succ, hrest, List.append_assoc]
    · intro x hx
      rcases List.mem_append.mp hx with hx | hx
      · obtain ⟨i, hle, hlt, hi⟩ := hnames x hx
        exact ⟨i, hle, by omega, hi⟩
      · obtain ⟨_, _, rfl⟩ := List.mem_map.mp hx
        exact ⟨e + k, by omega, by omega, rfl⟩

theorem recordsBefore_mono (h : e ≤ n) : recordsBefore afl e <+: recordsBefore afl n := by
  obtain ⟨k, rfl⟩ := Nat.exists_eq_add_of_le h
  obtain ⟨rest, hrest, _⟩ := recordsBefore_add afl e k
  rw [hrest]
  exact List.prefix_append _ _

theorem not_named_later {x : Named} (hn : 4 * n ≤ 256) (hx : x.1 = BitVec.ofNat 8 (4 * e))
    (hen : e < n) : ¬recordsBefore afl (e + 1) ++ [x] <+: recordsBefore afl n := by
  intro hbefore
  obtain ⟨k, rfl⟩ := Nat.exists_eq_add_of_le (Nat.succ_le_of_lt hen)
  obtain ⟨rest, hrest, hnames⟩ := recordsBefore_add afl (e + 1) k
  rw [hrest, List.prefix_append_right_inj] at hbefore
  obtain ⟨i, hle, hlt, hi⟩ := hnames x (hbefore.subset (List.mem_singleton_self x))
  have heq := congrArg BitVec.toNat (hx.symm.trans hi)
  rw [BitVec.toNat_ofNat, BitVec.toNat_ofNat, Nat.mod_eq_of_lt (by omega),
    Nat.mod_eq_of_lt (by omega)] at heq
  omega

theorem reads_first (hreach : Reaches (aflRound afl answers) start (inFile afl answers e 0))
    (hnames : first afl e ≤ last afl e) :
    ∃ s x, Reaches (aflRound afl answers) start s ∧
      s.log = logOf answers (recordsBefore afl e ++ [x]) := by
  have ht : 0 < (recordsOf afl e).length := by
    rw [length_recordsOf]
    omega
  have htake : (recordsOf afl e).take (0 + 1) = [nameOf afl e (first afl e + 0)] := by
    rw [take_recordsOf ht, List.take_zero, List.nil_append]
  obtain ⟨hyes, hno⟩ : (_ → aflRound afl answers _ = _) ∧ (_ → aflRound afl answers _ = _) :=
    round_record ht
  by_cases hpan : Pan answers ((recordsBefore afl e).length + 0)
  · exact ⟨_, nameOf afl e (first afl e + 0), hreach.next (hyes hpan), by rw [htake]⟩
  · exact ⟨_, nameOf afl e (first afl e + 0), hreach.next (hno hpan), by rw [inFile, htake]⟩

theorem answered_of_readsNamed (h : ReadsNamed afl answers) : Answered afl answers := by
  obtain ⟨n, found, log, hn, hbefore, hall, hfail⟩ := h
  obtain ⟨_, ⟨records, rfl⟩, hfound, hsize⟩ := running_start.leaves hn
  rw [map_logOf] at hbefore hall
  have hpan {j : ℕ} (hj : ∀ i < j, ¬Pan answers i) (hlt : j < (named afl).length) :
      j < records.length := by
    by_contra hge
    rcases hall with rfl | hlast
    · exact hge hlt
    · obtain ⟨m, hm, hpan⟩ := last_pan hlast
      exact hj m (by omega) hpan
  have hends (e : ℕ) : e < afl.size.toNat / 4 → last afl e = 255 →
      ∃ j < (recordsBefore afl (e + 1)).length, Pan answers j := by
    induction e using Nat.strongRecOn with
    | ind e ih =>
      intro he hlast
      by_contra hnone
      have hnone' (j : ℕ) (hj : j < (recordsBefore afl (e + 1)).length) : ¬Pan answers j :=
        fun hpan => hnone ⟨j, hj, hpan⟩
      have hlast' (i : ℕ) (hi : i < e) : last afl i ≠ 255 := by
        intro h255
        obtain ⟨j, hj, hpan⟩ := ih i hi (by omega) h255
        have hle : (recordsBefore afl (i + 1)).length ≤ (recordsBefore afl (e + 1)).length :=
          (recordsBefore_mono (by omega)).length_le
        exact hnone' j (by omega) hpan
      have hlength : (recordsBefore afl (e + 1)).length =
          (recordsBefore afl e).length + (recordsOf afl e).length := by
        rw [recordsBefore_succ, List.length_append]
      have hentry : Reaches (aflRound afl answers) start (atEntry afl answers e) :=
        reaches_entry (fun i hi => by omega) hlast' fun j hj => hnone' j (by omega)
      have hfile := reaches_inFile (hentry.next (round_atEntry (by omega)))
        (fun j hj => hnone' _ (by omega)) le_rfl
      obtain ⟨s, x, hs, hlog, hx⟩ : ∃ s x, aflRound afl answers _ = .inr s ∧ _ ∧ _ :=
        round_wraps hlast
      have hbefore' := (prefix_of_reaches hn (hfile.next hs) hlog).trans hbefore
      have hbytes := afl.size.isLt
      exact not_named_later (by omega) hx he hbefore'
  constructor
  · intro j hj hnone
    have hlt := hpan hnone hj
    have hmem : ⟨records[j].1, records[j].2, answers j, true⟩ ∈ logOf answers records := by
      refine List.mem_map.mpr ⟨(records[j], j), ?_, rfl⟩
      exact List.mem_zipIdx_iff_getElem?.mpr (List.getElem?_eq_getElem hlt)
    exact hfail _ hmem rfl
  · exact hends
  · by_contra hnot
    rw [not_or] at hnot
    obtain ⟨hnone, hwhole⟩ := hnot
    have hnone' (j : ℕ) (hj : j < (named afl).length) : ¬Pan answers j :=
      fun hpan => hnone ⟨j, hj, hpan⟩
    cases found with
    | true =>
      obtain ⟨m, hm, hpan⟩ := last_pan (hfound rfl)
      have hle := hbefore.length_le
      exact hnone' m (by omega) hpan
    | false =>
      have hbytes := hsize rfl
      rw [not_and_or, not_or, not_lt] at hwhole
      obtain ⟨hfour, hnames⟩ := hwhole.resolve_left (not_not.mpr hbytes)
      have hin : 4 * (afl.size.toNat / 4) < afl.size.toNat := by omega
      have hentry : Reaches (aflRound afl answers) start
          (atEntry afl answers (afl.size.toNat / 4)) := by
        refine reaches_entry (fun i hi => by omega) (fun i hi h255 => ?_) hnone'
        obtain ⟨j, hj, hpan⟩ := hends i hi h255
        have hle : (recordsBefore afl (i + 1)).length ≤ (named afl).length :=
          (recordsBefore_mono (by omega)).length_le
        exact hnone' j (by omega) hpan
      obtain ⟨s, x, hs, hlog⟩ := reads_first (hentry.next (round_atEntry hin)) hnames
      have hlength := ((prefix_of_reaches hn hs hlog).trans hbefore).length_le
      rw [List.length_append, List.length_singleton] at hlength
      exact absurd hlength (Nat.not_succ_le_self _)

theorem exists_entry {j : ℕ} (hj : j < (recordsBefore afl n).length) :
    ∃ e t, e < n ∧ t < (recordsOf afl e).length ∧ j = (recordsBefore afl e).length + t := by
  induction n with
  | zero => exact absurd hj (Nat.not_lt_zero j)
  | succ n ih =>
    rw [recordsBefore_succ, List.length_append] at hj
    rcases Nat.lt_or_ge j (recordsBefore afl n).length with hlt | hge
    · obtain ⟨e, t, he, ht, hsum⟩ := ih hlt
      exact ⟨e, t, by omega, ht, hsum⟩
    · exact ⟨n, j - (recordsBefore afl n).length, Nat.lt_succ_self n, by omega, by omega⟩

theorem logOf_succeed {records : List Named}
    (h : ∀ j < records.length, (answers j).err = errNone) :
    ∀ x ∈ logOf answers records, x.decoded = true → x.exchange.err = errNone := by
  intro x hx _
  obtain ⟨⟨y, j⟩, hy, rfl⟩ := List.mem_map.mp hx
  obtain ⟨hlt, _⟩ := List.getElem?_eq_some_iff.mp (List.mem_zipIdx_iff_getElem?.mp hy)
  exact h j hlt

theorem Answered.reads_pan (h : Answered afl answers) {j : ℕ} (hj : j < (named afl).length)
    (hpan : Pan answers j) (hfirst : ∀ i < j, ¬Pan answers i) : ReadsNamed afl answers := by
  obtain ⟨e, t, he, ht, rfl⟩ := exists_entry hj
  have hbytes := afl.size.isLt
  have hentry : Reaches (aflRound afl answers) start (atEntry afl answers e) := by
    refine reaches_entry (fun i hi => by omega) (fun i hi h255 => ?_)
      fun i hi => hfirst i (by omega)
    obtain ⟨k, hk, hpan'⟩ := h.ends i (by omega) h255
    have hle : (recordsBefore afl (i + 1)).length ≤ (recordsBefore afl e).length :=
      (recordsBefore_mono (by omega)).length_le
    exact hfirst k (by omega) hpan'
  have hfile := reaches_inFile (hentry.next (round_atEntry (by omega)))
    (fun i hi => hfirst _ (by omega)) ht.le
  obtain ⟨n, hn⟩ := (hfile.next ((round_record ht).1 hpan)).leaves (by
    simp only [aflRound]
    exact if_neg fun hin => hin.2 trivial)
  have hlength : (recordsBefore afl e ++ (recordsOf afl e).take (t + 1)).length =
      (recordsBefore afl e).length + (t + 1) := length_before ht
  refine ⟨n, true, _, hn, ?_, .inr ?_, logOf_succeed fun i hi => h.succeed i ?_ ?_⟩
  · rw [map_logOf]
    have hbefore : recordsBefore afl (e + 1) <+: named afl := recordsBefore_mono he
    rw [recordsBefore_succ] at hbefore
    exact ((List.prefix_append_right_inj _).mpr (List.take_prefix _ _)).trans hbefore
  · rw [take_recordsOf ht, ← List.append_assoc, logOf_concat, List.getLast?_concat,
      length_before ht.le]
    exact ⟨_, rfl, hpan⟩
  · omega
  · exact fun k hk => hfirst k (by omega)

theorem Answered.reads_all (h : Answered afl answers)
    (hnone : ∀ j < (named afl).length, ¬Pan answers j) : ReadsNamed afl answers := by
  have hnamed (e : ℕ) (he : e ≤ afl.size.toNat / 4) :
      (recordsBefore afl e).length ≤ (named afl).length := (recordsBefore_mono he).length_le
  have hlast (e : ℕ) (he : e < afl.size.toNat / 4) : last afl e ≠ 255 := by
    intro h255
    obtain ⟨j, hj, hpan⟩ := h.ends e he h255
    exact hnone j (lt_of_lt_of_le hj (hnamed (e + 1) he)) hpan
  obtain ⟨hsize, hrest⟩ := h.whole.resolve_left fun ⟨j, hj, hpan⟩ => hnone j hj hpan
  have hentry : Reaches (aflRound afl answers) start (atEntry afl answers (afl.size.toNat / 4)) :=
    reaches_entry (fun i hi => by omega) hlast hnone
  have hall : ∃ e, afl.size.toNat ≤ 4 * e ∧ 4 * e < 256 ∧ recordsBefore afl e = named afl ∧
      Reaches (aflRound afl answers) start (atEntry afl answers e) := by
    by_cases hin : 4 * (afl.size.toNat / 4) < afl.size.toNat
    · have hlt := hrest.resolve_left (by omega)
      have hempty : (recordsOf afl (afl.size.toNat / 4)).length = 0 := by
        rw [length_recordsOf]
        omega
      have hne : last afl (afl.size.toNat / 4) ≠ 255 := by
        have hle := first_le afl (afl.size.toNat / 4)
        omega
      have hpassed : aflRound afl answers (inFile afl answers (afl.size.toNat / 4) 0) =
          .inr (atEntry afl answers (afl.size.toNat / 4 + 1)) := by
        rw [← hempty]
        exact round_passed hne
      refine ⟨afl.size.toNat / 4 + 1, by omega, by omega, ?_,
        (hentry.next (round_atEntry hin)).next hpassed⟩
      rw [recordsBefore_succ, List.eq_nil_of_length_eq_zero hempty, List.append_nil]
      rfl
    · exact ⟨_, by omega, by omega, rfl, hentry⟩
  obtain ⟨e, hle, hlt, hbefore, hreach⟩ := hall
  have hleave : aflRound afl answers (atEntry afl answers e) =
      .inl (false, logOf answers (named afl)) := by
    have hi : ¬BitVec.ofNat 8 (4 * e) < afl.size := by
      rw [BitVec.lt_def, BitVec.toNat_ofNat, Nat.mod_eq_of_lt hlt]
      omega
    simp only [aflRound, atEntry, hbefore]
    exact if_neg fun hin => hi hin.1
  obtain ⟨n, hn⟩ := hreach.leaves hleave
  refine ⟨n, false, _, hn, ?_, .inl (map_logOf _), logOf_succeed fun j hj => ?_⟩
  · exact ⟨[], (List.append_nil _).trans (map_logOf _)⟩
  · exact h.succeed j hj fun i hi => hnone i (by omega)

/-- The worker reads the named records exactly where the card answers so. -/
theorem readsNamed_iff (afl : Apdu) (answers : ℕ → Exchange) :
    ReadsNamed afl answers ↔ Answered afl answers := by
  constructor
  · exact answered_of_readsNamed
  · intro h
    by_cases hsome : ∃ j, j < (named afl).length ∧ Pan answers j
    · classical
      obtain ⟨hj, hpan⟩ := Nat.find_spec hsome
      refine h.reads_pan hj hpan fun i hi hpan' => Nat.find_min hsome hi ⟨by omega, hpan'⟩
    · exact h.reads_all fun j hj hpan => hsome ⟨j, hj, hpan⟩

/-- One record of one entry is named, and its exchange fails with an empty buffer. -/
theorem not_readsNamed : ¬∀ afl answers, ReadsNamed afl answers := by
  intro h
  let afl : Apdu := ⟨4, (((Vector.replicate 255 0).set 0 0x08).set 1 1).set 2 1⟩
  let failed : Exchange := ⟨4, ⟨[], by decide⟩⟩
  have hanswered := answered_of_readsNamed (h afl fun _ => failed)
  have hlength : 0 < (named afl).length := by decide
  have hsucceed := hanswered.succeed 0 hlength fun i hi => absurd hi (Nat.not_lt_zero i)
  cases hsucceed

end Entries

end FlipperZero.Nfc
