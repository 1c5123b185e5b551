import FlipperZero.Firmware.Bq27220

/-! # The profile after an update

What an update leaves in the memory: the value of every parameter whose selection and checksum
arrive, and the old one where they do not. What is read back at the end tells of one parameter.
-/

namespace FlipperZero.Firmware.Bq27220

section Memory

variable {memory : Memory} {p q : Parameter} {gauge : Gauge}

theorem bytes_append (v : BitVec 16) : v.extractLsb' 8 8 ++ v.extractLsb' 0 8 = v := by
  ext i hi
  simp only [BitVec.getElem_append, BitVec.getElem_extractLsb']
  split
  · rw [Nat.zero_add]
    exact BitVec.getLsbD_eq_getElem hi
  · next hge =>
    rw [show 8 + (i - 8) = i by omega]
    exact BitVec.getLsbD_eq_getElem hi

theorem word_store (a v : BitVec 16) : word (Gauge.store memory (a, v)) a = v := by
  have hne : a ≠ a + 1 := by
    intro h
    have := congrArg BitVec.toNat h
    rw [BitVec.toNat_add] at this
    have hlt := a.isLt
    simp at this
    omega
  rw [word, Gauge.store, Function.update_of_ne hne, Function.update_self, Function.update_self,
    bytes_append]

theorem word_store_other {a b v : BitVec 16} (h : b ≠ a ∧ b ≠ a + 1 ∧ b + 1 ≠ a ∧ b + 1 ≠ a + 1) :
    word (Gauge.store memory (a, v)) b = word memory b := by
  rw [word, Gauge.store, Function.update_of_ne h.2.1, Function.update_of_ne h.1,
    Function.update_of_ne h.2.2.2, Function.update_of_ne h.2.2.1]
  rfl

theorem address_disjoint (h : p ≠ q) : q.address ≠ p.address ∧ q.address ≠ p.address + 1 ∧
    q.address + 1 ≠ p.address ∧ q.address + 1 ≠ p.address + 1 := by
  have hmem (p : Parameter) : p ∈ Parameter.all := by cases p <;> decide
  have hall : ∀ p ∈ Parameter.all, ∀ q ∈ Parameter.all, p ≠ q → q.address ≠ p.address ∧
      q.address ≠ p.address + 1 ∧ q.address + 1 ≠ p.address ∧ q.address + 1 ≠ p.address + 1 := by
    decide +kernel
  exact hall p (hmem p) q (hmem q) h

theorem matches_iff (selection : BitVec 16 × BitVec 16) (checksum : Byte) :
    Gauge.Matches selection checksum 6 ↔ checksum = getChecksum (Gauge.data selection) := by
  simp only [Gauge.Matches, Gauge.data, getChecksum, List.map_cons, List.map_nil, List.sum_cons,
    List.sum_nil, List.foldl_cons, List.foldl_nil, and_true]
  generalize selection.1.extractLsb' 0 8 = a
  generalize selection.1.extractLsb' 8 8 = b
  generalize selection.2.extractLsb' 8 8 = c
  generalize selection.2.extractLsb' 0 8 = d
  bv_omega

end Memory

section Update

variable {arrives : Transfer → Bool} {delay : ℕ} {cedv : ParamCEDV} {gauge : Gauge}
variable {p q : Parameter} {ps : List Parameter} {status : BitVec 16} {d i n : ℕ}

/-- The gauge is in its mode after the loop iff it takes no longer than the loop waits. -/
theorem waitForUpdate_eq (h : gauge.entering = some d)
    (hstatus : status.getLsbD 10 = true → gauge.inUpdate) :
    ∃ e, waitForUpdate arrives n i status gauge = { gauge with entering := some e } ∧
      (e = 0 ↔ d ≤ n) := by
  induction n generalizing gauge d i status with
  | zero =>
    refine ⟨d, ?_, Nat.le_zero.symm⟩
    rw [waitForUpdate, ← h]
  | succ n ih =>
    rw [waitForUpdate]
    split
    · next hset =>
      obtain rfl : d = 0 := Option.some.inj (h.symm.trans (hstatus hset))
      exact ⟨0, by rw [← h], by simp⟩
    · next hclear =>
      have hpoll : gauge.poll.entering = some (d - 1) := by rw [Gauge.poll, h]; rfl
      generalize hdata : readWord arrives (.poll i) gauge.operationStatus = data
      have hnext : (if data = 0 then status else data).getLsbD 10 = true → gauge.poll.inUpdate := by
        intro hbit
        have hmode : gauge.inUpdate := by
          by_contra hnot
          apply hclear
          simpa [← hdata, readWord, Gauge.operationStatus, hnot] using hbit
        obtain rfl : d = 0 := Option.some.inj (h.symm.trans hmode)
        exact hpoll
      obtain ⟨e, hwait, he⟩ := @ih gauge.poll _ (d - 1) (i + 1) hpoll hnext
      exact ⟨e, hwait, he.trans (by omega)⟩

/-- The parameter whose selection was the last of these to arrive. -/
def lastSelected (arrives : Transfer → Bool) (ps : List Parameter) : Option Parameter :=
  (ps.filter fun p => arrives (.select p)).getLast?

def checksum (cedv : ParamCEDV) (p : Parameter) : Byte :=
  getChecksum (Gauge.data (p.address, p.value cedv))

/-- While a parameter is the last selected, its checksum arrives, be it as that of another. -/
def Stored (arrives : Transfer → Bool) (cedv : ParamCEDV) (ps : List Parameter) (p : Parameter) :
    Prop :=
  ∃ before q, before ++ [q] <+: ps ∧ arrives (.dataSum q) = true ∧
    lastSelected arrives (before ++ [q]) = some p ∧ checksum cedv q = checksum cedv p

theorem lastSelected_concat : lastSelected arrives (ps ++ [q]) =
    if arrives (.select q) then some q else lastSelected arrives ps := by
  rw [lastSelected, List.filter_append]
  by_cases hq : arrives (.select q) = true
  · simp [hq]
  · simp [hq, lastSelected]

theorem stored_concat : Stored arrives cedv (ps ++ [q]) p ↔ Stored arrives cedv ps p ∨
    arrives (.dataSum q) = true ∧ lastSelected arrives (ps ++ [q]) = some p ∧
      checksum cedv q = checksum cedv p := by
  constructor
  · rintro ⟨before, r, hprefix, hsum, hlast, hchecksum⟩
    rcases List.prefix_concat_iff.mp hprefix with heq | hprefix
    · obtain ⟨rfl, hr⟩ := List.append_inj' heq rfl
      obtain rfl : r = q := List.cons.inj hr |>.1
      exact .inr ⟨hsum, hlast, hchecksum⟩
    · exact .inl ⟨before, r, hprefix, hsum, hlast, hchecksum⟩
  · rintro (⟨before, r, hprefix, hrest⟩ | hnow)
    · exact ⟨before, r, hprefix.trans (List.prefix_append _ _), hrest⟩
    · exact ⟨ps, q, List.prefix_rfl, hnow⟩

/-- What the gauge has after some parameters, when it began in its mode with a memory. -/
structure Tracks (arrives : Transfer → Bool) (cedv : ParamCEDV) (memory : Memory)
    (ps : List Parameter) (gauge : Gauge) : Prop where
  mode : gauge.inUpdate
  selection : gauge.selection =
    (lastSelected arrives ps).map fun p => (p.address, p.value cedv)
  stored : ∀ p, Stored arrives cedv ps p → word gauge.memory p.address = p.value cedv
  kept : ∀ p, ¬ Stored arrives cedv ps p → word gauge.memory p.address = word memory p.address

theorem write_select (selection : BitVec 16 × BitVec 16) :
    gauge.write delay (commandSelectSubclass :: Gauge.data selection) =
      { gauge with selection := some selection } := by
  rw [Gauge.data, Gauge.write, if_pos rfl, bytes_append, bytes_append]

theorem write_dataSum (h : gauge.inUpdate) (c : Byte) :
    gauge.write delay [commandMACDataSum, c, 6] =
      { gauge with memory := gauge.selection.elim gauge.memory fun selection =>
        if c = getChecksum (Gauge.data selection) then Gauge.store gauge.memory selection
        else gauge.memory } := by
  rw [Gauge.write, if_neg (by decide), if_pos ⟨rfl, h⟩]
  obtain ⟨memory, entering, selection⟩ := gauge
  cases selection with
  | none => rfl
  | some selection =>
    simp only [matches_iff, Option.elim_some]
    split <;> rfl

variable {memory : Memory}

theorem Tracks.setParameter (h : Tracks arrives cedv memory ps gauge) (q : Parameter) :
    Tracks arrives cedv memory (ps ++ [q])
      (setParameterU16 arrives delay q q.address (q.value cedv) gauge).2 := by
  obtain ⟨selected, hselected⟩ : ∃ selected : Gauge, selected =
      (tx arrives delay (.select q) (commandSelectSubclass :: Gauge.data (q.address, q.value cedv))
        gauge).2 := ⟨_, rfl⟩
  have hmemory : selected.memory = gauge.memory ∧ selected.inUpdate ∧ selected.selection =
      (lastSelected arrives (ps ++ [q])).map fun p => (p.address, p.value cedv) := by
    rw [hselected, tx, lastSelected_concat]
    split
    · rw [write_select]
      exact ⟨rfl, h.mode, rfl⟩
    · exact ⟨rfl, h.mode, h.selection⟩
  have hset : (setParameterU16 arrives delay q q.address (q.value cedv) gauge).2 =
      (tx arrives delay (.dataSum q) [commandMACDataSum, checksum cedv q, 6] selected).2 := by
    rw [hselected]
    rfl
  obtain ⟨hkeep, hmode, hselection⟩ := hmemory
  obtain ⟨final, hfinal, hmode', hselection', hnow, hother⟩ : ∃ final : Gauge, final =
      (tx arrives delay (.dataSum q) [commandMACDataSum, checksum cedv q, 6] selected).2 ∧
      final.inUpdate ∧ final.selection = selected.selection ∧
      (∀ p, arrives (.dataSum q) = true ∧ lastSelected arrives (ps ++ [q]) = some p ∧
        checksum cedv q = checksum cedv p → word final.memory p.address = p.value cedv) ∧
      ∀ p, ¬(arrives (.dataSum q) = true ∧ lastSelected arrives (ps ++ [q]) = some p ∧
        checksum cedv q = checksum cedv p) →
          word final.memory p.address = word gauge.memory p.address := by
    refine ⟨_, rfl, ?_⟩
    rw [tx]
    by_cases hsum : arrives (.dataSum q) = true
    · rw [if_pos hsum, write_dataSum hmode, hselection, hkeep]
      refine ⟨hmode, hselection.symm ▸ hselection, ?_, ?_⟩
      · rintro p ⟨-, hlast, hchecksum⟩
        rw [hlast]
        simp only [Option.map_some, Option.elim_some]
        rw [if_pos (show checksum cedv q = getChecksum _ from hchecksum)]
        exact word_store _ _
      · intro p hp
        cases hlast : lastSelected arrives (ps ++ [q]) with
        | none => rfl
        | some r =>
          simp only [Option.map_some, Option.elim_some]
          split
          · next hchecksum =>
            apply word_store_other
            apply address_disjoint
            rintro rfl
            exact hp ⟨hsum, hlast, hchecksum⟩
          · rfl
    · rw [if_neg hsum]
      refine ⟨hmode, rfl, fun p hp => absurd hp.1 hsum, fun p _ => by rw [hkeep]⟩
  rw [hset, ← hfinal]
  refine ⟨hmode', hselection'.trans hselection, ?_, ?_⟩
  · intro p hp
    by_cases hp' : arrives (.dataSum q) = true ∧ lastSelected arrives (ps ++ [q]) = some p ∧
        checksum cedv q = checksum cedv p
    · exact hnow p hp'
    · rw [hother p hp']
      exact h.stored p ((stored_concat.mp hp).resolve_right hp')
  · intro p hp
    rw [stored_concat, not_or] at hp
    rw [hother p hp.2]
    exact h.kept p hp.1

theorem Tracks.setParameters (h : Tracks arrives cedv memory ps gauge) (qs : List Parameter) :
    Tracks arrives cedv memory (ps ++ qs) (setParameters arrives delay cedv qs gauge) := by
  induction qs generalizing ps gauge with
  | nil =>
    rw [List.append_nil]
    exact h
  | cons q qs ih =>
    have hnext : Tracks arrives cedv memory (ps ++ [q] ++ qs)
        (Bq27220.setParameters arrives delay cedv (q :: qs) gauge) := ih (h.setParameter q)
    rwa [List.append_assoc] at hnext

theorem setParameter_outside (h : ¬ gauge.inUpdate) (q : Parameter) :
    ¬ (setParameterU16 arrives delay q q.address (q.value cedv) gauge).2.inUpdate ∧
      (setParameterU16 arrives delay q q.address (q.value cedv) gauge).2.memory = gauge.memory := by
  obtain ⟨selected, hselected⟩ : ∃ selected : Gauge, selected =
      (tx arrives delay (.select q) (commandSelectSubclass :: Gauge.data (q.address, q.value cedv))
        gauge).2 := ⟨_, rfl⟩
  have hselect : ¬ selected.inUpdate ∧ selected.memory = gauge.memory := by
    rw [hselected, tx]
    split
    · rw [write_select]
      exact ⟨h, rfl⟩
    · exact ⟨h, rfl⟩
  have hset : (setParameterU16 arrives delay q q.address (q.value cedv) gauge).2 = selected := by
    have hsum : (setParameterU16 arrives delay q q.address (q.value cedv) gauge).2 =
        (tx arrives delay (.dataSum q) [commandMACDataSum, checksum cedv q, 6] selected).2 := by
      rw [hselected]
      rfl
    rw [hsum, tx]
    split
    · rw [Gauge.write, if_neg (by decide), if_neg fun hboth => hselect.1 hboth.2]
    · rfl
  rw [hset]
  exact hselect

theorem setParameters_outside (h : ¬ gauge.inUpdate) (qs : List Parameter) :
    (setParameters arrives delay cedv qs gauge).memory = gauge.memory := by
  induction qs generalizing gauge with
  | nil => rfl
  | cons q qs ih =>
    obtain ⟨hmode, hmemory⟩ := @setParameter_outside arrives delay cedv gauge h q
    exact (ih hmode).trans hmemory

def Written (arrives : Transfer → Bool) (delay : ℕ) (cedv : ParamCEDV) (p : Parameter) : Prop :=
  delay ≤ 100 ∧ Stored arrives cedv Parameter.all p

/-- The memory at the end of an update: the values that were not lost, and the old ones. -/
theorem memory_update (h : gauge.entering = some delay) (hselection : gauge.selection = none) :
    ∀ p, (Written arrives delay cedv p →
        word (setParameters arrives delay cedv Parameter.all
          (waitForUpdate arrives 100 0 0 gauge)).memory p.address = p.value cedv) ∧
      (¬ Written arrives delay cedv p →
        word (setParameters arrives delay cedv Parameter.all
          (waitForUpdate arrives 100 0 0 gauge)).memory p.address =
            word gauge.memory p.address) := by
  intro p
  obtain ⟨e, hwait, he⟩ := @waitForUpdate_eq arrives gauge 0 delay 0 100 h (by simp)
  rw [hwait]
  by_cases hdelay : delay ≤ 100
  · obtain rfl := he.mpr hdelay
    have htracks : Tracks arrives cedv gauge.memory [] { gauge with entering := some 0 } :=
      ⟨rfl, hselection, by rintro p ⟨before, q, hbefore, -⟩; simp at hbefore, fun p _ => rfl⟩
    have hall := @Tracks.setParameters _ delay _ _ _ _ htracks Parameter.all
    exact ⟨fun hwritten => hall.stored p hwritten.2,
      fun hlost => hall.kept p fun hstored => hlost ⟨hdelay, hstored⟩⟩
  · have hmode : ¬ ({ gauge with entering := some e } : Gauge).inUpdate := by
      intro hmode
      exact hdelay (he.mp (Option.some.inj hmode))
    rw [setParameters_outside hmode]
    exact ⟨fun hwritten => absurd hwritten.1 hdelay, fun _ => rfl⟩

end Update

def Gauge.idle (memory : Memory) : Gauge := ⟨memory, none, none⟩

variable (arrives : Transfer → Bool) (delay : ℕ) (cedv : ParamCEDV) (memory : Memory)

/-- An update that is reported leaves the profile in the memory, and without an update the memory
is left as it is. -/
def UpdatesProfile : Prop :=
  let outcome := bq27220Init arrives delay cedv (.idle memory)
  (outcome.updated = true → outcome.result = true →
    ∀ p : Parameter, word outcome.gauge.memory p.address = p.profile cedv) ∧
  (outcome.updated = false → outcome.gauge.memory = memory)

/-- The design capacity is not that of the profile at first, and is read back as it at the end. -/
def Confirmed : Prop :=
  readWord arrives .firstRead (word memory Parameter.designCapacity.address) ≠ cedv.designCap ∧
  arrives .enter = true ∧
  ∃ back, readWord arrives .lastRead back = cedv.designCap ∧
    (Written arrives delay cedv .designCapacity → back = cedv.designCap) ∧
    (¬ Written arrives delay cedv .designCapacity →
      back = word memory Parameter.designCapacity.address)

/-- A parameter that is written is not the one for which the source writes another, unless they are
equal; a parameter that is lost is in the memory already. -/
def Parameter.Right (p : Parameter) : Prop :=
  (Written arrives delay cedv p → p = .startDOD50 → cedv.dod40 = cedv.dod50) ∧
  (¬ Written arrives delay cedv p → word memory p.address = p.profile cedv)

variable {arrives : Transfer → Bool} {delay : ℕ} {cedv : ParamCEDV} {memory : Memory}
variable {gauge : Gauge} {p : Parameter}

theorem value_eq_profile_iff :
    p.value cedv = p.profile cedv ↔ (p = .startDOD50 → cedv.dod40 = cedv.dod50) := by
  have htc : cedv.tc.setWidth 16 <<< 8 ||| cedv.c1.setWidth 16 = cedv.tc ++ cedv.c1 := by
    apply BitVec.eq_of_getLsbD_eq
    intro i hi
    simp only [BitVec.getLsbD_or, BitVec.getLsbD_shiftLeft, BitVec.getLsbD_setWidth,
      BitVec.getLsbD_append]
    by_cases hlow : i < 8
    · simp [hlow, hi]
    · have hc1 : cedv.c1.getLsbD i = false := BitVec.getLsbD_of_ge _ _ (by omega)
      have hrange : i - 8 < 16 := by omega
      simp [hlow, hi, hc1, hrange]
  cases p <;> simp [Parameter.value, Parameter.profile, htc]

theorem control_enter : bq27220Control arrives delay .enter controlEnterCfgUpdate (.idle memory) =
    if arrives .enter then (true, { Gauge.idle memory with entering := some delay })
    else (false, .idle memory) := rfl

theorem control_exit :
    (bq27220Control arrives delay .exit controlExitCfgUpdate gauge).2.memory = gauge.memory := by
  rw [bq27220Control, tx]
  split <;> rfl

theorem init_skipped (h : cedv.designCap =
      readWord arrives .firstRead (word memory Parameter.designCapacity.address)) :
    bq27220Init arrives delay cedv (.idle memory) = ⟨true, false, .idle memory⟩ := if_pos h

theorem init_refused (h : cedv.designCap ≠
      readWord arrives .firstRead (word memory Parameter.designCapacity.address))
    (henter : arrives .enter = false) :
    bq27220Init arrives delay cedv (.idle memory) = ⟨false, false, .idle memory⟩ := by
  rw [bq27220Init, control_enter, henter]
  exact if_neg h

theorem init_updated (h : cedv.designCap ≠
      readWord arrives .firstRead (word memory Parameter.designCapacity.address))
    (henter : arrives .enter = true) :
    ∃ final : Gauge, bq27220Init arrives delay cedv (.idle memory) =
        ⟨cedv.designCap = readWord arrives .lastRead
          (word final.memory Parameter.designCapacity.address), true, final⟩ ∧
      ∀ p, (Written arrives delay cedv p → word final.memory p.address = p.value cedv) ∧
        (¬ Written arrives delay cedv p → word final.memory p.address = word memory p.address) := by
  obtain ⟨entered, hentered⟩ : ∃ entered : Gauge,
      entered = { Gauge.idle memory with entering := some delay } := ⟨_, rfl⟩
  refine ⟨(bq27220Control arrives delay .exit controlExitCfgUpdate (setParameters arrives delay cedv
    Parameter.all (waitForUpdate arrives 100 0 0 entered))).2, ?_, ?_⟩
  · rw [bq27220Init, control_enter, henter, hentered]
    exact if_neg h
  · rw [control_exit]
    have hidle : entered.selection = none := by rw [hentered]; rfl
    have hupdate := @memory_update arrives delay cedv entered (by rw [hentered]) hidle
    rwa [show entered.memory = memory by rw [hentered]; rfl] at hupdate

theorem confirmed_iff {final : Gauge} (h : cedv.designCap ≠
      readWord arrives .firstRead (word memory Parameter.designCapacity.address))
    (henter : arrives .enter = true)
    (hfinal : ∀ p, (Written arrives delay cedv p → word final.memory p.address = p.value cedv) ∧
      (¬ Written arrives delay cedv p → word final.memory p.address = word memory p.address)) :
    Confirmed arrives delay cedv memory ↔ cedv.designCap =
      readWord arrives .lastRead (word final.memory Parameter.designCapacity.address) := by
  constructor
  · rintro ⟨-, -, back, hback, hwritten, hlost⟩
    have hsame : back = word final.memory Parameter.designCapacity.address := by
      by_cases hw : Written arrives delay cedv .designCapacity
      · exact (hwritten hw).trans ((hfinal _).1 hw).symm
      · exact (hlost hw).trans ((hfinal _).2 hw).symm
    rw [← hsame, hback]
  · intro hback
    exact ⟨Ne.symm h, henter, _, hback.symm, (hfinal .designCapacity).1,
      (hfinal .designCapacity).2⟩

theorem right_iff {final : Gauge}
    (hfinal : (Written arrives delay cedv p → word final.memory p.address = p.value cedv) ∧
      (¬ Written arrives delay cedv p → word final.memory p.address = word memory p.address)) :
    p.Right arrives delay cedv memory ↔ word final.memory p.address = p.profile cedv := by
  by_cases hw : Written arrives delay cedv p
  · rw [hfinal.1 hw, value_eq_profile_iff]
    exact ⟨fun h => h.1 hw, fun h => ⟨fun _ => h, fun hnot => absurd hw hnot⟩⟩
  · rw [hfinal.2 hw]
    exact ⟨fun h => h.2 hw, fun h => ⟨fun hwritten => absurd hwritten hw, fun _ => h⟩⟩

/-- The profile is updated iff every parameter that is lost was there before, and the two values of
which only one is written are equal, wherever the update is reported. -/
theorem init_updates_profile (arrives : Transfer → Bool) (delay : ℕ) (cedv : ParamCEDV)
    (memory : Memory) :
    UpdatesProfile arrives delay cedv memory ↔
      (Confirmed arrives delay cedv memory →
        ∀ p : Parameter, p.Right arrives delay cedv memory) := by
  unfold UpdatesProfile
  by_cases hfirst : cedv.designCap =
      readWord arrives .firstRead (word memory Parameter.designCapacity.address)
  · rw [init_skipped hfirst]
    refine iff_of_true ⟨by rintro ⟨⟩, fun _ => rfl⟩ ?_
    rintro ⟨hne, -⟩
    exact absurd hfirst.symm hne
  cases henter : arrives .enter with
  | false =>
    rw [init_refused hfirst henter]
    refine iff_of_true ⟨by rintro ⟨⟩, fun _ => rfl⟩ ?_
    rintro ⟨-, hentered, -⟩
    exact absurd (henter.symm.trans hentered) Bool.false_ne_true
  | true =>
    obtain ⟨final, hinit, hfinal⟩ := @init_updated arrives delay cedv memory hfirst henter
    rw [hinit, confirmed_iff hfirst henter hfinal]
    simp only [right_iff (hfinal _), decide_eq_true_eq]
    exact ⟨fun h => h.1 trivial, fun h => ⟨fun _ => h, by rintro ⟨⟩⟩⟩

def firmwareProfile : ParamCEDV where
  gaugeConfRaw := 0x0D31
  fullChargeCap := 2100
  designCap := 2100
  edv0 := 3300
  edv1 := 3321
  edv2 := 3355
  emf := 3679
  c0 := 430
  c1 := 0
  r1 := 408
  r0 := 334
  t0 := 4626
  tc := 11
  dod0 := 4044
  dod10 := 3905
  dod20 := 3807
  dod30 := 3718
  dod40 := 3642
  dod50 := 3585
  dod60 := 3546
  dod70 := 3514
  dod80 := 3477
  dod90 := 3411
  dod100 := 3299

/-- With no transfer lost, the update of the firmware's profile to an empty memory is reported,
with the value for half of the charge being that of two fifths. -/
theorem half_charge_is_wrong :
    (bq27220Init (fun _ => true) 0 firmwareProfile (.idle fun _ => 0)).result = true ∧
      (bq27220Init (fun _ => true) 0 firmwareProfile (.idle fun _ => 0)).updated = true ∧
      word (bq27220Init (fun _ => true) 0 firmwareProfile (.idle fun _ => 0)).gauge.memory
        Parameter.startDOD50.address = 3642 ∧
      Parameter.startDOD50.profile firmwareProfile = 3585 := by
  decide +kernel

end FlipperZero.Firmware.Bq27220
