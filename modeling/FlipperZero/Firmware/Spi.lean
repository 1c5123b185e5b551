import FlipperZero.Lib.Monitor

/-! # The SPI buses

The devices of a bus share its lines and differ in their chip select and in the configuration of the
bus. A thread locks the bus, configures it for its device, and writes the chip select of the device
around its transfers until it gives the bus back. Every chip select is raised before the buses are
used but the one of the SD card, which its first session raises. The driver of the SD card also
clocks bytes with the chip select high.
-/

namespace FlipperZero.Firmware.Spi

open Lib

inductive ApiHalSpiBus where
  | spiR
  | spiD
deriving DecidableEq, Repr

inductive ApiHalSpiDeviceId where
  | subGhz
  | display
  | sdCardFast
  | sdCardSlow
  | nfc
deriving DecidableEq, Repr

inductive ChipSelect where
  | subghz
  | display
  | sdcard
  | nfc
deriving DecidableEq, Repr

/-- The fields of `SPI_InitTypeDef` in which the configurations differ. -/
structure SpiInit where
  clkPhase : ℕ
  baudRatePrescaler : ℕ
  nssPulse : Bool
deriving DecidableEq, Repr

structure ApiHalSpiDevice where
  bus : ApiHalSpiBus
  config : SpiInit
  chipSelect : ChipSelect
deriving DecidableEq, Repr

def apiHalSpiDevices : ApiHalSpiDeviceId → ApiHalSpiDevice
  | .subGhz => ⟨.spiR, ⟨1, 8, false⟩, .subghz⟩
  | .display => ⟨.spiD, ⟨1, 16, true⟩, .display⟩
  | .sdCardFast => ⟨.spiD, ⟨1, 2, true⟩, .sdcard⟩
  | .sdCardSlow => ⟨.spiD, ⟨1, 32, true⟩, .sdcard⟩
  | .nfc => ⟨.spiR, ⟨2, 8, false⟩, .nfc⟩

/-- What a thread does between taking a device and giving it back. -/
inductive Action (B : Type) where
  | chipSelect (level : Bool)
  | trx (data : B)
deriving DecidableEq, Repr

variable {bus : ApiHalSpiBus} {B θ : Type}

def Action.isChipSelect : Action B → Bool
  | .chipSelect _ => true
  | .trx _ => false

/-- The level of the chip select after some actions. -/
def levelAfter : Bool → List (Action B) → Bool
  | level, [] => level
  | _, .chipSelect level :: actions => levelAfter level actions
  | level, .trx _ :: actions => levelAfter level actions

/-- The use of a device, which leaves its chip select high if it writes it. -/
structure Session (bus : ApiHalSpiBus) (B : Type) where
  device : ApiHalSpiDeviceId
  onBus : (apiHalSpiDevices device).bus = bus
  actions : List (Action B)
  raised : levelAfter true actions = true

structure Lines where
  init : Option SpiInit
  /-- The level of each chip select. -/
  level : ChipSelect → Bool

/-- Where a thread is that has locked the bus. -/
inductive Pc (bus : ApiHalSpiBus) (B : Type) where
  | configure (session : Session bus B)
  | working (session : Session bus B) (actions : List (Action B))

/-- A transfer with the state of the bus during it. -/
structure Transfer (B : Type) where
  init : Option SpiInit
  level : ChipSelect → Bool
  data : B

def Session.chipSelect (session : Session bus B) : ChipSelect :=
  (apiHalSpiDevices session.device).chipSelect

def Session.config (session : Session bus B) : SpiInit := (apiHalSpiDevices session.device).config

def halGpioWrite (lines : Lines) (pin : ChipSelect) (level : Bool) : Lines :=
  { lines with level := Function.update lines.level pin level }

def work : Pc bus B → Lines → Lines × List (Transfer B) × (Pc bus B ⊕ Unit)
  | .configure session, lines =>
    ({ lines with init := some session.config }, [], .inl (.working session session.actions))
  | .working session (.chipSelect level :: actions), lines =>
    (halGpioWrite lines session.chipSelect level, [], .inl (.working session actions))
  | .working session (.trx data :: actions), lines =>
    (lines, [⟨lines.init, lines.level, data⟩], .inl (.working session actions))
  | .working _ [], lines => (lines, [], .inr ())

def resting (sdRaised : Bool) (pin : ChipSelect) : Bool := sdRaised || decide (pin ≠ .sdcard)

/-- The threads that use one bus. The chip select of the SD card belongs to the display's bus. -/
def spiBus (bus : ApiHalSpiBus) (B θ : Type) :
    Monitor θ Lines (Session bus B) (Pc bus B) (Transfer B) Unit where
  init := ⟨none, resting (decide (bus = .spiR))⟩
  enter _ session _ := .configure session
  work := work

/-- The chip selects in a session that has set its own to a level. -/
def Session.levels (session : Session bus B) (sdRaised level : Bool) : ChipSelect → Bool :=
  Function.update (resting sdRaised) session.chipSelect level

def Session.transfersFrom (session : Session bus B) (sdRaised : Bool) :
    Bool → List (Action B) → List (Transfer B)
  | _, [] => []
  | _, .chipSelect level :: actions => session.transfersFrom sdRaised level actions
  | level, .trx data :: actions =>
    ⟨some session.config, session.levels sdRaised level, data⟩ ::
      session.transfersFrom sdRaised level actions

def Session.transfers (session : Session bus B) (sdRaised : Bool) : List (Transfer B) :=
  session.transfersFrom sdRaised (resting sdRaised session.chipSelect) session.actions

def Session.raisesSd (session : Session bus B) : Bool :=
  decide (session.chipSelect = .sdcard) && session.actions.any Action.isChipSelect

abbrev Seen (bus : ApiHalSpiBus) (B θ : Type) :=
  Monitor.Observed θ (Session bus B) (Transfer B) Unit

def raisesSd : Seen bus B θ → Bool
  | .emit _ _ => false
  | .ret _ session _ => session.raisesSd

/-- Whether the chip select of the SD card is high after the sessions seen, if it is on the bus. -/
def sdRaised (seen : List (Seen bus B θ)) : Bool := decide (bus = .spiR) || seen.any raisesSd

variable {s s' : Lines} {es : List (Transfer B)} {k : Pc bus B} {t : θ} {session : Session bus B}
  {c : Monitor.Call θ (Session bus B) (Transfer B) Unit} {level sd : Bool}
  {cs : List (Monitor.Call θ (Session bus B) (Transfer B) Unit)} {actions done : List (Action B)}

theorem levelAfter_append (done actions : List (Action B)) (level : Bool) :
    levelAfter level (done ++ actions) = levelAfter (levelAfter level done) actions := by
  induction done generalizing level with
  | nil => rfl
  | cons action done ih => cases action <;> exact ih _

theorem levelAfter_eq (actions : List (Action B)) (level : Bool) :
    levelAfter level actions =
      if actions.any Action.isChipSelect then levelAfter true actions else level := by
  induction actions generalizing level with
  | nil => rfl
  | cons action actions ih =>
    cases action with
    | chipSelect level' => simp [levelAfter, Action.isChipSelect]
    | trx data => simpa [levelAfter, Action.isChipSelect] using ih level

theorem Session.transfersFrom_append (session : Session bus B) (sd : Bool)
    (done actions : List (Action B)) (level : Bool) :
    session.transfersFrom sd level (done ++ actions) = session.transfersFrom sd level done ++
      session.transfersFrom sd (levelAfter level done) actions := by
  induction done generalizing level with
  | nil => rfl
  | cons action done ih =>
    cases action with
    | chipSelect level' => exact ih level'
    | trx data => exact congrArg (_ :: ·) (ih level)

theorem Session.mem_transfersFrom {e : Transfer B}
    (h : e ∈ session.transfersFrom sd level actions) :
    e.init = some session.config ∧ ∃ level, e.level = session.levels sd level := by
  induction actions generalizing level with
  | nil => cases h
  | cons action actions ih =>
    cases action with
    | chipSelect level' => exact ih h
    | trx data =>
      rcases List.mem_cons.mp h with rfl | h
      · exact ⟨rfl, level, rfl⟩
      · exact ih h

theorem eq_of_levels {pin : ChipSelect} (h : session.levels sd level pin = false) :
    pin = session.chipSelect ∨ pin = .sdcard ∧ sd = false := by
  by_cases hpin : pin = session.chipSelect
  · exact .inl hpin
  · rw [Session.levels, Function.update_of_ne hpin] at h
    cases sd with
    | false => simpa [resting, hpin] using h
    | true => cases h

theorem levels_levelAfter (session : Session bus B) (sd : Bool) :
    session.levels sd (levelAfter (resting sd session.chipSelect) session.actions) =
      resting (sd || session.raisesSd) := by
  ext pin
  rw [Session.levels, levelAfter_eq, session.raised]
  by_cases hpin : pin = session.chipSelect
  · subst hpin
    by_cases hsd : session.chipSelect = .sdcard <;>
      cases hany : session.actions.any Action.isChipSelect <;>
        simp [resting, Session.raisesSd, hsd, hany]
  · rw [Function.update_of_ne hpin]
    by_cases hsd : session.chipSelect = .sdcard
    · simp [resting, show pin ≠ .sdcard from hsd ▸ hpin]
    · simp [Session.raisesSd, hsd]

/-- How far a session is, with the transfers so far. -/
inductive Progress (session : Session bus B) (sd : Bool) :
    Lines → List (Transfer B) → Pc bus B → Prop
  | configure {init : Option SpiInit} :
      Progress session sd ⟨init, resting sd⟩ [] (.configure session)
  | working {done actions : List (Action B)} (h : session.actions = done ++ actions) :
      Progress session sd
        ⟨some session.config,
          session.levels sd (levelAfter (resting sd session.chipSelect) done)⟩
        (session.transfersFrom sd (resting sd session.chipSelect) done) (.working session actions)

theorem Progress.work (h : Progress session sd s es k) {es' : List (Transfer B)} {k' : Pc bus B}
    (hw : work k s = (s', es', .inl k')) : Progress session sd s' (es ++ es') k' := by
  cases h with
  | configure =>
    cases hw
    have hnext : session.actions = [] ++ session.actions := rfl
    have hlevels : session.levels sd (resting sd session.chipSelect) = resting sd :=
      Function.update_eq_self _ _
    have hprogress : Progress session sd _ _ _ := .working hnext
    simpa [levelAfter, hlevels, Session.transfersFrom] using hprogress
  | @working done actions hactions =>
    cases actions with
    | nil => cases hw
    | cons action actions =>
      have hnext : session.actions = done ++ [action] ++ actions := by simp [hactions]
      have hprogress : Progress session sd _ _ _ := .working hnext
      rw [levelAfter_append, Session.transfersFrom_append] at hprogress
      cases action with
      | chipSelect level =>
        cases hw
        simpa [halGpioWrite, Session.levels, levelAfter, Session.transfersFrom] using hprogress
      | trx data =>
        cases hw
        simpa [levelAfter, Session.transfersFrom] using hprogress

theorem progress_of_works {init : Option SpiInit}
    (h : (spiBus bus B θ).Works (.configure session) ⟨init, resting sd⟩ es k s') :
    Progress session sd s' es k := by
  generalize hs : (⟨init, resting sd⟩ : Lines) = s₀ at h
  induction h with
  | refl =>
    subst hs
    exact .configure
  | step _ hw ih => exact (ih hs).work hw

theorem transfers_of_completes (hs : s.level = resting sd)
    (h : (spiBus bus B θ).Completes s c s') :
    c.events = c.op.transfers sd ∧ s'.level = resting (sd || c.op.raisesSd) := by
  obtain ⟨t, session, events, result⟩ := c
  obtain ⟨init, level⟩ := s
  dsimp only at hs
  subst hs
  obtain ⟨hworks, hend, hes⟩ := h
  cases progress_of_works hworks with
  | configure => cases hend
  | @working done actions hactions =>
    cases actions with
    | nil =>
      cases hend
      rw [List.append_nil] at hactions hes
      subst hactions
      exact ⟨hes, levels_levelAfter session sd⟩
    | cons action actions => cases action <;> cases hend

theorem sdRaised_observed (l : List (Seen bus B θ))
    (c : Monitor.Call θ (Session bus B) (Transfer B) Unit) :
    sdRaised (l ++ c.observed) = (sdRaised l || c.op.raisesSd) := by
  have hemits : (c.events.map (.emit c.thread)).any (raisesSd : Seen bus B θ → Bool) = false := by
    rw [List.any_map, List.any_eq_false]
    exact fun _ _ => Bool.false_ne_true
  rw [sdRaised, Monitor.Call.observed, List.any_append, List.any_append, hemits]
  simp [sdRaised, raisesSd, Bool.or_assoc]

theorem level_of_serial (h : (spiBus bus B θ).Serial cs s) :
    s.level = resting (sdRaised (cs.flatMap Monitor.Call.observed)) := by
  induction h with
  | nil => simp [spiBus, sdRaised]
  | snoc h hc ih =>
    rw [(transfers_of_completes ih hc).2]
    simp [sdRaised_observed]

theorem transfers_of_emits (hs : s.level = resting sd)
    (h : (spiBus bus B θ).Emits s t session es) : es <+: session.transfers sd := by
  obtain ⟨init, level⟩ := s
  dsimp only at hs
  subst hs
  rcases h with ⟨k, s', hworks⟩ | ⟨c, s', hc, rfl, rfl, rfl⟩
  · cases progress_of_works hworks with
    | configure => exact List.nil_prefix
    | @working done actions hactions =>
      rw [Session.transfers, hactions, Session.transfersFrom_append]
      exact List.prefix_append _ _
  · have heq := (transfers_of_completes rfl hc).1
    exact heq ▸ List.prefix_refl _

abbrev State (bus : ApiHalSpiBus) (B θ : Type) :=
  Monitor.State θ Lines (Session bus B) (Pc bus B) (Transfer B) Unit

variable [DecidableEq θ] {st : State bus B θ}

/-- Whatever the threads do, the transfers of a session follow one another on the bus, with the
configuration of its device and with no chip select low but that of the device, or that of the SD
card while no session has raised it, and a session that gives the bus back has made all of them. -/
theorem transfers_exclusive (h : (spiBus bus B θ).machine.Reachable st)
    (seen rest : List (Seen bus B θ)) :
    (∀ t session r, st.trace = seen ++ .ret t session r :: rest → ∃ before,
      seen = before ++ (session.transfers (sdRaised before)).map (.emit t)) ∧
    ∀ t e, st.trace = seen ++ .emit t e :: rest → ∃ (session : Session bus B) (before : List _)
      (done more : List (Transfer B)), session.transfers (sdRaised before) = done ++ e :: more ∧
        seen = before ++ done.map (.emit t) ∧ e.init = some session.config ∧
          ∀ pin, e.level pin = false →
            pin = session.chipSelect ∨ pin = .sdcard ∧ sdRaised before = false := by
  refine ⟨?_, ?_⟩
  · intro t session r hx
    obtain ⟨cs, s, hserial, ⟨_, _, _, _, _, ⟨⟩, -⟩ | ⟨c, s', hc, heq, hseen⟩⟩ :=
      Monitor.explained_at h hx
    obtain ⟨rfl, rfl, rfl⟩ := by simpa using heq
    rw [(transfers_of_completes (level_of_serial hserial) hc).1] at hseen
    exact ⟨_, hseen⟩
  · intro t e hx
    obtain ⟨cs, s, hserial, ⟨t', session, e', es, es', heq, hemits, hseen⟩ | ⟨_, _, _, ⟨⟩, -⟩⟩ :=
      Monitor.explained_at h hx
    obtain ⟨rfl, rfl⟩ := by simpa using heq
    obtain ⟨more, hmore⟩ := transfers_of_emits (level_of_serial hserial) hemits
    rw [List.append_assoc, List.cons_append] at hmore
    have hmem := List.mem_append_right es (List.mem_cons_self (a := e) (l := es' ++ more))
    rw [hmore] at hmem
    obtain ⟨hinit, level, hlevel⟩ := Session.mem_transfersFrom hmem
    refine ⟨session, _, es, es' ++ more, hmore.symm, hseen, hinit, fun pin hpin => ?_⟩
    rw [hlevel] at hpin
    exact eq_of_levels hpin

section Run

def drawing : Session .spiD ℕ :=
  ⟨.display, rfl, [.chipSelect false, .trx 1, .trx 2, .chipSelect true], rfl⟩

def initCard : Session .spiD ℕ := ⟨.sdCardSlow, rfl, [.chipSelect true, .trx 3], rfl⟩

/-- A thread draws while another waits to start the SD card. -/
theorem transfers_exclusive_drawing : ∃ (st : State .spiD ℕ ℕ) (e : Transfer ℕ),
    (spiBus .spiD ℕ ℕ).machine.Reachable st ∧ st.trace = [.emit 0 e] ∧ e.level .sdcard = false ∧
    ∃ (session : Session .spiD ℕ) (before : List _) (done more : List (Transfer ℕ)),
      session.transfers (sdRaised before) = done ++ e :: more ∧
        ([] : List (Seen .spiD ℕ ℕ)) = before ++ done.map (.emit 0) ∧
          e.init = some session.config ∧ ∀ pin, e.level pin = false →
            pin = session.chipSelect ∨ pin = .sdcard ∧ sdRaised before = false := by
  let labels : List (Monitor.Label ℕ (Session .spiD ℕ)) :=
    [.call 0 drawing, .call 1 initCard, .acquire 0, .work 0, .work 0, .work 0]
  obtain ⟨st, e, hexec, htrace, hsd⟩ : ∃ (st : State .spiD ℕ ℕ) (e : Transfer ℕ),
      (spiBus .spiD ℕ ℕ).machine.exec (spiBus .spiD ℕ ℕ).machine.init labels = some st ∧
      st.trace = [.emit 0 e] ∧ e.level .sdcard = false := ⟨_, _, rfl, rfl, rfl⟩
  have hreach := Machine.exec_reachable .init hexec
  exact ⟨st, e, hreach, htrace, hsd, (transfers_exclusive hreach [] []).2 0 e htrace⟩

end Run

end FlipperZero.Firmware.Spi
