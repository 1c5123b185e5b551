import FlipperZero.Lib.Machine
import Mathlib.Algebra.GroupWithZero.Nat
import Mathlib.Order.Nat

/-! # I2C transfers

A call makes one transfer, or two of them in a row. Each transfer waits for the
BUSY flag to clear, starts the peripheral, and then polls its flags: every ready
flag moves one byte and every SysTick period takes one off the time left. A label
is what one pass of a waiting loop reads; a pass is shorter than a period.
-/

namespace FlipperZero.Firmware.I2c

open Lib

inductive Direction
  | write
  | read
  deriving DecidableEq, Repr

structure Transfer where
  direction : Direction
  address : BitVec 8
  size : BitVec 8
  deriving DecidableEq, Repr

inductive Call
  | tx (address size : BitVec 8)
  | rx (address size : BitVec 8)
  | trx (address tx_size rx_size : BitVec 8)
  deriving DecidableEq, Repr

def Call.transfers : Call → List Transfer
  | .tx address size => [⟨.write, address, size⟩]
  | .rx address size => [⟨.read, address, size⟩]
  | .trx address tx_size rx_size => [⟨.write, address, tx_size⟩, ⟨.read, address, rx_size⟩]

/-- What a pass finds: whether a SysTick period ended since the last one, and the flags. -/
structure Poll where
  tick : Bool
  busy : Bool
  stop : Bool
  ready : Bool
  deriving DecidableEq, Repr

/-- The locals of a transfer whose START was generated; `accessed` lists the offsets of `data`. -/
structure Locals where
  transfer : Transfer
  size : BitVec 8
  time_left : BitVec 32
  accessed : List ℕ
  deriving DecidableEq, Repr

inductive Pc
  | waiting (transfer : Transfer)
  | polling (locals : Locals)
  | returned (ret : Bool)
  deriving DecidableEq, Repr

structure State where
  pc : Pc
  todo : List Transfer
  counter_flag : Bool
  ended : List (Transfer × List ℕ)
  periods : ℕ
  busyPeriods : ℕ
  deriving DecidableEq, Repr

namespace State

/-- A transfer that failed ends the call; the next one starts only after a success. -/
def pcAfter (ret : Bool) : List Transfer → Pc
  | [] => .returned ret
  | transfer :: _ => if ret then .waiting transfer else .returned false

def finish (s : State) (locals : Locals) (ret : Bool) : State :=
  { s with
    pc := pcAfter ret s.todo
    todo := s.todo.tail
    ended := s.ended ++ [(locals.transfer, locals.accessed)] }

def pass (s : State) (poll : Poll) : State :=
  { s with
    counter_flag := s.counter_flag || poll.tick
    periods := s.periods + poll.tick.toNat }

end State

variable (timeout : BitVec 32)

def Locals.start (transfer : Transfer) : Locals := ⟨transfer, transfer.size, timeout, []⟩

def Locals.move (locals : Locals) : Locals :=
  { locals with
    size := locals.size - 1
    time_left := timeout
    accessed := locals.accessed ++ [locals.accessed.length] }

def Locals.moveIf (ready : Bool) (locals : Locals) : Locals :=
  if ready then locals.move timeout else locals

namespace State

/-- The end of a pass of the second loop, which reads and clears COUNTFLAG. -/
def count (s : State) (locals : Locals) : State :=
  if s.counter_flag then
    if locals.time_left - 1 = 0 then { s.finish locals false with counter_flag := false }
    else
      { s with
        pc := .polling { locals with time_left := locals.time_left - 1 }
        counter_flag := false }
  else { s with pc := .polling locals }

def next (s : State) (poll : Poll) : Option State :=
  match s.pc with
  | .waiting transfer => some
      (if poll.busy then
        { s.pass poll with busyPeriods := s.busyPeriods + poll.tick.toNat }
      else { s.pass poll with pc := .polling (.start timeout transfer) })
  | .polling locals => some
      (if poll.stop ∧ locals.size = 0 then (s.pass poll).finish locals true
      else (s.pass poll).count (locals.moveIf timeout poll.ready))
  | .returned _ => none

def init (call : Call) (counter_flag : Bool) : State where
  pc := match call.transfers with
    | transfer :: _ => .waiting transfer
    | [] => .returned true
  todo := call.transfers.tail
  counter_flag
  ended := []
  periods := 0
  busyPeriods := 0

end State

def machine (call : Call) (counter_flag : Bool) : Machine State Poll :=
  ⟨State.init call counter_flag, State.next timeout⟩

namespace State

def locals (s : State) : Option Locals :=
  match s.pc with
  | .polling locals => some locals
  | _ => none

/-- TXIS or RXNE is raised at most `size` times in a transfer. -/
def Raises (s : State) (poll : Poll) : Prop :=
  ∀ locals ∈ s.locals, poll.ready → locals.accessed.length < locals.transfer.size.toNat

instance (s : State) (poll : Poll) : Decidable (s.Raises poll) :=
  inferInstanceAs (Decidable (∀ locals ∈ s.locals, _ → _))

def accesses (s : State) : List (Transfer × List ℕ) :=
  s.ended ++ (s.locals.map fun locals => (locals.transfer, locals.accessed)).toList

end State

def Transfer.whole (transfer : Transfer) : Transfer × List ℕ :=
  (transfer, List.range transfer.size.toNat)

/-- The call ends within the bound, tells the truth and stays inside the buffers. -/
structure State.Meets (call : Call) (bound : ℕ) (s : State) : Prop where
  ends : s.periods ≤ bound
  truth : s.pc = .returned true → s.ended = call.transfers.map Transfer.whole
  inside : ∀ p ∈ s.accesses, ∀ offset ∈ p.2, offset < p.1.size.toNat

def Transfer.allowance (transfer : Transfer) : ℕ :=
  timeout.toNat * (transfer.size.toNat + 1) + 1

def Locals.allowance (locals : Locals) : ℕ :=
  locals.time_left.toNat + timeout.toNat * locals.size.toNat

def allowance (transfers : List Transfer) : ℕ := (transfers.map (Transfer.allowance timeout)).sum

@[simp] theorem allowance_nil : allowance timeout [] = 0 := rfl

@[simp] theorem allowance_cons (transfer : Transfer) (transfers : List Transfer) :
    allowance timeout (transfer :: transfers) =
      transfer.allowance timeout + allowance timeout transfers := rfl

/-- How many periods more the call can last once BUSY is clear. -/
def State.pending (s : State) : ℕ :=
  match s.pc with
  | .waiting transfer => allowance timeout (transfer :: s.todo)
  | .polling locals => locals.allowance timeout + allowance timeout s.todo
  | .returned _ => 0

structure Locals.Sound (locals : Locals) : Prop where
  size : locals.size.toNat ≤ locals.transfer.size.toNat
  accessed : locals.accessed = List.range (locals.transfer.size.toNat - locals.size.toNat)
  time_left : 0 < locals.time_left.toNat

def State.Truthful (call : Call) (s : State) : Prop :=
  match s.pc with
  | .waiting transfer =>
    s.ended ++ (transfer :: s.todo).map Transfer.whole = call.transfers.map Transfer.whole
  | .polling locals =>
    s.ended ++ (locals.transfer :: s.todo).map Transfer.whole = call.transfers.map Transfer.whole
  | .returned ret => ret = true → s.ended = call.transfers.map Transfer.whole

structure State.Sound (call : Call) (s : State) : Prop where
  locals : ∀ locals ∈ s.locals, locals.Sound
  ended : ∀ p ∈ s.ended, ∀ offset ∈ p.2, offset < p.1.size.toNat
  truth : s.Truthful call
  ends : s.periods + s.pending timeout ≤ s.busyPeriods + allowance timeout call.transfers

variable {timeout} {call : Call} {s s' : State} {locals : Locals} {poll : Poll}

theorem Locals.Sound.accessed_length (h : locals.Sound) :
    locals.accessed.length = locals.transfer.size.toNat - locals.size.toNat := by
  simp [h.accessed]

theorem Locals.Sound.inside (h : locals.Sound) :
    ∀ offset ∈ locals.accessed, offset < locals.transfer.size.toNat := by
  intro offset hoffset
  rw [h.accessed, List.mem_range] at hoffset
  omega

theorem Locals.Sound.start (htimeout : 0 < timeout.toNat) (transfer : Transfer) :
    (Locals.start timeout transfer).Sound where
  size := le_rfl
  accessed := by simp [Locals.start]
  time_left := htimeout

theorem toNat_pred {w : ℕ} {n : BitVec w} (h : 0 < n.toNat) : (n - 1).toNat = n.toNat - 1 := by
  have hone : (1 : BitVec w).toNat ≤ 1 := by simpa using Nat.mod_le 1 (2 ^ w)
  rcases w with - | w
  · have := n.isLt
    omega
  · have : (1 : BitVec (w + 1)).toNat = 1 := by simp
    rw [BitVec.toNat_sub_of_le (by rw [BitVec.le_def]; omega), this]

theorem Locals.Sound.moveIf (h : locals.Sound) (htimeout : 0 < timeout.toNat)
    (hraise : poll.ready → locals.accessed.length < locals.transfer.size.toNat) :
    (locals.moveIf timeout poll.ready).Sound ∧
      (locals.moveIf timeout poll.ready).transfer = locals.transfer ∧
      (locals.moveIf timeout poll.ready).allowance timeout ≤ locals.allowance timeout := by
  unfold Locals.moveIf
  split
  · next hready =>
    have hlt := hraise hready
    rw [h.accessed_length] at hlt
    have hsize := h.size
    have hpos : 0 < locals.size.toNat := by omega
    have hpred := toNat_pred hpos
    refine ⟨⟨?_, ?_, htimeout⟩, rfl, ?_⟩
    · simp only [Locals.move, hpred]
      omega
    · simp only [Locals.move, hpred, h.accessed_length]
      rw [show locals.transfer.size.toNat - (locals.size.toNat - 1) =
        locals.transfer.size.toNat - locals.size.toNat + 1 by omega, List.range_succ, h.accessed]
    · have : timeout.toNat * locals.size.toNat =
          timeout.toNat * (locals.size.toNat - 1) + timeout.toNat := by
        rw [← Nat.mul_succ]
        congr 1
        omega
      simp only [Locals.allowance, Locals.move, hpred]
      omega
  · exact ⟨h, rfl, le_rfl⟩

namespace State

theorem locals_eq (hpc : s.pc = .polling locals) : s.locals = some locals := by
  simp [State.locals, hpc]

theorem Sound.init (call : Call) (counter_flag : Bool) :
    (State.init call counter_flag).Sound timeout call := by
  cases call
  all_goals
    constructor
    · rintro locals ⟨⟩
    · rintro p ⟨⟩
    · rfl
    · exact le_rfl

theorem Sound.finish {ret : Bool} (hlocals : locals.Sound) (hwhole : ret = true → locals.size = 0)
    (hended : ∀ p ∈ s.ended, ∀ offset ∈ p.2, offset < p.1.size.toNat)
    (htruth : s.ended ++ (locals.transfer :: s.todo).map Transfer.whole =
      call.transfers.map Transfer.whole)
    (hends : s.periods + allowance timeout s.todo ≤
      s.busyPeriods + allowance timeout call.transfers) :
    (s.finish locals ret).Sound timeout call := by
  have hall : ∀ p ∈ (s.finish locals ret).ended, ∀ offset ∈ p.2, offset < p.1.size.toNat := by
    intro p hp
    rcases List.mem_append.mp hp with hp | hp
    · exact hended p hp
    · rcases List.mem_singleton.mp hp with rfl
      exact hlocals.inside
  have hlast : ret = true → (locals.transfer, locals.accessed) = locals.transfer.whole := by
    intro hret
    rw [hlocals.accessed, hwhole hret]
    rfl
  cases htodo : s.todo with
  | nil =>
    rw [htodo] at htruth hends
    have hpc : (s.finish locals ret).pc = .returned ret := by simp [State.finish, htodo, pcAfter]
    refine ⟨?_, hall, ?_, ?_⟩
    · simp [State.locals, hpc]
    · simp only [Truthful, hpc]
      intro hret
      rw [← htruth, State.finish, hlast hret]
      rfl
    · simp only [State.pending, hpc]
      exact Nat.le_trans (Nat.le_add_right _ _) hends
  | cons transfer todo =>
    rw [htodo] at htruth hends
    cases ret with
    | true =>
      have hpc : (s.finish locals true).pc = .waiting transfer := by
        simp [State.finish, htodo, pcAfter]
      refine ⟨?_, hall, ?_, ?_⟩
      · simp [State.locals, hpc]
      · simp only [Truthful, hpc]
        rw [← htruth, State.finish, hlast rfl, htodo, List.append_assoc]
        rfl
      · simp only [State.pending, hpc]
        simpa only [State.finish, htodo, List.tail_cons] using hends
    | false =>
      have hpc : (s.finish locals false).pc = .returned false := by
        simp [State.finish, htodo, pcAfter]
      refine ⟨?_, hall, ?_, ?_⟩
      · simp [State.locals, hpc]
      · simp [Truthful, hpc]
      · simp only [State.pending, hpc]
        exact Nat.le_trans (Nat.le_add_right _ _) hends

theorem Sound.count (hlocals : locals.Sound)
    (hended : ∀ p ∈ s.ended, ∀ offset ∈ p.2, offset < p.1.size.toNat)
    (htruth : s.ended ++ (locals.transfer :: s.todo).map Transfer.whole =
      call.transfers.map Transfer.whole)
    (hends : s.periods + locals.allowance timeout + allowance timeout s.todo ≤
      s.busyPeriods + allowance timeout call.transfers + s.counter_flag.toNat) :
    (s.count locals).Sound timeout call := by
  have hpos := hlocals.time_left
  simp only [Locals.allowance] at hends
  unfold State.count
  split
  · next hflag =>
    rw [hflag, Bool.toNat_true] at hends
    have hpred := toNat_pred hpos
    split
    · have hwhole : false = true → locals.size = 0 := by rintro ⟨⟩
      have h := Sound.finish hlocals hwhole hended htruth
        (by omega : s.periods + allowance timeout s.todo ≤ _)
      exact ⟨h.locals, h.ended, h.truth, h.ends⟩
    · next hleft =>
      have hleft : 0 < (locals.time_left - 1).toNat := by
        apply Nat.pos_of_ne_zero
        intro hzero
        exact hleft (BitVec.eq_of_toNat_eq hzero)
      refine ⟨?_, hended, htruth, ?_⟩
      · rintro _ ⟨⟩
        exact ⟨hlocals.size, hlocals.accessed, hleft⟩
      · simp only [State.pending, Locals.allowance, hpred]
        omega
  · next hflag =>
    rw [Bool.not_eq_true] at hflag
    rw [hflag, Bool.toNat_false] at hends
    refine ⟨?_, hended, htruth, ?_⟩
    · rintro _ ⟨⟩
      exact hlocals
    · simp only [State.pending, Locals.allowance]
      omega

theorem Sound.next (h : s.Sound timeout call) (htimeout : 0 < timeout.toNat)
    (hraises : s.Raises poll) (hs : s.next timeout poll = some s') : s'.Sound timeout call := by
  have htick : poll.tick.toNat ≤ 1 := Bool.toNat_le poll.tick
  have hends := h.ends
  have htruth := h.truth
  unfold State.next at hs
  cases hpc : s.pc with
  | waiting transfer =>
    simp only [hpc, Option.some.injEq] at hs
    simp only [State.pending, hpc, allowance_cons] at hends
    simp only [Truthful, hpc] at htruth
    subst hs
    split
    · refine ⟨?_, h.ended, ?_, ?_⟩
      · simp [State.locals, State.pass, hpc]
      · simpa only [Truthful, State.pass, hpc] using htruth
      · simp only [State.pending, State.pass, hpc, allowance_cons]
        omega
    · refine ⟨?_, h.ended, htruth, ?_⟩
      · rintro _ ⟨⟩
        exact .start htimeout transfer
      · have hmul : timeout.toNat * (transfer.size.toNat + 1) =
            timeout.toNat * transfer.size.toNat + timeout.toNat := Nat.mul_succ _ _
        simp only [Transfer.allowance, hmul] at hends
        simp only [State.pending, State.pass, Locals.allowance, Locals.start]
        omega
  | polling locals =>
    have hlocals := h.locals locals (locals_eq hpc)
    have hpos := hlocals.time_left
    simp only [hpc, Option.some.injEq] at hs
    simp only [State.pending, hpc] at hends
    simp only [Truthful, hpc] at htruth
    subst hs
    split
    · next hexit =>
      apply Sound.finish (s := s.pass poll) hlocals (fun _ => hexit.2) h.ended htruth
      simp only [Locals.allowance] at hends
      simp only [State.pass]
      omega
    · obtain ⟨hmoved, htransfer, hle⟩ :=
        hlocals.moveIf htimeout (hraises locals (locals_eq hpc))
      apply Sound.count (s := s.pass poll) hmoved h.ended
      · rw [htransfer]
        exact htruth
      · have hflag : poll.tick.toNat ≤ (s.counter_flag || poll.tick).toNat := by
          cases poll.tick <;> simp
        simp only [State.pass]
        omega
  | returned ret => simp [hpc] at hs

theorem Sound.meets {bound : ℕ} (h : s.Sound timeout call) (hbound : s.busyPeriods ≤ bound) :
    s.Meets call (bound + allowance timeout call.transfers) := by
  refine ⟨?_, ?_, ?_⟩
  · have := h.ends
    omega
  · intro hret
    have := h.truth
    simp only [Truthful, hret] at this
    exact this trivial
  · intro p hp
    rcases List.mem_append.mp hp with hp | hp
    · exact h.ended p hp
    · rw [Option.mem_toList, Option.map_eq_some_iff] at hp
      obtain ⟨locals, hlocals, rfl⟩ := hp
      exact (h.locals locals hlocals).inside

/-- Every step counts its period, and only a pass that finds BUSY set counts it as such. -/
theorem periods_next (hs : s.next timeout poll = some s') :
    s'.periods = s.periods + poll.tick.toNat ∧
      s'.busyPeriods ≤ s.busyPeriods + (poll.busy && poll.tick).toNat := by
  unfold State.next at hs
  cases hpc : s.pc with
  | waiting transfer =>
    simp only [hpc, Option.some.injEq] at hs
    subst hs
    split
    · next hbusy =>
      rw [hbusy, Bool.true_and]
      exact ⟨rfl, le_rfl⟩
    · exact ⟨rfl, Nat.le_add_right _ _⟩
  | polling locals =>
    simp only [hpc, Option.some.injEq] at hs
    subst hs
    split
    · exact ⟨rfl, Nat.le_add_right _ _⟩
    · unfold State.count
      split <;> try split
      all_goals exact ⟨rfl, Nat.le_add_right _ _⟩
  | returned ret => simp [hpc] at hs

end State

open Machine

theorem meets_of_reachable {counter_flag : Bool} {bound : ℕ} (htimeout : 0 < timeout.toNat)
    (hreach : (machine timeout call counter_flag).ReachableWith State.Raises s)
    (hbound : s.busyPeriods ≤ bound) :
    s.Meets call (bound + allowance timeout call.transfers) := by
  apply State.Sound.meets _ hbound
  apply hreach.invariant (State.Sound.init call counter_flag)
  intro s poll s' h hraises hs
  exact h.next htimeout hraises hs

theorem busyPeriods_le_periods {counter_flag : Bool}
    (hreach : (machine timeout call counter_flag).Reachable s) : s.busyPeriods ≤ s.periods := by
  apply Reachable.invariant (P := fun s => s.busyPeriods ≤ s.periods) _ _ hreach
  · exact le_rfl
  · intro s poll s' h hs
    obtain ⟨hperiods, hbusy⟩ := State.periods_next hs
    have htick : (poll.busy && poll.tick).toNat ≤ poll.tick.toNat := by
      cases poll.busy <;> simp
    omega

/-- A call ends in bounded time exactly where BUSY is known to clear in bounded time. -/
theorem transfers_end_iff_busy_clears {ok : State → Poll → Prop} (htimeout : 1 ≤ timeout.toNat)
    (hok : ∀ s poll, ok s poll → s.Raises poll) :
    (∃ bound, ∀ counter_flag s, (machine timeout call counter_flag).ReachableWith ok s →
      s.Meets call bound) ↔
    ∃ bound, ∀ counter_flag s, (machine timeout call counter_flag).ReachableWith ok s →
      s.busyPeriods ≤ bound := by
  constructor
  · rintro ⟨bound, hmeets⟩
    refine ⟨bound, ?_⟩
    intro counter_flag s hreach
    exact Nat.le_trans (busyPeriods_le_periods hreach.reachable) (hmeets counter_flag s hreach).ends
  · rintro ⟨bound, hbusy⟩
    refine ⟨bound + allowance timeout call.transfers, ?_⟩
    intro counter_flag s hreach
    exact meets_of_reachable htimeout (hreach.mono hok) (hbusy counter_flag s hreach)

/-- BUSY is read clear whenever three periods have ended in the wait for it. -/
def ClearsInTime (s : State) (poll : Poll) : Prop :=
  s.Raises poll ∧ (s.busyPeriods < 3 ∨ poll.busy = false)

theorem transfers_end_when_busy_clears_in_time :
    ∃ bound, ∀ counter_flag s,
      (machine 50 (.trx 0xAA 1 2) counter_flag).ReachableWith ClearsInTime s →
        s.Meets (.trx 0xAA 1 2) bound := by
  apply (transfers_end_iff_busy_clears (by decide) (fun _ _ h => h.1)).mpr
  refine ⟨3, ?_⟩
  intro counter_flag s hreach
  apply hreach.invariant (P := fun s => s.busyPeriods ≤ 3)
  · exact Nat.zero_le 3
  · intro s poll s' h hclears hs
    obtain ⟨-, hbusy⟩ := State.periods_next hs
    have htick : (poll.busy && poll.tick).toNat ≤ 1 := Bool.toNat_le _
    rcases hclears.2 with hlt | hclear
    · omega
    · rw [hclear, Bool.false_and] at hbusy
      exact Nat.le_trans hbusy h

theorem busy_reachable (periods : ℕ) :
    (machine 50 (.tx 0xAA 1) false).ReachableWith State.Raises
      ⟨.waiting ⟨.write, 0xAA, 1⟩, [], decide (0 < periods), [], periods, periods⟩ := by
  induction periods with
  | zero => exact .init
  | succ periods ih =>
    apply ih.step (l := ⟨true, true, false, false⟩)
    · rintro locals ⟨⟩
    · simp [machine, State.next, State.pass]

theorem busy_bus_outlasts_every_bound :
    ¬∃ bound, ∀ counter_flag s,
      (machine 50 (.tx 0xAA 1) counter_flag).ReachableWith State.Raises s →
        s.Meets (.tx 0xAA 1) bound := by
  rintro ⟨bound, hmeets⟩
  have h := hmeets false _ (busy_reachable (bound + 1))
  exact absurd h.ends (Nat.not_succ_le_self bound)

end FlipperZero.Firmware.I2c
