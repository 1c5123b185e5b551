import FlipperZero.Lib.RunLength
import Mathlib.Algebra.GroupWithZero.Nat
import Mathlib.Data.Bool.Basic
import Mathlib.Data.Vector.Defs

/-! # The pulse joiner

The joiner turns the pulses of an encoder into pulses of the timer, which always begin
high. It buffers the halves of the pushed pulses and gives the first two runs away once
the third has begun. Checks that fail and accesses outside the buffer yield `none`.
-/

namespace FlipperZero.LfRfid

open Lib

structure Pulse where
  polarity : Bool
  time : ℕ

/-- The arguments of one call of `push_pulse`. -/
structure PushPulse where
  polarity : Bool
  period : ℕ
  pulse : ℕ

/-- The results of one call of `pop_pulse`. -/
structure PopPulse where
  period : ℕ
  pulse : ℕ

def pulseMax : ℕ := 6

structure PulseJoiner where
  pulseIndex : ℕ
  pulses : Vector Pulse pulseMax

namespace PulseJoiner

def init : PulseJoiner := ⟨0, .replicate pulseMax ⟨false, 0⟩⟩

def write (s : PulseJoiner) (polarity : Bool) (time : ℕ) : Option PulseJoiner :=
  if h : s.pulseIndex < pulseMax then
    some ⟨s.pulseIndex + 1, s.pulses.set s.pulseIndex ⟨polarity, time⟩⟩
  else none

def edgesCount : Bool → List Pulse → ℕ
  | _, [] => 0
  | lastPolarity, p :: ps =>
    if p.polarity ≠ lastPolarity then edgesCount p.polarity ps + 1 else edgesCount lastPolarity ps

def pushResult (s : PulseJoiner) : Bool :=
  if s.pulseIndex ≥ 4 then
    edgesCount s.pulses[0].polarity ((s.pulses.toList.take s.pulseIndex).drop 1) ≥ 2
  else false

def pushPulse (s : PulseJoiner) (c : PushPulse) : Option (Bool × PulseJoiner) :=
  if s.pulseIndex + 1 < pulseMax then
    (if c.polarity = false ∧ s.pulseIndex = 0 then some s
      else s.write c.polarity c.pulse).bind fun s =>
    (if c.period > c.pulse then s.write (!c.polarity) (c.period - c.pulse)
      else some s).map fun s => (s.pushResult, s)
  else none

structure PopState where
  tmpPeriod : ℕ
  tmpPulse : ℕ
  pulseIndex : ℕ
  nextFirstPulse : ℕ

def PopState.add (s : PopState) (p : Pulse) : PopState :=
  { s with
    tmpPeriod := (s.tmpPeriod + p.time) % 2 ^ 16
    tmpPulse := if p.polarity then (s.tmpPulse + p.time) % 2 ^ 16 else s.tmpPulse
    pulseIndex := (s.pulseIndex + 255) % 256 }

/-- The loop of `pop_pulse` over the pulses from index `i` on. -/
def popLoop (i edgesCount : ℕ) (lastPolarity : Bool) (s : PopState) : List Pulse → PopState
  | [] => s
  | p :: ps =>
    let edgesCount := if p.polarity ≠ lastPolarity then edgesCount + 1 else edgesCount
    if edgesCount = 2 then { s with nextFirstPulse := i }
    else popLoop (i + 1) edgesCount p.polarity (s.add p) ps

def shift (pulses : Vector Pulse pulseMax) (k : ℕ) : Vector Pulse pulseMax :=
  .ofFn fun i => if h : k + i < pulseMax then pulses[k + i] else pulses[i]

def popPulse (s : PulseJoiner) : Option (PopPulse × PulseJoiner) :=
  if s.pulseIndex ≤ pulseMax + 1 then
    let t := popLoop 0 0 s.pulses[0].polarity ⟨0, 0, s.pulseIndex, 0⟩ s.pulses.toList
    some (⟨t.tmpPeriod, t.tmpPulse⟩, ⟨t.pulseIndex, shift s.pulses t.nextFirstPulse⟩)
  else none

/-- Push the pulses in turn, and pop whenever `push_pulse` returns true. -/
def run (s : PulseJoiner) : List PushPulse → Option (List PopPulse × PulseJoiner)
  | [] => some ([], s)
  | c :: cs => do
    let (result, s) ← s.pushPulse c
    if result then
      let (p, s) ← s.popPulse
      let (ps, s) ← s.run cs
      some (p :: ps, s)
    else s.run cs

def pending (s : PulseJoiner) : List Pulse := s.pulses.toList.take s.pulseIndex

end PulseJoiner

def PushPulse.waveform (c : PushPulse) : List Pulse :=
  [⟨c.polarity, c.pulse⟩, ⟨!c.polarity, c.period - c.pulse⟩]

/-- The waveform of a popped pulse, which begins high. -/
def PopPulse.waveform (p : PopPulse) : List Pulse :=
  [⟨true, p.pulse⟩, ⟨false, p.period - p.pulse⟩]

def Pulse.segment (p : Pulse) : Bool × ℕ := (p.polarity, p.time)

def runLengths (l : List Pulse) : List (Bool × ℕ) := runs (l.map Pulse.segment)

/-- What `uint16_t` keeps of a popped pulse. -/
def PopPulse.toUInt16 (p : PopPulse) : PopPulse := ⟨p.period % 2 ^ 16, p.pulse % 2 ^ 16⟩

/-- The arguments of a push: a pulse within its period, which is at most `P`. -/
structure PushPulse.Within (P : ℕ) (c : PushPulse) : Prop where
  pos : 0 < c.pulse
  lt : c.pulse < c.period
  le : c.period ≤ P

namespace PulseJoiner

variable {s s' : PulseJoiner} {l hs ls r : List Pulse} {a : Bool} {i n m k : ℕ} {t : PopState}

def times (l : List Pulse) : ℕ := (l.map Pulse.time).sum

/-- The pulses below the index are those of the list. -/
structure Holds (s : PulseJoiner) (l : List Pulse) : Prop where
  take : s.pulses.toList.take s.pulseIndex = l
  length : s.pulseIndex = l.length

theorem Holds.pending (h : s.Holds l) : s.pending = l := h.take

theorem Holds.eq_append (h : s.Holds l) :
    s.pulses.toList = l ++ s.pulses.toList.drop s.pulseIndex := by
  have hsplit := (List.take_append_drop s.pulseIndex s.pulses.toList).symm
  rwa [h.take] at hsplit

theorem Holds.first {p : Pulse} (h : s.Holds (p :: l)) : s.pulses[0] = p := by
  have hget : s.pulses.toList[0]? = some p := by
    rw [h.eq_append]
    rfl
  rw [Vector.getElem?_toList, Vector.getElem?_eq_getElem (by decide)] at hget
  exact Option.some.inj hget

theorem Holds.write (h : s.Holds l) (hlt : l.length < pulseMax) (time : ℕ) :
    ∃ s', s.write a time = some s' ∧ s'.Holds (l ++ [⟨a, time⟩]) := by
  have hlt' : s.pulseIndex < pulseMax := h.length ▸ hlt
  refine ⟨_, dif_pos hlt', ?_, ?_⟩
  · have hlen : s.pulseIndex < s.pulses.toList.length := by simpa using hlt'
    simp only [Vector.toList_set]
    rw [List.take_add_one, List.take_set_of_le (Nat.le_refl _), h.take,
      List.getElem?_set_self hlen]
    rfl
  · simp [h.length]

theorem Holds.result {p : Pulse} (h : s.Holds (p :: l)) :
    s.pushResult = (4 ≤ l.length + 1 && 2 ≤ edgesCount p.polarity l) := by
  unfold pushResult
  rw [h.take, h.length, h.first]
  by_cases h4 : 4 ≤ l.length + 1 <;> simp [h4]

theorem popLoop_block (hl : ∀ p ∈ l, p.polarity = a) (hn : n ≠ 2) :
    popLoop i n a t (l ++ r) = popLoop (i + l.length) n a (l.foldl PopState.add t) r := by
  induction l generalizing i t with
  | nil => rfl
  | cons p l ih =>
    have hp : p.polarity = a := hl p List.mem_cons_self
    have hi : i + 1 + l.length = i + (l.length + 1) := by omega
    have hih := ih (i := i + 1) (t := t.add p) fun q hq => hl q (List.mem_cons_of_mem _ hq)
    simpa [popLoop, hp, hn, hi] using hih

theorem popLoop_cycle (hh : ∀ p ∈ hs, p.polarity = true) (hl : ∀ p ∈ ls, p.polarity = false)
    (hls : ls ≠ []) {q : Pulse} (hq : q.polarity = true) :
    popLoop 0 0 true t (hs ++ ls ++ q :: r) =
      { (hs ++ ls).foldl PopState.add t with nextFirstPulse := (hs ++ ls).length } := by
  obtain ⟨p, ls, rfl⟩ := List.exists_cons_of_ne_nil hls
  have hp : p.polarity = false := hl p List.mem_cons_self
  have hrest : ∀ p ∈ ls, p.polarity = false := fun p hp => hl p (List.mem_cons_of_mem _ hp)
  have hlen : 0 + hs.length + 1 + ls.length = (hs ++ p :: ls).length := by
    rw [List.length_append, List.length_cons]
    omega
  have hedge : (if p.polarity ≠ true then 0 + 1 else 0) = 1 := by simp [hp]
  rw [List.append_assoc, popLoop_block hh (by decide), List.cons_append, popLoop]
  simp only [hedge]
  rw [if_neg (by decide), hp, popLoop_block hrest (by decide), popLoop, hlen]
  simp [hq]

theorem foldl_add (hlt : t.pulseIndex < 256) (hlen : l.length ≤ t.pulseIndex)
    (hmod : t.tmpPeriod < 2 ^ 16 ∧ t.tmpPulse < 2 ^ 16) :
    l.foldl PopState.add t =
      { t with
        tmpPeriod := (t.tmpPeriod + times l) % 2 ^ 16
        tmpPulse := (t.tmpPulse + times (l.filter Pulse.polarity)) % 2 ^ 16
        pulseIndex := t.pulseIndex - l.length } := by
  induction l generalizing t with
  | nil =>
    have hp : t.tmpPeriod % 65536 = t.tmpPeriod := Nat.mod_eq_of_lt hmod.1
    have hq : t.tmpPulse % 65536 = t.tmpPulse := Nat.mod_eq_of_lt hmod.2
    simp [times, hp, hq]
  | cons p l ih =>
    rw [List.length_cons] at hlen
    have hindex : (t.pulseIndex + 255) % 256 = t.pulseIndex - 1 := by omega
    have hih := ih (t := t.add p) (by simp only [PopState.add]; omega)
      (by simp only [PopState.add]; omega) (by simp only [PopState.add]; split <;> omega)
    rw [List.foldl_cons, hih]
    cases hp : p.polarity <;>
      simp [PopState.add, hp, hindex, times, Nat.add_assoc, Nat.sub_sub, Nat.add_comm 1]

theorem Holds.shift (h : s.Holds (l ++ r)) :
    (shift s.pulses l.length).toList.take r.length = r := by
  have hle : l.length + r.length ≤ pulseMax := by
    have hlen := congrArg List.length h.take
    simp only [List.length_take, Vector.length_toList, List.length_append] at hlen
    omega
  refine List.ext_getElem (by simp; omega) fun i hi hr => ?_
  have hlt : l.length + i < pulseMax := by omega
  have hget : s.pulses.toList[l.length + i]? = some r[i] := by
    rw [h.eq_append, List.append_assoc, List.getElem?_append_right (Nat.le_add_right _ _),
      Nat.add_sub_cancel_left, List.getElem?_append_left hr, List.getElem?_eq_getElem hr]
  rw [Vector.getElem?_toList, Vector.getElem?_eq_getElem hlt] at hget
  simpa [PulseJoiner.shift, hlt] using Option.some.inj hget

theorem Holds.popPulse {q : Pulse} (h : s.Holds (hs ++ ls ++ q :: r))
    (hh : ∀ p ∈ hs, p.polarity = true) (hl : ∀ p ∈ ls, p.polarity = false)
    (hhs : hs ≠ []) (hls : ls ≠ []) (hq : q.polarity = true) :
    ∃ s', s.popPulse = some (PopPulse.toUInt16 ⟨times hs + times ls, times hs⟩, s') ∧
      s'.Holds (q :: r) := by
  have hle : s.pulseIndex ≤ pulseMax := by
    have hlen := congrArg List.length h.take
    rw [List.length_take, Vector.length_toList, ← h.length] at hlen
    omega
  have hlen : s.pulseIndex = (hs ++ ls).length + (r.length + 1) := by
    rw [h.length, List.length_append, List.length_cons]
  have hmax : pulseMax = 6 := rfl
  have hfirst : s.pulses[0].polarity = true := by
    obtain ⟨p, hs, rfl⟩ := List.exists_cons_of_ne_nil hhs
    rw [Holds.first (l := hs ++ ls ++ q :: r) h]
    exact hh p List.mem_cons_self
  have hhigh : (hs ++ ls).filter Pulse.polarity = hs := by
    rw [List.filter_append, List.filter_eq_self.mpr hh,
      List.filter_eq_nil_iff.mpr fun p hp => by simp [hl p hp], List.append_nil]
  have hloop : popLoop 0 0 s.pulses[0].polarity ⟨0, 0, s.pulseIndex, 0⟩ s.pulses.toList =
      ⟨(times hs + times ls) % 2 ^ 16, times hs % 2 ^ 16, (q :: r).length, (hs ++ ls).length⟩ := by
    rw [hfirst, h.eq_append, List.append_assoc, List.cons_append, popLoop_cycle hh hl hls hq,
      foldl_add (by simp only; omega) (by simp only; omega) (by simp), hhigh]
    simp only [times, List.map_append, List.sum_append, Nat.zero_add, List.length_cons]
    congr 1
    omega
  refine ⟨_, by rw [PulseJoiner.popPulse, if_pos (by omega), hloop]; rfl, ?_, rfl⟩
  exact h.shift

theorem Holds.push (h : s.Holds l) {c : PushPulse} (hl : c.polarity = true ∨ l ≠ [])
    (hlen : l.length ≤ 3) (hc : c.pulse < c.period) :
    ∃ s', s.pushPulse c = some (s'.pushResult, s') ∧ s'.Holds (l ++ c.waveform) := by
  have hmax : pulseMax = 6 := rfl
  obtain ⟨s₁, hs₁, h₁⟩ := h.write (a := c.polarity) (by omega) c.pulse
  have hlen₁ : (l ++ [(⟨c.polarity, c.pulse⟩ : Pulse)]).length = l.length + 1 := by simp
  obtain ⟨s₂, hs₂, h₂⟩ := h₁.write (a := !c.polarity) (by omega) (c.period - c.pulse)
  refine ⟨s₂, ?_, by simpa [PushPulse.waveform] using h₂⟩
  have hindex : s.pulseIndex + 1 < pulseMax := by rw [h.length]; omega
  have hne : ¬(c.polarity = false ∧ s.pulseIndex = 0) := by
    rintro ⟨hlow, hzero⟩
    rcases hl with hhigh | hl
    · exact absurd (hhigh.symm.trans hlow) (by decide)
    · exact hl (List.length_eq_zero_iff.mp (h.length.symm.trans hzero))
  rw [pushPulse, if_pos hindex, if_neg hne, hs₁, Option.bind_some, if_pos hc, hs₂,
    Option.map_some]

/-- What can be pending between two calls, when the periods are at most `P`. -/
inductive Shape (P : ℕ) : List Pulse → Prop
  | high {a : ℕ} : 0 < a → a < P → Shape P [⟨true, a⟩]
  | cycle {a b : ℕ} : 0 < a → 0 < b → a + b ≤ P → Shape P [⟨true, a⟩, ⟨false, b⟩]
  | joined {a b c : ℕ} : 0 < a → a < P → 0 < b → 0 < c → b + c ≤ P →
      Shape P [⟨true, a⟩, ⟨true, b⟩, ⟨false, c⟩]
  | opened {a b c : ℕ} : 0 < a → a < P → 0 < b → 0 < c → b + c ≤ P →
      Shape P [⟨true, a⟩, ⟨false, b⟩, ⟨true, c⟩]

/-- A pop takes the first high and the first low run off the pending pulses. -/
inductive Pops (P : ℕ) : List Pulse → PopPulse → List Pulse → Prop
  | intro {hs ls r : List Pulse} {q : Pulse} (hh : ∀ p ∈ hs, p.polarity = true)
      (hl : ∀ p ∈ ls, p.polarity = false) (hq : q.polarity = true) (hpos : 0 < times hs)
      (lpos : 0 < times ls) (hle : times hs + times ls + 2 ≤ 3 * P) :
      Pops P (hs ++ ls ++ q :: r) ⟨times hs + times ls, times hs⟩ (q :: r)

variable {P : ℕ} {c : PushPulse} {cs : List PushPulse}

theorem ne_nil_of_times_pos (h : 0 < times l) : l ≠ [] := by
  rintro rfl
  exact Nat.lt_irrefl 0 h

theorem Shape.push (h : Shape P l) (hc : c.Within P) :
    (Shape P (l ++ c.waveform) ∧ ∀ s, Holds s (l ++ c.waveform) → s.pushResult = false) ∨
    ∃ p l', Pops P (l ++ c.waveform) p l' ∧ Shape P l' ∧
      ∀ s, Holds s (l ++ c.waveform) → s.pushResult = true := by
  obtain ⟨polarity, period, pulse⟩ := c
  obtain ⟨hpos : 0 < pulse, hlt : pulse < period, hle : period ≤ P⟩ := hc
  have hrest : 0 < period - pulse := by omega
  have hhigh : period - pulse < P := by omega
  have hsum : pulse + (period - pulse) ≤ P := by omega
  cases h with
  | @high a ha haP =>
    left
    cases polarity with
    | true => exact ⟨.joined ha haP hpos hrest hsum, fun s hs => hs.result⟩
    | false => exact ⟨.opened ha haP hpos hrest hsum, fun s hs => hs.result⟩
  | @cycle a b ha hb hab =>
    right
    cases polarity with
    | true =>
      refine ⟨_, _, @Pops.intro _ [⟨true, a⟩] [⟨false, b⟩] _ _ ?_ ?_ rfl ?_ ?_ ?_,
        .cycle hpos hrest hsum, fun s hs => hs.result⟩ <;> simp [times] <;> omega
    | false =>
      refine ⟨_, _, @Pops.intro _ [⟨true, a⟩] [⟨false, b⟩, ⟨false, pulse⟩] _ _ ?_ ?_ rfl ?_ ?_ ?_,
        .high hrest hhigh, fun s hs => hs.result⟩ <;> simp [times] <;> omega
  | @joined a b c ha haP hb hc hbc =>
    right
    cases polarity with
    | true =>
      refine ⟨_, _, @Pops.intro _ [⟨true, a⟩, ⟨true, b⟩] [⟨false, c⟩] _ _ ?_ ?_ rfl ?_ ?_ ?_,
        .cycle hpos hrest hsum, fun s hs => hs.result⟩ <;> simp [times] <;> omega
    | false =>
      refine ⟨_, _, @Pops.intro _ [⟨true, a⟩, ⟨true, b⟩] [⟨false, c⟩, ⟨false, pulse⟩] _ _
        ?_ ?_ rfl ?_ ?_ ?_, .high hrest hhigh, fun s hs => hs.result⟩ <;>
        simp [times] <;> omega
  | @opened a b c ha haP hb hc hbc =>
    right
    cases polarity with
    | true =>
      refine ⟨_, _, @Pops.intro _ [⟨true, a⟩] [⟨false, b⟩] _ _ ?_ ?_ rfl ?_ ?_ ?_,
        .joined hc (by omega) hpos hrest hsum, fun s hs => hs.result⟩ <;> simp [times] <;> omega
    | false =>
      refine ⟨_, _, @Pops.intro _ [⟨true, a⟩] [⟨false, b⟩] _ _ ?_ ?_ rfl ?_ ?_ ?_,
        .opened hc (by omega) hpos hrest hsum, fun s hs => hs.result⟩ <;> simp [times] <;> omega

theorem Shape.ne_nil (h : Shape P l) : l ≠ [] := by cases h <;> exact List.cons_ne_nil _ _

theorem Shape.length_le (h : Shape P l) : l.length ≤ 3 := by cases h <;> simp

theorem Holds.pops {p : PopPulse} (h : s.Holds l) (hp : Pops P l p r) :
    ∃ s', s.popPulse = some (p.toUInt16, s') ∧ s'.Holds r := by
  obtain ⟨hh, hl, hq, hpos, lpos, -⟩ := hp
  exact h.popPulse hh hl (ne_nil_of_times_pos hpos) (ne_nil_of_times_pos lpos) hq

theorem Pops.bounds {p : PopPulse} (hp : Pops P l p r) :
    0 < p.pulse ∧ p.pulse < p.period ∧ p.period + 2 ≤ 3 * P := by
  obtain ⟨-, -, -, hpos, lpos, hle⟩ := hp
  exact ⟨hpos, Nat.lt_add_of_pos_right lpos, hle⟩

/-- The pulse popped is the first two runs of the waveform that is pending or still to come. -/
theorem Pops.runLengths {p : PopPulse} (hp : Pops P l p r) (w : List Pulse) :
    runLengths (l ++ w) = p.waveform.map Pulse.segment ++ runLengths (r ++ w) := by
  obtain @⟨hs, ls, r, q, hh, hl, hq, hpos, lpos, -⟩ := hp
  have hseg : ∀ (b : Bool) (l : List Pulse), (∀ p ∈ l, p.polarity = b) →
      ∀ x ∈ l.map Pulse.segment, x.1 = b := by
    rintro b l hb x hx
    obtain ⟨p, hp, rfl⟩ := List.mem_map.mp hx
    exact hb p hp
  have hnil : ∀ l : List Pulse, 0 < times l → l.map Pulse.segment ≠ [] := fun l hl =>
    mt List.map_eq_nil_iff.mp (ne_nil_of_times_pos hl)
  have hsum : ∀ l : List Pulse, ((l.map Pulse.segment).map Prod.snd).sum = times l := by
    intro l
    rw [List.map_map]
    rfl
  have hlow : runs ((ls ++ q :: (r ++ w)).map Pulse.segment) =
      (false, times ls) :: LfRfid.runLengths (q :: r ++ w) := by
    rw [List.map_append, runs_block (hnil ls lpos) (hseg false ls hl) (by simp [Pulse.segment, hq]),
      hsum]
    rfl
  obtain ⟨x, xs, hx⟩ := List.exists_cons_of_ne_nil (hnil ls lpos)
  have hx1 : x.1 = false := hseg false ls hl x (hx ▸ List.mem_cons_self)
  rw [LfRfid.runLengths, List.append_assoc, List.append_assoc, List.map_append,
    runs_block (hnil hs hpos) (hseg true hs hh) (by simp [hx, hx1]), hsum,
    List.cons_append, hlow]
  simp [PopPulse.waveform, Pulse.segment]

theorem Shape.run (h : Shape P l) (hs : s.Holds l) (hcs : ∀ c ∈ cs, c.Within P) :
    ∃ (qs : List PopPulse) (s' : PulseJoiner) (l' : List Pulse),
      s.run cs = some (qs.map PopPulse.toUInt16, s') ∧ s'.Holds l' ∧ Shape P l' ∧
      (∀ q ∈ qs, 0 < q.pulse ∧ q.pulse < q.period ∧ q.period + 2 ≤ 3 * P) ∧
      runLengths (l ++ cs.flatMap PushPulse.waveform) =
        (qs.flatMap PopPulse.waveform).map Pulse.segment ++ runLengths l' := by
  induction cs generalizing s l with
  | nil => exact ⟨[], s, l, rfl, hs, h, by simp, by simp⟩
  | cons c cs ih =>
    have hc := hcs c List.mem_cons_self
    have hcs' : ∀ c ∈ cs, c.Within P := fun c hc => hcs c (List.mem_cons_of_mem _ hc)
    obtain ⟨s₁, hs₁, hl₁⟩ := hs.push (.inr h.ne_nil) h.length_le hc.lt
    rcases h.push hc with ⟨hsh, hres⟩ | ⟨p, r, hpop, hsh, hres⟩
    · obtain ⟨qs, s', l', hrun, hl', hsh', hqs, hruns⟩ := ih hsh hl₁ hcs'
      refine ⟨qs, s', l', ?_, hl', hsh', hqs, ?_⟩
      · simpa [PulseJoiner.run, hs₁, hres s₁ hl₁] using hrun
      · rwa [List.flatMap_cons, ← List.append_assoc]
    · obtain ⟨s₂, hs₂, hl₂⟩ := hl₁.pops hpop
      obtain ⟨qs, s', l', hrun, hl', hsh', hqs, hruns⟩ := ih hsh hl₂ hcs'
      refine ⟨p :: qs, s', l', ?_, hl', hsh', ?_, ?_⟩
      · simp [PulseJoiner.run, hs₁, hres s₁ hl₁, hs₂, hrun]
      · exact List.forall_mem_cons.mpr ⟨hpop.bounds, hqs⟩
      · rw [List.flatMap_cons, ← List.append_assoc, hpop.runLengths, hruns, List.flatMap_cons,
          List.map_append, List.append_assoc]

theorem holds_init : init.Holds [] := ⟨rfl, rfl⟩

theorem init_push (hc : c.Within P) :
    ∃ s l, init.pushPulse c = some (false, s) ∧ s.Holds l ∧ Shape P l ∧
      ∀ w, (c.waveform ++ w).dropWhile (fun p => !p.polarity) = l ++ w := by
  obtain ⟨polarity, period, pulse⟩ := c
  obtain ⟨hpos : 0 < pulse, hlt : pulse < period, hle : period ≤ P⟩ := hc
  have hrest : 0 < period - pulse := by omega
  have hhigh : period - pulse < P := by omega
  have hsum : pulse + (period - pulse) ≤ P := by omega
  cases polarity with
  | true =>
    obtain ⟨s, hs, h⟩ := holds_init.push (c := ⟨true, period, pulse⟩) (.inl rfl) (by decide) hlt
    have hres : s.pushResult = false := h.result
    exact ⟨s, _, hres ▸ hs, h, .cycle hpos hrest hsum, fun w => by simp [PushPulse.waveform]⟩
  | false =>
    obtain ⟨s, hs, h⟩ := holds_init.write (a := true) (by decide) (period - pulse)
    have hres : s.pushResult = false := h.result
    refine ⟨s, _, ?_, h, .high hrest hhigh, fun w => by simp [PushPulse.waveform]⟩
    rw [pushPulse, if_pos (by decide), if_pos ⟨rfl, rfl⟩, Option.bind_some, if_pos hlt]
    rw [Bool.not_false, hs, Option.map_some, hres]

/-- The waveform of the pushes, without its leading low part. -/
def pushedWaveform (cs : List PushPulse) : List Pulse :=
  (cs.flatMap PushPulse.waveform).dropWhile fun p => !p.polarity

theorem run_init (cs : List PushPulse) (hcs : ∀ c ∈ cs, c.Within P) :
    ∃ (qs : List PopPulse) (s' : PulseJoiner),
      init.run cs = some (qs.map PopPulse.toUInt16, s') ∧ s'.pulseIndex ≤ 3 ∧
      (∀ q ∈ qs, 0 < q.pulse ∧ q.pulse < q.period ∧ q.period + 2 ≤ 3 * P) ∧
      runLengths (pushedWaveform cs) =
        (qs.flatMap PopPulse.waveform).map Pulse.segment ++ runLengths s'.pending := by
  cases cs with
  | nil => exact ⟨[], init, rfl, by decide, by simp, rfl⟩
  | cons c cs =>
    obtain ⟨s, l, hs, hl, hsh, hdrop⟩ := init_push (hcs c List.mem_cons_self)
    obtain ⟨qs, s', l', hrun, hl', hsh', hqs, hruns⟩ :=
      hsh.run hl fun c hc => hcs c (List.mem_cons_of_mem _ hc)
    refine ⟨qs, s', by simpa [run, hs] using hrun, hl'.length ▸ hsh'.length_le, hqs, ?_⟩
    rw [pushedWaveform, List.flatMap_cons, hdrop, hruns, hl'.pending]

end PulseJoiner

open PulseJoiner

/-- No check fails, at most three pulses stay pending, and the pulses popped are the runs of the
pushed waveform in `uint16_t`, which they fit for periods of at most a third of its range. -/
theorem pulse_joiner_lossless (cs : List PushPulse)
    (hcs : ∀ c ∈ cs, 0 < c.pulse ∧ c.pulse < c.period ∧ c.period < 2 ^ 15) :
    ∃ (ps : List PopPulse) (s : PulseJoiner),
      PulseJoiner.init.run cs = some (ps, s) ∧ s.pulseIndex ≤ 3 ∧
      (∃ qs : List PopPulse, ps = qs.map PopPulse.toUInt16 ∧
        (∀ q ∈ qs, 0 < q.pulse ∧ q.pulse < q.period) ∧
        runLengths (pushedWaveform cs) =
          (qs.flatMap PopPulse.waveform).map Pulse.segment ++ runLengths s.pending) ∧
      ((∀ c ∈ cs, c.period ≤ 21845) →
        (∀ p ∈ ps, 0 < p.pulse ∧ p.pulse < p.period) ∧
        runLengths (pushedWaveform cs) =
          (ps.flatMap PopPulse.waveform).map Pulse.segment ++ runLengths s.pending) := by
  obtain ⟨qs, s, hrun, hindex, hqs, hruns⟩ := run_init (P := 2 ^ 15) cs fun c hc =>
    ⟨(hcs c hc).1, (hcs c hc).2.1, Nat.le_of_lt (hcs c hc).2.2⟩
  refine ⟨_, s, hrun, hindex, ⟨qs, rfl, fun q hq => ⟨(hqs q hq).1, (hqs q hq).2.1⟩, hruns⟩, ?_⟩
  intro hle
  obtain ⟨qs', s', hrun', -, hqs', hruns'⟩ := run_init (P := 21845) cs fun c hc =>
    ⟨(hcs c hc).1, (hcs c hc).2.1, hle c hc⟩
  obtain ⟨hmap, rfl⟩ := Prod.mk.inj (Option.some.inj (hrun.symm.trans hrun'))
  have hfit : qs'.map PopPulse.toUInt16 = qs' := by
    have hid : ∀ q ∈ qs', q.toUInt16 = id q := by
      intro q hq
      obtain ⟨-, hlt, hle⟩ := hqs' q hq
      have hperiod : q.period % 2 ^ 16 = q.period := Nat.mod_eq_of_lt (by omega)
      have hpulse : q.pulse % 2 ^ 16 = q.pulse := Nat.mod_eq_of_lt (by omega)
      rw [PopPulse.toUInt16, hperiod, hpulse, id]
    rw [List.map_congr_left hid, List.map_id]
  rw [hmap, hfit]
  exact ⟨fun p hp => ⟨(hqs' p hp).1, (hqs' p hp).2.1⟩, hruns'⟩

theorem pulse_joiner_lossless_two :
    ∃ (ps : List PopPulse) (s : PulseJoiner),
      PulseJoiner.init.run [⟨true, 64, 32⟩, ⟨false, 64, 32⟩] = some (ps, s) ∧ s.pulseIndex ≤ 3 :=
  have ⟨ps, s, hrun, hindex, _⟩ :=
    pulse_joiner_lossless [⟨true, 64, 32⟩, ⟨false, 64, 32⟩] (by simp)
  ⟨ps, s, hrun, hindex⟩

/-- Three joined halves do not fit `uint16_t`: the pulse popped is longer than its period. -/
theorem pulse_joiner_overflows :
    ∃ (cs : List PushPulse) (p : PopPulse) (s : PulseJoiner),
      (∀ c ∈ cs, 0 < c.pulse ∧ c.pulse < c.period ∧ c.period < 2 ^ 15) ∧
      PulseJoiner.init.run cs = some ([p], s) ∧ p.period < p.pulse :=
  ⟨[⟨false, 32767, 1⟩, ⟨true, 32767, 1⟩, ⟨false, 32767, 32766⟩], ⟨32763, 32767⟩, _,
    by decide, rfl, by decide⟩

end FlipperZero.LfRfid
