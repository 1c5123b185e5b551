import FlipperZero.Lib.ShiftRegister

/-! # Bits from counted cycles

Bits are sent as cycles of two kinds, so many for each bit. A counter gives a bit when it has
counted so many cycles of one kind, or when the kind changes and no more than two were missing. The
cycle between two different bits may be taken for either kind, and the counter still gives every
bit once. Only where the counter comes in from a wrong count does it give one bit too much or lose
the bit it comes in at.
-/

namespace FlipperZero.Lib

structure Counter where
  last : Bool
  count : ℕ

/-- A bit of the stream, and so many cycles of it. -/
structure Place where
  bit : ℕ
  offset : ℕ

variable (k : Bool → ℕ) (b : ℕ → Bool)

def Counter.take (c : Counter) (pulse : Bool) : Counter × Option Bool :=
  if c.last = pulse then
    if c.count + 1 < k pulse then (⟨pulse, c.count + 1⟩, none) else (⟨pulse, 0⟩, some pulse)
  else (⟨pulse, 0⟩, if k c.last ≤ c.count + 2 then some c.last else none)

def Place.next (p : Place) : Place :=
  if p.offset + 1 < k (b p.bit) then ⟨p.bit, p.offset + 1⟩ else ⟨p.bit + 1, 0⟩

/-- The kinds that the cycle at a place may be taken for. -/
def Place.Sounds (p : Place) (pulse : Bool) : Prop :=
  pulse = b p.bit ∨ p.offset + 1 = k (b p.bit) ∧ pulse = b (p.bit + 1)

/-- At a place of a run from bit `r` on, `m` bits of it given: what has been counted is what has
gone by, of which the first `2 * full - t` cycles count as two bits. -/
def Counted (full : ℕ) (p : Place) (count r m t : ℕ) : Prop :=
  m + 1 + r = p.bit ∧ count = p.offset + t ∨
    m + r = p.bit ∧ count + full = p.offset + t ∨
    m + r = p.bit + 1 ∧ count + 2 * full = p.offset + t

/-- A counter in a run of equal bits from bit `r` on. -/
structure InRun (p : Place) (c : Counter) (r m t : ℕ) : Prop where
  start : r ≤ p.bit
  bits : ∀ i, r ≤ i → i < p.bit → b i = c.last
  inside : 0 < p.offset → b p.bit = c.last
  range : t ≤ 2 * k c.last
  counted : Counted (k c.last) p c.count r m t

/-- A run ends with the cycle at the border to other bits, or with the one before it. -/
def Ends (p : Place) (last : Bool) (r' : ℕ) : Prop :=
  b p.bit = last ∧ p.offset + 1 = k last ∧ r' = p.bit + 1 ∨
    b p.bit ≠ last ∧ p.offset = 0 ∧ r' = p.bit

/-- The bits given before a run: at most a budget of wrong ones in the run where the counter came
in, and later also all bits between. -/
inductive Before (budget first : ℕ) : (full r t : ℕ) → List Bool → Prop
  | first {full r t pre} (hr : r = first ∨ r = first + 1 ∧ full ≤ t)
      (hpre : pre.length + (if full + 2 < t then 1 else 0) ≤ budget) : Before budget first full r t pre
  | later {full r t junk s} (hjunk : junk.length ≤ budget) (hs : s = first ∨ s = first + 1)
      (hle : s ≤ r) (ht : t + 1 = full ∨ t = full) :
      Before budget first full r t (junk ++ bitsFrom b s (r - s))

/-- The counter at a place of the stream, with the bits it has given since it came in at bit
`first`. -/
inductive Track (budget first : ℕ) (p : Place) (c : Counter) : List Bool → Prop
  | settling {pre} (hfirst : p.bit = first)
      (hpre : pre.length + (if 1 < c.count then 1 else 0) ≤ budget) : Track budget first p c pre
  | running {r m t pre} (hrun : InRun k b p c r m t)
      (hbefore : Before b budget first (k c.last) r t pre) :
      Track budget first p c (pre ++ List.replicate m c.last)

structure Follows (budget first : ℕ) (p : Place) (c : Counter) (bits : List Bool) : Prop where
  count : c.count < k c.last
  offset : p.offset < k (b p.bit)
  track : Track k b budget first p c bits

variable {k b} {budget first r m t r' : ℕ} {p : Place} {c : Counter} {pre bits : List Bool}
  {pulse v : Bool}

theorem bitsFrom_eq_replicate {len : ℕ} (h : ∀ i, r ≤ i → i < r + len → b i = v) :
    bitsFrom b r len = List.replicate len v := by
  induction len with
  | zero => rfl
  | succ len ih =>
    rw [bitsFrom_succ, ih fun i hi hlt => h i hi (by omega), h _ (by omega) (by omega),
      List.replicate_succ']

theorem take_of_lt (h : c.count + 1 < k c.last) :
    c.take k c.last = (⟨c.last, c.count + 1⟩, none) := by
  rw [Counter.take, if_pos rfl, if_pos h]

theorem take_of_full (h : ¬c.count + 1 < k c.last) :
    c.take k c.last = (⟨c.last, 0⟩, some c.last) := by
  rw [Counter.take, if_pos rfl, if_neg h]

theorem take_change (h : pulse ≠ c.last) :
    c.take k pulse = (⟨pulse, 0⟩, if k c.last ≤ c.count + 2 then some c.last else none) :=
  if_neg h.symm

theorem take_count_of_given (h : (c.take k pulse).2 = some v) : (c.take k pulse).1.count = 0 := by
  unfold Counter.take at h ⊢
  split at h
  · next hsame =>
    rw [if_pos hsame]
    split at h
    · cases h
    · next hfull => rw [if_neg hfull]
  · next hne => rw [if_neg hne]

theorem take_of_zero (hk : ∀ v, 5 ≤ k v) (h : c.count = 0) (pulse : Bool) :
    (c.take k pulse).2 = none ∧ (c.take k pulse).1.count ≤ 1 := by
  have hfive := hk pulse
  have hfive' := hk c.last
  unfold Counter.take
  rw [h]
  split
  · rw [if_pos (by omega)]
    exact ⟨rfl, le_rfl⟩
  · rw [if_neg (by omega)]
    exact ⟨rfl, Nat.zero_le 1⟩

theorem InRun.next {c' : Counter} {m' : ℕ} (h : InRun k b p c r m t) (hbit : b p.bit = c.last)
    (hlast : c'.last = c.last) (hcounted : Counted (k c.last) (p.next k b) c'.count r m' t) :
    InRun k b (p.next k b) c' r m' t := by
  have hstart := h.start
  have hbits (i : ℕ) (hi : r ≤ i) (hlt : i < p.bit + 1) : b i = c.last := by
    rcases Nat.lt_succ_iff_lt_or_eq.mp hlt with hlt | rfl
    · exact h.bits i hi hlt
    · exact hbit
  constructor
  · unfold Place.next
    split
    · exact hstart
    · exact Nat.le_succ_of_le hstart
  · rw [hlast]
    unfold Place.next
    split
    · exact h.bits
    · exact hbits
  · rw [hlast]
    unfold Place.next
    split
    · exact fun _ => hbit
    · exact fun hlt => absurd hlt (Nat.lt_irrefl 0)
  · rw [hlast]
    exact h.range
  · rwa [hlast]

theorem bitsFrom_append_replicate {s given : ℕ} (hle : s ≤ r)
    (hbits : ∀ i, r ≤ i → i < r + given → b i = v) :
    bitsFrom b s (r - s) ++ List.replicate given v = bitsFrom b s (r + given - s) := by
  have hlen : r + given - s = r - s + given := by omega
  have hmid : s + (r - s) = r := by omega
  rw [hlen, bitsFrom_add, hmid, bitsFrom_eq_replicate hbits]

/-- The end of a run: what was given is at most a budget of wrong bits, and all bits behind them. -/
theorem Before.close {full given : ℕ} (h : Before b budget first full r t pre) (hr : r ≤ r')
    (hbits : ∀ i, r ≤ i → i < r' → b i = v)
    (hgiven : given + 1 + r = r' ∧ t + 1 < full ∨ given + r = r' ∨
      given + r = r' + 1 ∧ full + 2 < t) :
    ∃ junk s, junk.length ≤ budget ∧ (s = first ∨ s = first + 1) ∧ s ≤ r' ∧
      pre ++ List.replicate given v = junk ++ bitsFrom b s (r' - s) := by
  cases h with
  | first hfirst hpre =>
    rcases hgiven with ⟨rfl, ht⟩ | rfl | ⟨hmore, ht⟩
    · refine ⟨pre, r + 1, by omega, by omega, by omega, ?_⟩
      have hlen : given + 1 + r - (r + 1) = given := by omega
      rw [hlen, bitsFrom_eq_replicate fun i hi hlt => hbits i (by omega) (by omega)]
    · refine ⟨pre, r, by omega, by omega, hr, ?_⟩
      rw [Nat.add_sub_cancel, bitsFrom_eq_replicate fun i hi hlt => hbits i hi (by omega)]
    · obtain ⟨len, rfl⟩ := Nat.exists_eq_add_of_le hr
      obtain rfl : given = len + 1 := by omega
      rw [if_pos ht] at hpre
      refine ⟨pre ++ [v], r, by simpa using hpre, by omega, hr, ?_⟩
      rw [Nat.add_sub_cancel_left, bitsFrom_eq_replicate hbits, List.append_assoc,
        List.replicate_succ]
      rfl
  | later hjunk hs hle ht =>
    obtain rfl : r' = r + given := by omega
    refine ⟨_, _, hjunk, hs, by omega, ?_⟩
    rw [List.append_assoc, bitsFrom_append_replicate hle hbits]

section Rules

variable (hk : ∀ v, 5 ≤ k v)

include hk

theorem next_offset (p : Place) : (p.next k b).offset < k (b (p.next k b).bit) := by
  unfold Place.next
  split
  · assumption
  · have hfive := hk (b (p.bit + 1))
    show 0 < k (b (p.bit + 1))
    omega

theorem take_count (c : Counter) (pulse : Bool) :
    (c.take k pulse).1.count < k (c.take k pulse).1.last := by
  have hfive := hk pulse
  unfold Counter.take
  split
  · split
    · assumption
    · show 0 < k pulse
      omega
  · show 0 < k pulse
    omega

theorem InRun.same (h : InRun k b p c r m t) (hc : c.count < k c.last)
    (hp : p.offset < k (b p.bit)) (hs : p.Sounds k b c.last) :
    ∃ m', List.replicate m c.last ++ (c.take k c.last).2.toList = List.replicate m' c.last ∧
      InRun k b (p.next k b) (c.take k c.last).1 r m' t ∧ (c.take k c.last).1.last = c.last := by
  have hbit : b p.bit = c.last := by
    rcases hs with hs | ⟨hlast, _⟩
    · exact hs.symm
    · exact h.inside (by have := hk (b p.bit); omega)
  have hfive := hk c.last
  have hrange := h.range
  have hcounted := h.counted
  rw [hbit] at hp
  unfold Counted at hcounted
  by_cases hfull : c.count + 1 < k c.last
  · rw [take_of_lt hfull]
    refine ⟨m, List.append_nil _, h.next hbit rfl ?_, rfl⟩
    unfold Place.next Counted
    rw [hbit]
    split
    · simp only
      omega
    · simp only
      omega
  · rw [take_of_full hfull]
    refine ⟨m + 1, (List.replicate_succ' ..).symm, h.next hbit rfl ?_, rfl⟩
    unfold Place.next Counted
    rw [hbit]
    split
    · simp only
      omega
    · simp only
      omega

/-- The bits given to a run by the cycle that ends it: all of them, or one too few or too many after
a wrong count. -/
theorem InRun.given (h : InRun k b p c r m t) (hc : c.count < k c.last)
    (hend : Ends k b p c.last r') :
    let given := m + if k c.last ≤ c.count + 2 then 1 else 0
    given + 1 + r = r' ∧ t + 1 < k c.last ∨ given + r = r' ∨
      given + r = r' + 1 ∧ k c.last + 2 < t := by
  have hfive := hk c.last
  have hrange := h.range
  have hcounted := h.counted
  unfold Counted at hcounted
  rcases hend with ⟨_, hoffset, rfl⟩ | ⟨_, hoffset, rfl⟩
  · simp only
    split
    · omega
    · omega
  · simp only
    split
    · omega
    · omega

/-- A cycle of the other kind ends the run, and the next one is counted from its border. -/
theorem InRun.change (h : InRun k b p c r m t) (hs : p.Sounds k b pulse) (hne : pulse ≠ c.last) :
    ∃ r' t', Ends k b p c.last r' ∧ r ≤ r' ∧ (∀ i, r ≤ i → i < r' → b i = c.last) ∧
      (t' + 1 = k pulse ∨ t' = k pulse) ∧ InRun k b (p.next k b) ⟨pulse, 0⟩ r' 0 t' := by
  have hfive := hk pulse
  have hstart := h.start
  by_cases hbit : b p.bit = c.last
  · rcases hs with rfl | ⟨hoffset, hnext⟩
    · exact absurd hbit hne
    · have hp : p.next k b = ⟨p.bit + 1, 0⟩ := by
        rw [Place.next, if_neg (Nat.not_lt.mpr hoffset.ge)]
      rw [hbit] at hoffset
      refine ⟨p.bit + 1, k pulse, .inl ⟨hbit, hoffset, rfl⟩, by omega, ?_, .inr rfl, ?_⟩
      · intro i hi hlt
        rcases Nat.lt_succ_iff_lt_or_eq.mp hlt with hlt | rfl
        · exact h.bits i hi hlt
        · exact hbit
      · rw [hp]
        constructor
        · exact le_rfl
        · intro i hi hlt
          exact absurd hlt (Nat.not_lt.mpr hi)
        · intro hlt
          exact absurd hlt (Nat.lt_irrefl 0)
        · show k pulse ≤ 2 * k pulse
          omega
        · exact .inr (.inl ⟨Nat.zero_add _, rfl⟩)
  · have hoffset : p.offset = 0 := Nat.eq_zero_of_not_pos fun hpos => hbit (h.inside hpos)
    have hpulse : b p.bit = pulse := (Bool.eq_not.mpr hbit).trans (Bool.eq_not.mpr hne).symm
    have hp : p.next k b = ⟨p.bit, 1⟩ := by
      rw [Place.next, hpulse, hoffset, if_pos (by omega)]
    refine ⟨p.bit, k pulse - 1, .inr ⟨hbit, hoffset, rfl⟩, hstart, h.bits, by omega, ?_⟩
    rw [hp]
    constructor
    · exact le_rfl
    · intro i hi hlt
      exact absurd hlt (Nat.not_lt.mpr hi)
    · exact fun _ => hpulse
    · show k pulse - 1 ≤ 2 * k pulse
      omega
    · unfold Counted
      simp only
      omega

theorem InRun.track (h : InRun k b p c r m t) (hbefore : Before b budget first (k c.last) r t pre)
    (hc : c.count < k c.last) (hp : p.offset < k (b p.bit)) (hs : p.Sounds k b pulse) :
    Track k b budget first (p.next k b) (c.take k pulse).1
      (pre ++ List.replicate m c.last ++ (c.take k pulse).2.toList) := by
  by_cases hsame : pulse = c.last
  · subst hsame
    obtain ⟨m', hbits, hrun, hlast⟩ := h.same hk hc hp hs
    rw [List.append_assoc, hbits]
    have htrack := Track.running hrun (hlast ▸ hbefore)
    rwa [hlast] at htrack
  · obtain ⟨r', t', hend, hr, hbits, ht, hrun⟩ := h.change hk hs hsame
    obtain ⟨junk, s, hjunk, hs', hle, hpre⟩ := hbefore.close hr hbits (h.given hk hc hend)
    have hflush : List.replicate m c.last ++
        (if k c.last ≤ c.count + 2 then some c.last else none : Option Bool).toList =
        List.replicate (m + if k c.last ≤ c.count + 2 then 1 else 0) c.last := by
      split
      · exact (List.replicate_succ' ..).symm
      · exact List.append_nil _
    rw [take_change hsame, List.append_assoc, hflush, hpre]
    have htrack := Track.running hrun (.later hjunk hs' hle ht)
    simpa using htrack

/-- The border cycle of a bit of the other kind, at which the counter came in, is counted to the run
behind it. -/
theorem track_of_border (hc : c.count < k c.last) (hoffset : p.offset + 1 = k (b p.bit))
    (hpre : pre.length + (if 1 < c.count then 1 else 0) ≤ budget) :
    Track k b budget p.bit (p.next k b) (c.take k c.last).1
      (pre ++ (c.take k c.last).2.toList) := by
  have hfive := hk c.last
  have hnext : p.next k b = ⟨p.bit + 1, 0⟩ := by
    rw [Place.next, if_neg (Nat.not_lt.mpr hoffset.ge)]
  have hrun {count m t : ℕ} (ht : t ≤ 2 * k c.last)
      (hcounted : Counted (k c.last) ⟨p.bit + 1, 0⟩ count (p.bit + 1) m t) :
      InRun k b ⟨p.bit + 1, 0⟩ ⟨c.last, count⟩ (p.bit + 1) m t := by
    constructor
    · exact le_rfl
    · intro i hi hlt
      exact absurd hlt (Nat.not_lt.mpr hi)
    · intro hlt
      exact absurd hlt (Nat.lt_irrefl 0)
    · exact ht
    · exact hcounted
  rw [hnext]
  by_cases hfull : c.count + 1 < k c.last
  · rw [take_of_lt hfull]
    have hbefore : Before b budget p.bit (k c.last) (p.bit + 1) (c.count + 1 + k c.last) pre := by
      refine .first (.inr ⟨rfl, by omega⟩) (le_trans ?_ hpre)
      split
      · rw [if_pos (by omega)]
      · omega
    have hcounted : Counted (k c.last) ⟨p.bit + 1, 0⟩ (c.count + 1) (p.bit + 1) 0
        (c.count + 1 + k c.last) :=
      .inr (.inl ⟨Nat.zero_add _, (Nat.zero_add _).symm⟩)
    simpa using Track.running (hrun (by omega) hcounted) hbefore
  · rw [take_of_full hfull]
    have hbefore : Before b budget p.bit (k c.last) (p.bit + 1) (2 * k c.last) pre := by
      refine .first (.inr ⟨rfl, by omega⟩) (le_trans ?_ hpre)
      rw [if_pos (by omega), if_pos (by omega)]
    have hcounted : Counted (k c.last) ⟨p.bit + 1, 0⟩ 0 (p.bit + 1) 1 (2 * k c.last) :=
      .inr (.inr ⟨Nat.add_comm _ _, rfl⟩)
    exact Track.running (hrun le_rfl hcounted) hbefore

theorem track_of_change (hp : p.offset < k (b p.bit)) (hpulse : b p.bit = pulse)
    (hne : pulse ≠ c.last) (hpre : pre.length + (if 1 < c.count then 1 else 0) ≤ budget) :
    Track k b budget p.bit (p.next k b) (c.take k pulse).1 (pre ++ (c.take k pulse).2.toList) := by
  have hfive := hk c.last
  rw [hpulse] at hp
  have hbefore : Before b budget p.bit (k pulse) p.bit (k pulse - (p.offset + 1))
      (pre ++ (if k c.last ≤ c.count + 2 then some c.last else none : Option Bool).toList) := by
    have hright : ¬k pulse + 2 < k pulse - (p.offset + 1) := by omega
    refine .first (.inl rfl) (le_trans ?_ hpre)
    rw [List.length_append, if_neg hright]
    split
    · rw [if_pos (by omega)]
      exact le_rfl
    · exact Nat.add_le_add_left (Nat.zero_le _) _
  have hrun : InRun k b (p.next k b) ⟨pulse, 0⟩ p.bit 0 (k pulse - (p.offset + 1)) := by
    unfold Place.next
    rw [hpulse]
    split
    · next hlt =>
      constructor
      · exact le_rfl
      · intro i hi hlt
        exact absurd hlt (Nat.not_lt.mpr hi)
      · exact fun _ => hpulse
      · show k pulse - (p.offset + 1) ≤ 2 * k pulse
        omega
      · refine .inr (.inl ⟨Nat.zero_add _, ?_⟩)
        simp only
        omega
    · constructor
      · exact Nat.le_succ _
      · intro i hi hlt
        obtain rfl : i = p.bit := Nat.le_antisymm (Nat.lt_succ_iff.mp hlt) hi
        exact hpulse
      · intro hlt
        exact absurd hlt (Nat.lt_irrefl 0)
      · show k pulse - (p.offset + 1) ≤ 2 * k pulse
        omega
      · refine .inl ⟨by simp only; omega, ?_⟩
        simp only
        omega
  rw [take_change hne]
  simpa using Track.running hrun hbefore

theorem Follows.take (h : Follows k b budget first p c bits) (hs : p.Sounds k b pulse) :
    Follows k b budget first (p.next k b) (c.take k pulse).1
      (bits ++ (c.take k pulse).2.toList) := by
  obtain ⟨hc, hp, htrack⟩ := h
  refine ⟨take_count hk _ _, next_offset hk _, ?_⟩
  cases htrack with
  | running hrun hbefore => exact hrun.track hk hbefore hc hp hs
  | settling hfirst hpre =>
    subst hfirst
    have hfive := hk c.last
    by_cases hlast : b p.bit = c.last
    · have hrun : InRun k b p c p.bit 0 (c.count + k c.last - p.offset) := by
        rw [hlast] at hp
        constructor
        · exact le_rfl
        · intro i hi hlt
          exact absurd hlt (Nat.not_lt.mpr hi)
        · exact fun _ => hlast
        · omega
        · exact .inr (.inl ⟨Nat.zero_add _, by omega⟩)
      have hbefore : Before b budget p.bit (k c.last) p.bit (c.count + k c.last - p.offset) bits := by
        refine .first (.inl rfl) (le_trans ?_ hpre)
        split
        · rw [if_pos (by omega)]
        · omega
      simpa using hrun.track hk hbefore hc hp hs
    · by_cases hsame : pulse = c.last
      · subst hsame
        rcases hs with hs | ⟨hoffset, _⟩
        · exact absurd hs.symm hlast
        · exact track_of_border hk hc hoffset hpre
      · have hpulse : b p.bit = pulse := (Bool.eq_not.mpr hlast).trans (Bool.eq_not.mpr hsame).symm
        exact track_of_change hk hp hpulse hsame hpre

/-- The bits given: at most a budget of wrong ones, then those of the stream from the first or second
bit on, which are not more than one bit away from the place. -/
theorem Follows.given (h : Follows k b budget first p c bits) :
    ∃ junk s len, bits = junk ++ bitsFrom b s len ∧ junk.length ≤ budget ∧
      (s = first ∨ s = first + 1) ∧ p.bit ≤ s + len + 1 ∧ s + len ≤ p.bit + 1 := by
  obtain ⟨hc, hp, htrack⟩ := h
  cases htrack with
  | settling hfirst hpre =>
    exact ⟨bits, first, 0, (List.append_nil _).symm, by omega, .inl rfl, by omega, by omega⟩
  | @running r m t pre hrun hbefore =>
    have hfive := hk c.last
    have hstart := hrun.start
    have hrange := hrun.range
    have hcounted := hrun.counted
    unfold Counted at hcounted
    have hinside (hpos : 0 < p.offset) : p.offset < k c.last := by
      rwa [hrun.inside hpos] at hp
    cases hbefore with
    | first hfirst hpre =>
      by_cases hall : r + m ≤ p.bit ∨ 0 < p.offset
      · have hbits : ∀ i, r ≤ i → i < r + m → b i = c.last := by
          intro i hi hlt
          rcases Nat.lt_or_ge i p.bit with hlt' | hge
          · exact hrun.bits i hi hlt'
          · obtain rfl : i = p.bit := by omega
            exact hrun.inside (by omega)
        refine ⟨pre, r, m, ?_, by omega, by omega, by omega, by omega⟩
        rw [bitsFrom_eq_replicate hbits]
      · obtain ⟨len, rfl⟩ : ∃ len, m = len + 1 := ⟨m - 1, by omega⟩
        rw [if_pos (by omega)] at hpre
        refine ⟨pre ++ [c.last], r, len, ?_, by simpa using hpre, by omega, by omega, by omega⟩
        rw [bitsFrom_eq_replicate fun i hi hlt => hrun.bits i hi (by omega), List.append_assoc,
          List.replicate_succ]
        rfl
    | @later junk s hjunk hs hle ht =>
      have hin : r + m ≤ p.bit := by omega
      refine ⟨junk, s, r + m - s, ?_, hjunk, hs, by omega, by omega⟩
      rw [List.append_assoc,
        bitsFrom_append_replicate hle fun i hi hlt => hrun.bits i hi (by omega)]

end Rules

end FlipperZero.Lib
