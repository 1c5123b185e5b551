import FlipperZero.LfRfid.EmMarinFrame

/-! # Frames that overlap in a shift register

A frame has no nine ones in a row but at its start, so a register that still holds a part
of one frame can only pass the checks again after two or four more bits, and then the
frame must begin its rows with as many ones and have even row starts throughout.
-/

namespace FlipperZero.LfRfid

open Finset

/-- The number of ones among the first `k` bits of row `r`; row 10 is that of the columns. -/
def rowStart (f : ℕ → Bool) (k r : ℕ) : ℕ := ∑ j ∈ range k, (f (9 + 5 * r + j)).toNat

/-- What lets a frame pass the checks again `k` bits later. -/
structure Slips (f : ℕ → Bool) (k : ℕ) : Prop where
  ones : ∀ j < k, f (9 + j) = true
  rows : ∀ r < 10, rowStart f k r % 2 = 0
  parities : (∑ r ∈ range 10, (f (9 + 5 * r + 4)).toNat) % 2 = 0

variable {f g : ℕ → Bool} {k : ℕ}

theorem EmFrame.nine_ones (hf : EmFrame f) {p : ℕ} (hp : p ≤ 55)
    (h : ∀ i < 9, f (p + i) = true) : p ≤ 4 := by
  by_contra hgt
  rcases Nat.lt_or_ge p 55 with hlt | hge
  · have hrow : ∀ c ∈ range 5, (f (9 + 5 * ((p - 5) / 5) + c)).toNat = 1 := by
      intro c hc
      have hc' := mem_range.mp hc
      have hidx : 9 + 5 * ((p - 5) / 5) + c = p + (9 + 5 * ((p - 5) / 5) + c - p) := by omega
      rw [hidx, h _ (by omega)]
      rfl
    have heven := hf.row ((p - 5) / 5) (by omega)
    rw [sum_congr rfl hrow] at heven
    simp at heven
  · obtain rfl : p = 55 := by omega
    have hstop := h 8 (by decide)
    rw [hf.stop] at hstop
    cases hstop

theorem sum_row_shift (r : ℕ) :
    ∑ c ∈ range 5, (f (9 + 5 * r + c + k)).toNat + rowStart f k r =
      ∑ c ∈ range 5, (f (9 + 5 * r + c)).toNat + rowStart f k (r + 1) := by
  have hleft := sum_range_add (fun c => (f (9 + 5 * r + c)).toNat) k 5
  have hright := sum_range_add (fun c => (f (9 + 5 * r + c)).toNat) 5 k
  have hmoved : ∑ c ∈ range 5, (f (9 + 5 * r + c + k)).toNat =
      ∑ c ∈ range 5, (f (9 + 5 * r + (k + c))).toNat :=
    sum_congr rfl fun c _ => congrArg (fun n => (f n).toNat) (by omega)
  have hnext : rowStart f k (r + 1) = ∑ c ∈ range k, (f (9 + 5 * r + (5 + c))).toNat :=
    sum_congr rfl fun c _ => congrArg (fun n => (f n).toNat) (by omega)
  rw [Nat.add_comm 5 k] at hright
  rw [hmoved, hnext, ← hright, hleft, rowStart, Nat.add_comm]

theorem sum_rowStart_even (hf : EmFrame f) (hk : k ≤ 4) :
    (∑ r ∈ range 11, rowStart f k r) % 2 = 0 := by
  unfold rowStart
  rw [sum_comm, sum_nat_mod, sum_congr rfl fun j hj =>
    hf.column j (lt_of_lt_of_le (mem_range.mp hj) hk)]
  simp

section Overlap

variable (hf : EmFrame f) (hg : EmFrame g) (hk1 : 1 ≤ k) (hk : k ≤ 63)
  (h : ∀ n, n + k < 64 → g n = f (n + k))

include hf hg hk1 hk h

theorem overlap_le_four : k ≤ 4 := by
  rcases Nat.lt_or_ge k 55 with hlt | hge
  · refine hf.nine_ones hlt.le fun i hi => ?_
    rw [Nat.add_comm, ← h i (by omega)]
    exact hg.header i hi
  · have hlast := h (63 - k) (by omega)
    rw [hg.header _ (by omega), (by omega : 63 - k + k = 63), hf.stop] at hlast
    cases hlast

theorem overlap_rowStart {r : ℕ} (hr : r ≤ 10) : rowStart f k r % 2 = k % 2 := by
  have hk4 := overlap_le_four hf hg hk1 hk h
  induction r with
  | zero =>
    have hones : ∀ j ∈ range k, (f (9 + 5 * 0 + j)).toNat = 1 := by
      intro j hj
      have hj' := mem_range.mp hj
      have hbit := h (9 + j - k) (by omega)
      rw [hg.header _ (by omega)] at hbit
      rw [(by omega : 9 + 5 * 0 + j = 9 + j - k + k), ← hbit]
      rfl
    rw [rowStart, sum_congr rfl hones]
    simp
  | succ r ih =>
    have hshift := sum_row_shift (f := f) (k := k) r
    have hmoved : ∑ c ∈ range 5, (f (9 + 5 * r + c + k)).toNat =
        ∑ c ∈ range 5, (g (9 + 5 * r + c)).toNat :=
      sum_congr rfl fun c hc => congrArg Bool.toNat
        (h _ (by have := mem_range.mp hc; omega)).symm
    have hrow := hf.row r (by omega)
    have hrow' := hg.row r (by omega)
    have hprev := ih (by omega)
    rw [hmoved] at hshift
    omega

theorem overlap_even : k = 2 ∨ k = 4 := by
  have hk4 := overlap_le_four hf hg hk1 hk h
  have heven := sum_rowStart_even hf hk4
  rw [sum_nat_mod, sum_congr rfl fun r hr =>
    overlap_rowStart hf hg hk1 hk h (Nat.lt_succ_iff.mp (mem_range.mp hr))] at heven
  rw [sum_const, card_range, nsmul_eq_mul] at heven
  rcases (by omega : k = 1 ∨ k = 2 ∨ k = 3 ∨ k = 4) with rfl | hk | rfl | hk
  · cases heven
  · exact .inl hk
  · cases heven
  · exact .inr hk

theorem overlap_slips : Slips f k where
  ones j hj := by
    have hk4 := overlap_le_four hf hg hk1 hk h
    have hbit := h (9 + j - k) (by omega)
    rwa [hg.header _ (by omega), (by omega : 9 + j - k + k = 9 + j), eq_comm] at hbit
  rows r hr := by
    have hstart := overlap_rowStart hf hg hk1 hk h (Nat.le_of_lt hr)
    have heven := overlap_even hf hg hk1 hk h
    omega
  parities := by
    have heven := overlap_even hf hg hk1 hk h
    have hcol := hg.column (4 - k) (by omega)
    rw [sum_congr rfl fun r hr => congrArg Bool.toNat
      ((h _ (by have := mem_range.mp hr; omega)).trans
        (congrArg f (by omega : 9 + 5 * r + (4 - k) + k = 9 + 5 * r + 4))), sum_range_succ] at hcol
    rw [(by rfl : 9 + 5 * 10 + 4 = 63), hf.stop, Bool.toNat_false, Nat.add_zero] at hcol
    exact hcol

theorem overlap_last : g 62 = true := by
  have heven := overlap_even hf hg hk1 hk h
  have hslips := overlap_slips hf hg hk1 hk h
  have hcol := hg.column 3 (by decide)
  have hcolf := hf.column (k - 2) (by omega)
  rw [sum_range_succ] at hcol
  rw [sum_range_succ', (by omega : 9 + 5 * 0 + (k - 2) = 9 + (k - 2)),
    hslips.ones _ (by omega)] at hcolf
  rw [sum_congr rfl fun r hr => congrArg Bool.toNat
    ((h _ (by have := mem_range.mp hr; omega)).trans
      (congrArg f (by omega : 9 + 5 * r + 3 + k = 9 + 5 * (r + 1) + (k - 2))))] at hcol
  rcases hlast : g 62 with _ | _
  · rw [(by rfl : 9 + 5 * 10 + 3 = 62), hlast] at hcol
    simp only [Bool.toNat_true, Bool.toNat_false] at hcol hcolf
    omega
  · rfl

end Overlap

theorem Slips.emFrame (hs : Slips f k) (hf : EmFrame f) (hk : k = 2 ∨ k = 4)
    (h : ∀ n, n + k < 64 → g n = f (n + k)) (hones : ∀ n, 64 ≤ n + k → n < 63 → g n = true)
    (hstop : g 63 = false) : EmFrame g where
  header n hn := by
    rw [h n (by omega)]
    rcases Nat.lt_or_ge (n + k) 9 with hlt | hge
    · exact hf.header _ hlt
    · rw [(by omega : n + k = 9 + (n + k - 9))]
      exact hs.ones _ (by omega)
  row r hr := by
    have hshift := sum_row_shift (f := f) (k := k) r
    have hrow := hf.row r hr
    have hstart := hs.rows r hr
    have hnext : rowStart f k (r + 1) % 2 = 0 := by
      rcases Nat.lt_or_ge (r + 1) 10 with hlt | hge
      · exact hs.rows _ hlt
      · obtain rfl : r = 9 := by omega
        have hall := sum_rowStart_even hf (by omega : k ≤ 4)
        rw [sum_range_succ, Nat.add_mod, sum_nat_mod,
          sum_congr rfl fun r hr => hs.rows r (mem_range.mp hr)] at hall
        simpa using hall
    have hmoved : ∑ c ∈ range 5, (f (9 + 5 * r + c + k)).toNat =
        ∑ c ∈ range 5, (g (9 + 5 * r + c)).toNat :=
      sum_congr rfl fun c hc => congrArg Bool.toNat
        (h _ (by have := mem_range.mp hc; omega)).symm
    rw [hmoved] at hshift
    omega
  column c hc := by
    rcases Nat.lt_trichotomy (c + k) 4 with hlt | heq | hgt
    · have hcol := hf.column (c + k) hlt
      rw [sum_congr rfl fun r hr => congrArg Bool.toNat
        ((h (9 + 5 * r + c) (by have := mem_range.mp hr; omega)).trans
          (congrArg f (Nat.add_assoc _ _ _)))]
      exact hcol
    · rw [sum_congr rfl fun r hr => congrArg Bool.toNat
        ((h _ (by have := mem_range.mp hr; omega)).trans
          (congrArg f (by omega : 9 + 5 * r + c + k = 9 + 5 * r + 4))), sum_range_succ,
        (by rfl : 9 + 5 * 10 + 4 = 63), hf.stop, Bool.toNat_false, Nat.add_zero]
      exact hs.parities
    · have hcol := hf.column (c + k - 5) (by omega)
      rw [sum_range_succ', (by omega : 9 + 5 * 0 + (c + k - 5) = 9 + (c + k - 5)),
        hs.ones _ (by omega)] at hcol
      rw [sum_range_succ, hones (9 + 5 * 10 + c) (by omega) (by omega),
        sum_congr rfl fun r hr => congrArg Bool.toNat
          ((h _ (by have := mem_range.mp hr; omega)).trans
            (congrArg f (by omega : 9 + 5 * r + c + k = 9 + 5 * (r + 1) + (c + k - 5))))]
      exact hcol
  stop := hstop

theorem EmFrame.rotated (hf : EmFrame f) (hg : EmFrame g) {r : ℕ} (hr : r < 64)
    (h : ∀ n < 64, g n = f ((r + n) % 64)) : ∀ n < 64, g n = f n := by
  intro n hn
  rcases Nat.eq_zero_or_pos r with rfl | hpos
  · rw [h n hn, Nat.zero_add, Nat.mod_eq_of_lt hn]
  · have hoverlap : ∀ n, n + r < 64 → g n = f (n + r) := by
      intro n hn
      rw [h n (by omega), Nat.add_comm, Nat.mod_eq_of_lt hn]
    have heven := overlap_even hf hg hpos (by omega) hoverlap
    have hlast := h 63 (by decide)
    rw [hg.stop, (by omega : (r + 63) % 64 = r - 1), hf.header _ (by omega)] at hlast
    cases hlast

/-- Ones before a part of the stream of a frame make no other frame, when there the stream has a one
after as many zeros. -/
theorem EmFrame.after_ones (hf : EmFrame f) (hg : EmFrame g) {t c : ℕ} (ht : 64 ≤ t)
    (ht' : t < 128) (hc : 1 ≤ c) (hones : ∀ i < c, g i = true)
    (h : ∀ j, c + j < 64 → g (c + j) = f ((t + j) % 64)) (hone : f ((t - 1) % 64) = true)
    (hzeros : ∀ i ≤ c, f ((t - 2 - i) % 64) = false) : ∀ n < 64, g n = f n := by
  have hc63 : c ≤ 63 := by
    by_contra hgt
    have hlast := hones 63 (by omega)
    rw [hg.stop] at hlast
    cases hlast
  rcases Nat.lt_or_ge t 66 with hlt | hge
  · rcases Nat.lt_or_ge t 65 with hlt | hge
    · rw [(by omega : (t - 1) % 64 = 63), hf.stop] at hone
      cases hone
    obtain rfl : t = 65 := by omega
    have hlast : f 62 = false := hzeros 1 hc
    rcases Nat.lt_or_ge c 2 with hlt | hge
    · obtain rfl : c = 1 := by omega
      intro n hn
      rcases n with _ | n
      · rw [hones 0 (by decide), hf.header 0 (by decide)]
      · rw [Nat.add_comm, h n (by omega), (by omega : (65 + n) % 64 = 1 + n)]
    · have hoverlap : ∀ n, n + (c - 1) < 64 → f n = g (n + (c - 1)) := by
        intro n hn
        rcases n with _ | n
        · rw [hf.header 0 (by decide), hones _ (by omega)]
        · rw [(by omega : n + 1 + (c - 1) = c + n), h n (by omega),
            (by omega : (65 + n) % 64 = n + 1)]
      have hone := overlap_last hg hf (by omega) (by omega) hoverlap
      rw [hlast] at hone
      cases hone
  rcases Nat.lt_or_ge (c + 128) (t + 64) with hlt | hge'
  · rcases Nat.lt_or_ge (c + 128) (t + 56) with hlt' | hge'
    · have hfour : c + (128 - t) ≤ 4 := by
        refine hg.nine_ones (by omega) fun i hi => ?_
        rw [Nat.add_assoc, h _ (by omega), (by omega : (t + (128 - t + i)) % 64 = i)]
        exact hf.header i hi
      have hstop := h (127 - t) (by omega)
      rw [hg.header _ (by omega), (by omega : (t + (127 - t)) % 64 = 63), hf.stop] at hstop
      cases hstop
    · have hstop := h (63 - c) (by omega)
      rw [(by omega : c + (63 - c) = 63), hg.stop, hf.header _ (by omega)] at hstop
      cases hstop
  · have hzero := hzeros (t - 66) (by omega)
    rw [(by omega : (t - 2 - (t - 66)) % 64 = 0), hf.header 0 (by decide)] at hzero
    cases hzero

theorem EmFrame.not_periodic (hf : EmFrame f) (hk : k = 2 ∨ k = 4) :
    ¬∀ n, n + k < 64 → f n = f (n + k) := by
  intro h
  have hback : ∀ m, m * k ≤ 63 → f (63 - m * k) = false := by
    intro m hm
    induction m with
    | zero => simpa using hf.stop
    | succ m ih =>
      have hmul : (m + 1) * k = m * k + k := Nat.succ_mul m k
      rw [h _ (by omega), (by omega : 63 - (m + 1) * k + k = 63 - m * k)]
      exact ih (by omega)
  have hone : f 7 = true := hf.header 7 (by decide)
  rcases hk with rfl | rfl
  · rw [hback 28 (by decide)] at hone
    cases hone
  · rw [hback 14 (by decide)] at hone
    cases hone

end FlipperZero.LfRfid
