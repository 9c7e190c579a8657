/-
The digits of a double lie in its interval.

The search for the fewest digits of a double goes through decimal grids,
from coarse to fine, and compares whole numbers (`Number/Shortest.lean`).
Here they are read as what they stand for: a point that a grid holds for
a double is a rational number that is rounded to the double
(`roundsTo_of_holds`).

The search is bounded, and after the last grid it takes the point below
the value without a test. This point too is rounded to the double, since
the last grid has steps of less than a quarter of a unit: the first digit
of the number stands at the decimal point that the search starts from
(`decimalPoint_le`), and seventeen places behind it are finer than the
fifty-three bits of a mantissa. So the digits always name the double that
they are made from (`shortest_roundsTo`), whichever grid they come from.
-/
import Mathlib.Data.Nat.Cast.Order.Field
import BisayaPlus.Number.Layout
import BisayaPlus.Proofs.Doubles

namespace BisayaPlus.Number

variable {m n : ℕ} {q e : ℤ}

-- =========================================================== one grid

namespace Grid

/-- What a quarter of a unit of the mantissa measures on a grid; with the
unit of the grid it is a ratio of whole numbers. -/
def scale (q e : ℤ) : ℕ := Nat.pow 2 (q - 2).toNat * Nat.pow 10 (-e).toNat

theorem scale_pos (q e : ℤ) : (0 : ℚ) < scale q e := by
  have : 0 < scale q e :=
    Nat.mul_pos (Nat.pow_pos two_pos) (Nat.pow_pos (by decide))
  exact_mod_cast this

theorem of_value (m : ℕ) (q e : ℤ) :
    (Grid.of m q e).value = 4 * m * scale q e := rfl

theorem of_low (m : ℕ) (q e : ℤ) :
    (Grid.of m q e).low = (4 * m - quartersBelow m q) * scale q e := rfl

theorem of_high (m : ℕ) (q e : ℤ) :
    (Grid.of m q e).high = (4 * m + 2) * scale q e := rfl

/-- A grid point in units of the mantissa. -/
theorem point_eq (m n : ℕ) (q e : ℤ) :
    (n * (Grid.of m q e).unit : ℕ)
      = 4 * (n * 10 ^ e / 2 ^ q) * (scale q e : ℚ) := by
  show ((n * (2 ^ (2 - q).toNat * 10 ^ e.toNat) : ℕ) : ℚ)
    = 4 * (n * 10 ^ e / 2 ^ q)
      * ((2 ^ (q - 2).toNat * 10 ^ (-e).toNat : ℕ) : ℚ)
  have htwo : (2 : ℚ) ^ q = 4 * (2 ^ (q - 2).toNat / 2 ^ (2 - q).toNat) := by
    have hsub := zpow_eq_div (two_ne_zero : (2 : ℚ) ≠ 0) (q - 2)
    rw [neg_sub] at hsub
    rw [← hsub, zpow_sub₀ two_ne_zero]
    show (2 : ℚ) ^ q = 4 * (2 ^ q / 2 ^ 2)
    ring
  rw [htwo, zpow_eq_div (by norm_num : (10 : ℚ) ≠ 0) e]
  push_cast
  field_simp

theorem four_sub_cast (hm : 0 < m) (q : ℤ) :
    ((4 * m - quartersBelow m q : ℕ) : ℚ) = 4 * m - quartersBelow m q := by
  have hbelow : quartersBelow m q ≤ 2 := by
    exact_mod_cast (quartersBelow_bounds m q).2
  rw [Nat.cast_sub (by omega)]
  push_cast
  rfl

/-- A point of the grid is above a multiple of a quarter if the decimal is.
-/
theorem le_point_iff (m n a : ℕ) (q e : ℤ) :
    a * scale q e ≤ n * (Grid.of m q e).unit
      ↔ (a : ℚ) ≤ 4 * (n * 10 ^ e / 2 ^ q) := by
  rw [← mul_le_mul_iff_of_pos_right (scale_pos q e), ← point_eq m n q e]
  exact_mod_cast Iff.rfl

/-- It is below one if the decimal is. -/
theorem point_le_iff (m n a : ℕ) (q e : ℤ) :
    n * (Grid.of m q e).unit ≤ a * scale q e
      ↔ 4 * (n * 10 ^ e / 2 ^ q) ≤ (a : ℚ) := by
  rw [← mul_le_mul_iff_of_pos_right (scale_pos q e), ← point_eq m n q e]
  exact_mod_cast Iff.rfl

/-- What a grid holds for the value is rounded to the value. -/
theorem roundsTo_of_holds (hm : 0 < m) (h : (Grid.of m q e).holds n = true) :
    RoundsTo (n * 10 ^ e) m q := by
  have hlow := four_sub_cast hm q
  have hhigh : ((4 * m + 2 : ℕ) : ℚ) = 4 * m + 2 := by push_cast; rfl
  have hclosed : (Grid.of m q e).closed = (m % 2 == 0) := rfl
  unfold holds at h
  rw [hclosed, of_low, of_high] at h
  by_cases heven : m % 2 = 0
  · rw [if_pos (beq_iff_eq.2 heven)] at h
    simp only [Bool.and_eq_true, decide_eq_true_eq, le_point_iff, point_le_iff,
      hlow, hhigh] at h
    exact ⟨by linarith [h.1], by linarith [h.2], fun _ => heven⟩
  · rw [if_neg (by simpa using heven)] at h
    simp only [Bool.and_eq_true, decide_eq_true_eq, ← not_le, le_point_iff,
      point_le_iff, hlow, hhigh] at h
    simp only [not_le] at h
    refine ⟨by linarith [h.1], by linarith [h.2], ?_⟩
    rintro (heq | heq)
    · linarith [h.1]
    · linarith [h.2]

/-- The nearer of two points is one of them. -/
theorem nearer_cases (tie : Tie) (g : Grid) (n : ℕ) :
    g.nearer tie n = n ∨ g.nearer tie n = n + 1 := by
  unfold nearer
  split
  · exact .inl rfl
  · exact .inr rfl
  · exact .inr rfl
  · omega

/-- What is chosen is in the interval. -/
theorem holds_of_choose {tie : Tie} {g : Grid} (h : g.choose tie = some n) :
    g.holds n = true := by
  unfold choose at h
  dsimp only at h
  split at h
  next hfirst hsecond =>
    cases h
    rcases nearer_cases tie g (g.value / g.unit) with heq | heq
    · rw [heq]
      exact hfirst
    · rw [heq]
      exact hsecond
  next hfirst _ =>
    cases h
    exact hfirst
  next _ hsecond =>
    cases h
    exact hsecond
  next => cases h

theorem unit_pos (m : ℕ) (q e : ℤ) : 0 < (Grid.of m q e).unit :=
  Nat.mul_pos (Nat.pow_pos two_pos) (Nat.pow_pos (by decide))

/-- On a fine grid the point below the value is rounded to the value. -/
theorem roundsTo_floor (m : ℕ) (he : (10 : ℚ) ^ e / 2 ^ q ≤ 1 / 4) :
    RoundsTo (((Grid.of m q e).value / (Grid.of m q e).unit : ℕ) * 10 ^ e)
      m q := by
  have hdiv := Nat.div_mul_le_self (Grid.of m q e).value (Grid.of m q e).unit
  have hnext := (Nat.div_lt_iff_lt_mul (unit_pos m q e)).1
    (Nat.lt_succ_self ((Grid.of m q e).value / (Grid.of m q e).unit))
  generalize (Grid.of m q e).value / (Grid.of m q e).unit = n at hdiv hnext ⊢
  rw [of_value, point_le_iff] at hdiv
  rw [of_value, ← not_le, point_le_iff] at hnext
  push_cast at hdiv hnext
  obtain ⟨hbelow, -⟩ := quartersBelow_bounds m q
  have hstep : ((n : ℚ) + 1) * 10 ^ e / 2 ^ q
      = n * 10 ^ e / 2 ^ q + 10 ^ e / 2 ^ q := by
    rw [add_mul, add_div, one_mul]
  rw [hstep] at hnext
  refine ⟨by linarith, by linarith, ?_⟩
  rintro (heq | heq) <;> linarith

end Grid

-- ================================================== from coarse to fine

/-- The digits that a search from coarse to fine comes to are rounded to
the value, if the last grid is fine. -/
theorem refine_roundsTo (tie : Tie) (hm : 0 < m) (grids : ℕ) (e : ℤ)
    (hfine : (10 : ℚ) ^ (e - grids) / 2 ^ q ≤ 1 / 4) :
    ∃ n e', refine tie m q grids e = Digits.ofScaled n e'
      ∧ RoundsTo (n * 10 ^ e') m q := by
  induction grids generalizing e with
  | zero =>
      rw [Nat.cast_zero, sub_zero] at hfine
      exact ⟨_, _, rfl, Grid.roundsTo_floor m hfine⟩
  | succ grids ih =>
      rw [refine]
      split
      next n hchoose =>
        exact ⟨n, e, rfl,
          Grid.roundsTo_of_holds hm (Grid.holds_of_choose hchoose)⟩
      next =>
        refine ih (e - 1) ?_
        rwa [sub_sub, add_comm 1, ← Nat.cast_succ]

/-- A whole number is not below the power of ten of its first digit. -/
theorem toDigits_length_le (hn : 0 < n) :
    (10 : ℚ) ^ (((Nat.toDigits 10 n).length : ℤ) - 1) ≤ n := by
  have hlength : 0 < (Nat.toDigits 10 n).length :=
    List.length_pos_iff.2 Nat.toDigits_ne_nil
  obtain ⟨k, hk⟩ := Nat.exists_eq_succ_of_ne_zero hlength.ne'
  have hle : 10 ^ k ≤ n := by
    rcases Nat.eq_zero_or_pos k with rfl | hpos
    · exact hn
    · by_contra hlt
      have := (Nat.length_toDigits_le_iff (by decide) hpos).2 (not_le.1 hlt)
      omega
  rw [hk, Nat.cast_succ, add_sub_cancel_right, zpow_natCast]
  exact_mod_cast hle

/-- Digits of a number can be counted where it is raised. -/
theorem toDigits_raised_le {k j : ℕ} (h : 0 < m * Nat.pow 10 k / Nat.pow 2 j) :
    (10 : ℚ) ^ (((Nat.toDigits 10 (m * Nat.pow 10 k / Nat.pow 2 j)).length : ℤ)
      - k - 1)
      ≤ m / 2 ^ j := by
  rw [sub_right_comm, zpow_sub₀ (by norm_num), zpow_natCast,
    div_le_iff₀ (by positivity)]
  refine ((toDigits_length_le h).trans Nat.cast_div_le).trans_eq ?_
  show ((m * 10 ^ k : ℕ) : ℚ) / (2 ^ j : ℕ) = _
  push_cast
  rw [mul_div_right_comm]

/-- Even the least double is above one when it is raised. -/
theorem raised_pos (hc : Canonical m q) :
    0 < m * Nat.pow 10 324 / Nat.pow 2 (-q).toNat := by
  have hleast : -1074 ≤ q := hc.least
  have hpow : ∀ k, k ≤ 1074 → Nat.pow 2 k ≤ Nat.pow 10 324 := by
    intro k hk
    refine (Nat.pow_le_pow_right two_pos hk).trans ?_
    decide +kernel
  refine Nat.div_pos ?_ (Nat.pow_pos two_pos)
  exact (hpow _ (by omega)).trans (Nat.le_mul_of_pos_left _ hc.pos)

/-- The decimal point of a number stands right behind its first digit or
further on. -/
theorem decimalPoint_le (hc : Canonical m q) :
    (10 : ℚ) ^ (decimalPoint m q - 1) ≤ m * 2 ^ q := by
  have hvalue : (m : ℚ) * 2 ^ q = m * 2 ^ q.toNat / 2 ^ (-q).toNat := by
    rw [zpow_eq_div two_ne_zero, mul_div_assoc]
  unfold decimalPoint
  dsimp only
  split
  next hwhole =>
    -- The number is below one, and its digits are counted where it is
    -- above one.
    have hq : q.toNat = 0 := by
      by_contra hne
      have hnonneg : (-q).toNat = 0 := by omega
      rw [hnonneg] at hwhole
      have hpos : 0 < m * Nat.pow 2 q.toNat :=
        Nat.mul_pos hc.pos (Nat.pow_pos two_pos)
      exact hpos.ne' ((Nat.div_one _).symm.trans hwhole)
    rw [hvalue, hq, pow_zero, mul_one]
    have hraised := toDigits_raised_le (raised_pos hc)
    rw [Nat.cast_ofNat] at hraised
    exact hraised
  next hwhole =>
    refine (toDigits_length_le (Nat.pos_of_ne_zero hwhole)).trans
      (Nat.cast_div_le.trans ?_)
    rw [hvalue]
    show ((m * 2 ^ q.toNat : ℕ) : ℚ) / (2 ^ (-q).toNat : ℕ) ≤ _
    push_cast
    exact le_rfl

/-- The digits that are found for a double are rounded to it. -/
theorem shortest_roundsTo (tie : Tie) (hc : Canonical m q) :
    ∃ n e, shortest tie m q = Digits.ofScaled n e
      ∧ RoundsTo (n * 10 ^ e) m q := by
  have hpoint := decimalPoint_le hc
  have hm : (m : ℚ) ≤ 2 ^ 53 := by exact_mod_cast hc.lt.le
  refine refine_roundsTo tie hc.pos 17 _ ?_
  generalize decimalPoint m q - 1 = k at hpoint ⊢
  calc (10 : ℚ) ^ (k - (17 : ℕ)) / 2 ^ q = 10 ^ k / 10 ^ 17 / 2 ^ q := by
        rw [zpow_sub₀ (by norm_num), zpow_natCast]
    _ ≤ m * 2 ^ q / 10 ^ 17 / 2 ^ q := by gcongr
    _ = m / 10 ^ 17 := by field_simp
    _ ≤ 2 ^ 53 / 10 ^ 17 := by gcongr
    _ ≤ 1 / 4 := by norm_num

end BisayaPlus.Number
