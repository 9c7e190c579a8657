/-
Rounding to the nearest double.

The arithmetic of doubles works out a result to a mantissa that is cut
off, with a note of what was lost: nothing, less than half a unit, half a
unit, or more. It shifts the mantissa to the width of a double, rounds it
by the note, and shifts once more where rounding has carried out of that
width.

The digits of a double are found by the interval of the numbers that are
rounded to it (`Number/Shortest.lean`). This module shows that the
interval is the right one: `RoundsTo` says in rational numbers what it
is, and whatever lies in it is rounded to its double, when it comes as a
cut-off mantissa (`roundWithAccuracy_eq`), as a product (`mul_eq`) or as
a quotient (`div_eq`). The interval has one odd end. Below the least
mantissa of a binade the doubles are twice as dense, so only a quarter of
a unit rounds up; such a number is first rounded at the finer width, and
this is the one case in which the second shift does anything.
-/
import Mathlib.Algebra.Order.Field.Power
import Mathlib.Tactic.FieldSimp
import Mathlib.Tactic.Linarith
import Mathlib.Tactic.Ring
import BisayaPlus.Number.Dyadic

namespace BisayaPlus.Number

open Float.Model Float.Model.UnpackedFloat

-- ==================================================== cut-off mantissas

/-- Where a number lies from a whole number on, before the next one: at
it, before the middle, in the middle or behind it. -/
def Lies (x : ℚ) (m : ℕ) : Accuracy → Prop
  | .exact => x = m
  | .inexact .lt => m < x ∧ x < m + 1 / 2
  | .inexact .eq => x = m + 1 / 2
  | .inexact .gt => m + 1 / 2 < x ∧ x < m + 1

variable {x : ℚ} {m : ℕ} {acc : Accuracy} {em : ExtendedMantissa}

/-- A number that is not the mantissa lies above it. -/
theorem Lies.between (h : Lies x m acc) (hacc : acc ≠ .exact) :
    m < x ∧ x < m + 1 := by
  rcases acc with _ | order
  · exact absurd rfl hacc
  · cases order with
    | lt => exact ⟨h.1, by linarith [h.2]⟩
    | eq =>
        have hx : x = m + 1 / 2 := h
        exact ⟨by linarith, by linarith⟩
    | gt => exact ⟨by linarith [h.1], h.2⟩

/-- The mantissa is the whole part of the number. -/
theorem Lies.floor (h : Lies x m acc) : m ≤ x ∧ x < m + 1 := by
  by_cases hacc : acc = .exact
  · subst hacc
    have hx : x = m := h
    exact ⟨hx.ge, by linarith⟩
  · exact ⟨(h.between hacc).1.le, (h.between hacc).2⟩

/-- Rounding a number that is cut off gives the whole number that is
nearest to it; in the middle, the even one. -/
theorem Lies.round (h : Lies x m acc) {n : ℕ} (hlow : (n : ℚ) - 1 / 2 ≤ x)
    (hhigh : x ≤ n + 1 / 2)
    (htie : x = n - 1 / 2 ∨ x = n + 1 / 2 → n % 2 = 0) :
    acc.roundToNearestEven m = n := by
  rcases acc with _ | order
  · have hx : x = m := h
    show m = n
    have h₁ : (n : ℚ) < m + 1 := by linarith
    have h₂ : (m : ℚ) < n + 1 := by linarith
    norm_cast at h₁ h₂
    omega
  · cases order with
    | lt =>
        obtain ⟨hm, hx⟩ := h
        show m = n
        have h₁ : (n : ℚ) < m + 1 := by linarith
        have h₂ : (m : ℚ) < n + 1 := by linarith
        norm_cast at h₁ h₂
        omega
    | eq =>
        have hx : x = m + 1 / 2 := h
        show m + m % 2 = n
        have h₁ : (n : ℚ) ≤ m + 1 := by linarith
        have h₂ : (m : ℚ) ≤ n := by linarith
        norm_cast at h₁ h₂
        rcases Nat.lt_or_ge m n with hlt | hge
        · obtain rfl : n = m + 1 := by omega
          have := htie (.inl (by rw [hx]; push_cast; ring))
          omega
        · obtain rfl : n = m := by omega
          have := htie (.inr hx)
          omega
    | gt =>
        obtain ⟨hm, hx⟩ := h
        show m + 1 = n
        have h₁ : (n : ℚ) < m + 2 := by linarith
        have h₂ : (m : ℚ) < n := by linarith
        norm_cast at h₁ h₂
        omega

/-- What a mantissa with the two bits behind it stands for. -/
def Stands (x : ℚ) (em : ExtendedMantissa) : Prop :=
  Lies x em.mantissa em.accuracy

/-- Where a number lies is kept in two further bits. -/
theorem stands_of_lies (h : Lies x m acc) :
    Stands x (.ofMantissaAndAccuracy m acc) := by
  rcases acc with _ | order
  · exact h
  · cases order <;> exact h

/-- Bits behind the mantissa tell whether anything was cut off. -/
theorem Stands.cases (h : Stands x em) :
    ((em.roundBit || em.stickyBit) = false ∧ x = em.mantissa)
      ∨ ((em.roundBit || em.stickyBit) = true ∧ em.mantissa < x
        ∧ x < em.mantissa + 1) := by
  obtain ⟨m, _ | _, _ | _⟩ := em
  · exact .inl ⟨rfl, h⟩
  · exact .inr ⟨rfl, h.between (by rintro ⟨⟩)⟩
  · exact .inr ⟨rfl, h.between (by rintro ⟨⟩)⟩
  · exact .inr ⟨rfl, h.between (by rintro ⟨⟩)⟩

/-- Moving down by one halves the number; what falls out is remembered. -/
theorem Stands.shiftRightOne (h : Stands x em) :
    Stands (x / 2) em.shiftRightOne := by
  have hcases := h.cases
  obtain ⟨m, r, s⟩ := em
  show Lies (x / 2) (m / 2)
    (ExtendedMantissa.accuracy ⟨m / 2, m % 2 != 0, r || s⟩)
  obtain ⟨k, rfl | rfl⟩ := Nat.even_or_odd' m
  · have hhalf : 2 * k / 2 = k := by omega
    have hbit : (2 * k % 2 != 0) = false := by simp
    rw [hhalf, hbit]
    push_cast at hcases
    rcases hcases with ⟨hbits, hx⟩ | ⟨hbits, hlow, hhigh⟩
    · rw [hbits]
      show x / 2 = k
      linarith
    · rw [hbits]
      exact ⟨by linarith, by linarith⟩
  · have hhalf : (2 * k + 1) / 2 = k := by omega
    have hbit : ((2 * k + 1) % 2 != 0) = true := by simp
    rw [hhalf, hbit]
    push_cast at hcases
    rcases hcases with ⟨hbits, hx⟩ | ⟨hbits, hlow, hhigh⟩
    · rw [hbits]
      show x / 2 = k + 1 / 2
      linarith
    · rw [hbits]
      exact ⟨by linarith, by linarith⟩

/-- Moving down further halves it as often. -/
theorem Stands.shiftRight (h : Stands x em) (n : ℕ) :
    Stands (x / 2 ^ n) (em >>> n) := by
  induction n with
  | zero =>
      rw [pow_zero, div_one]
      exact h
  | succ n ih =>
      rw [pow_succ, ← div_div]
      exact ih.shiftRightOne

/-- Rounding finds the nearest whole number, and the even one of two. -/
theorem Stands.round (h : Stands x em) {n : ℕ} (hlow : (n : ℚ) - 1 / 2 ≤ x)
    (hhigh : x ≤ n + 1 / 2)
    (htie : x = n - 1 / 2 ∨ x = n + 1 / 2 → n % 2 = 0) :
    em.roundedMantissa = n :=
  Lies.round h hlow hhigh htie

-- ================================================ the rounding interval

/-- How many quarters of a unit below `m * 2 ^ q` are rounded up to it: two,
but one below the least mantissa of a binade. -/
def quartersBelow (m : ℕ) (q : ℤ) : ℕ :=
  if m = Nat.pow 2 52 ∧ q ≠ Dyadic.leastExponent then 1 else 2

/-- The numbers that are rounded to `m * 2 ^ q`, counted in its units. -/
structure RoundsTo (x : ℚ) (m : ℕ) (q : ℤ) : Prop where
  low : m - quartersBelow m q / 4 ≤ x / 2 ^ q
  high : x / 2 ^ q ≤ m + 1 / 2
  tie : x / 2 ^ q = m - quartersBelow m q / 4 ∨ x / 2 ^ q = m + 1 / 2 →
    m % 2 = 0

/-- The mantissa and the exponent of a finite double that is not zero. -/
structure Canonical (m : ℕ) (q : ℤ) : Prop where
  pos : 0 < m
  lt : m < 2 ^ 53
  least : Dyadic.leastExponent ≤ q
  most : q ≤ 971
  normal : 2 ^ 52 ≤ m ∨ q = Dyadic.leastExponent

variable {e q : ℤ} {n : ℕ} {s : Sign}

theorem quartersBelow_cases (n : ℕ) (q : ℤ) :
    (n = 2 ^ 52 ∧ q ≠ Dyadic.leastExponent ∧ quartersBelow n q = 1)
      ∨ (¬(n = 2 ^ 52 ∧ q ≠ Dyadic.leastExponent)
        ∧ quartersBelow n q = 2) := by
  by_cases h : n = 2 ^ 52 ∧ q ≠ Dyadic.leastExponent
  · exact .inl ⟨h.1, h.2, if_pos h⟩
  · exact .inr ⟨h, if_neg h⟩

/-- The interval below a double is one or two quarters wide. -/
theorem quartersBelow_bounds (n : ℕ) (q : ℤ) :
    (1 : ℚ) ≤ quartersBelow n q ∧ (quartersBelow n q : ℚ) ≤ 2 := by
  rcases quartersBelow_cases n q with ⟨-, -, h⟩ | ⟨-, h⟩
  · rw [h]
    norm_num
  · rw [h]
    norm_num

/-- A double is in its own interval. -/
theorem roundsTo_self (n : ℕ) (q : ℤ) : RoundsTo (n * 2 ^ q) n q := by
  have hself : (n : ℚ) * 2 ^ q / 2 ^ q = n := by field_simp
  obtain ⟨hbelow, -⟩ := quartersBelow_bounds n q
  constructor <;> rw [hself]
  · linarith
  · linarith
  · rintro (h | h) <;> linarith

/-- Half a unit is the least that is not rounded to zero. -/
theorem RoundsTo.half_le (hx : RoundsTo x n q) (hn : 0 < n) :
    2 ^ q / 2 ≤ x := by
  have hn' : (1 : ℚ) ≤ n := by exact_mod_cast hn
  obtain ⟨-, hbelow⟩ := quartersBelow_bounds n q
  have hlow : 1 / 2 ≤ x / 2 ^ q := by linarith [hx.low]
  rw [le_div_iff₀ (by positivity)] at hlow
  linarith

/-- The interval of a double above zero is above zero. -/
theorem RoundsTo.pos (hx : RoundsTo x n q) (hn : 0 < n) : 0 < x := by
  have hpow : (0 : ℚ) < 2 ^ q := by positivity
  linarith [hx.half_le hn]

/-- The exponent to which a mantissa is shifted before it is rounded. -/
def target (m : ℕ) (e : ℤ) : ℤ :=
  Format.binary64.targetExponent (totalExponent m e)

theorem target_eq (m : ℕ) (e : ℤ) : target m e = max (m.log2 + 1 + e - 53)
    (-1074) := rfl

/-- A number of the full width in units of `q` is not shifted below `q`. -/
theorem Lies.le_target (h : Lies (x / 2 ^ e) m acc) (he : e ≤ target m e)
    (hx : 2 ^ 52 ≤ x / 2 ^ q) : q ≤ target m e := by
  by_cases hlt : 52 + q < e
  · omega
  · obtain ⟨k, hk⟩ := Int.le.dest (not_lt.1 hlt)
    have hpow : (2 : ℚ) ^ k ≤ x / 2 ^ e := by
      rw [le_div_iff₀ (by positivity)] at hx ⊢
      calc (2 : ℚ) ^ k * 2 ^ e = 2 ^ (52 + q) := by
            rw [← zpow_natCast, ← zpow_add₀ two_ne_zero, add_comm, hk]
        _ = 2 ^ 52 * 2 ^ q := zpow_add₀ two_ne_zero 52 q
        _ ≤ x := hx
    have hm : (2 : ℚ) ^ k < m + 1 := hpow.trans_lt h.floor.2
    norm_cast at hm
    have hlog : k ≤ m.log2 :=
      (Nat.le_log2 (by have := Nat.two_pow_pos k; omega)).2 (by omega)
    rw [target_eq]
    omega

/-- A number of no more than the full width is not shifted above `q`. -/
theorem Lies.target_le (h : Lies (x / 2 ^ e) m acc) (he : e ≤ target m e)
    (hx : x / 2 ^ q < 2 ^ 53) (hq : Dyadic.leastExponent ≤ q) :
    target m e ≤ q := by
  have hleast : Dyadic.leastExponent = -1074 := rfl
  by_cases hm : m = 0
  · -- Without a leading bit the mantissa is far below the least exponent.
    subst hm
    have hlog : Nat.log2 0 = 0 := rfl
    rw [target_eq] at he ⊢
    omega
  · have hpow : (2 : ℚ) ^ (m.log2 : ℤ) < 2 ^ (53 + q - e) := by
      rw [div_lt_iff₀ (by positivity)] at hx
      calc (2 : ℚ) ^ (m.log2 : ℤ) = ((2 ^ m.log2 : ℕ) : ℚ) := by
            push_cast
            rw [zpow_natCast]
        _ ≤ m := by exact_mod_cast Nat.log2_self_le hm
        _ ≤ x / 2 ^ e := h.floor.1
        _ < 2 ^ 53 * 2 ^ q / 2 ^ e := by gcongr
        _ = 2 ^ (53 + q - e) := by
            rw [zpow_sub₀ two_ne_zero, zpow_add₀ two_ne_zero]
            rfl
    have hlog := (zpow_lt_zpow_iff_right₀ one_lt_two).1 hpow
    rw [target_eq]
    omega

theorem shiftToTargetExponent_eq (m : ℕ) (e : ℤ) (acc : Accuracy) :
    shiftToTargetExponent .binary64 m e acc
      = ((ExtendedMantissa.ofMantissaAndAccuracy m acc) >>>
        (target m e - e).toNat,
        e + (target m e - e).toNat) := rfl

/-- Moving down to the target keeps the number. -/
theorem shiftToTargetExponent_stands (h : Lies (x / 2 ^ e) m acc)
    (he : e ≤ target m e) :
    ∃ em, shiftToTargetExponent .binary64 m e acc = (em, target m e)
      ∧ Stands (x / 2 ^ target m e) em := by
  obtain ⟨k, hk⟩ := Int.le.dest he
  have hshift : (target m e - e).toNat = k := by omega
  refine ⟨(ExtendedMantissa.ofMantissaAndAccuracy m acc) >>> k, ?_, ?_⟩
  · rw [shiftToTargetExponent_eq, hshift, hk]
  · rw [← hk, zpow_add₀ two_ne_zero, zpow_natCast, ← div_div]
    exact (stands_of_lies h).shiftRight k

/-- What rounds to a double needs no more width than doubles have. -/
theorem RoundsTo.lt (hx : RoundsTo x n q) (hc : Canonical n q) :
    x / 2 ^ q < 2 ^ 53 := by
  have hn : (n : ℚ) + 1 ≤ 2 ^ 53 := by exact_mod_cast hc.lt
  linarith [hx.high]

/-- Rounding moves twice: the second time in case the first rounding
carried. -/
theorem roundWithAccuracy_of_shifts {t : ℤ} (em' : ExtendedMantissa)
    (hn : 0 < n) (hfirst : shiftToTargetExponent .binary64 m e acc = (em, t))
    (hsecond : shiftToTargetExponent .binary64 em.roundedMantissa t .exact
      = (em', q)) (hem' : em'.mantissa = n) :
    roundWithAccuracy .binary64 s m e acc = .finite s n q hn := by
  subst hem'
  unfold roundWithAccuracy
  rw [hfirst]
  dsimp only
  rw [hsecond]
  exact dif_neg hn.ne'

/-- A double is not moved down further. -/
theorem Canonical.target_le (hc : Canonical n q) : target n q ≤ q := by
  have hlog : n.log2 < 53 := (Nat.log2_lt hc.pos.ne').2 hc.lt
  have hleast : -1074 ≤ q := hc.least
  rw [target_eq]
  omega

theorem div_two_zpow_sub_one (x : ℚ) (q : ℤ) :
    x / 2 ^ (q - 1) = 2 * (x / 2 ^ q) := by
  rw [zpow_sub₀ two_ne_zero, zpow_one]
  field_simp

/-- The target of a number is the exponent of its double, but one less for
the numbers right below a binade that are rounded up into it. -/
theorem RoundsTo.target_cases (hx : RoundsTo x n q) (hc : Canonical n q)
    (h : Lies (x / 2 ^ e) m acc) (he : e ≤ target m e) :
    target m e = q
      ∨ (target m e = q - 1 ∧ n = 2 ^ 52 ∧ 2 ^ 52 - 1 / 4 ≤ x / 2 ^ q
        ∧ x / 2 ^ q < 2 ^ 52) := by
  have hle : target m e ≤ q := h.target_le he (hx.lt hc) hc.least
  by_cases hnear : x / 2 ^ q < 2 ^ 52
  · by_cases hq : q = Dyadic.leastExponent
    · subst hq
      exact .inl (le_antisymm hle (le_max_right _ _))
    have hlow := hx.low
    rcases quartersBelow_cases n q with ⟨rfl, -, hbelow⟩ | ⟨hn, hbelow⟩
    · rw [hbelow] at hlow
      push_cast at hlow
      have hsub := div_two_zpow_sub_one x q
      have hleast : Dyadic.leastExponent ≤ q - 1 := by
        have := hc.least
        omega
      have hge : q - 1 ≤ target m e := h.le_target he (by linarith)
      have hlt : target m e ≤ q - 1 := h.target_le he (by linarith) hleast
      exact .inr ⟨le_antisymm hlt hge, rfl, hlow, hnear⟩
    · -- What is rounded to a mantissa above the least of its binade is in
      -- the binade.
      have hgt : 2 ^ 52 + 1 ≤ n := by
        have hne : n ≠ 2 ^ 52 := fun heq => hn ⟨heq, hq⟩
        have := hc.normal.resolve_right hq
        omega
      have hgt' : (2 : ℚ) ^ 52 + 1 ≤ n := by exact_mod_cast hgt
      rw [hbelow] at hlow
      push_cast at hlow
      linarith
  · exact .inl (le_antisymm hle (h.le_target he (not_lt.1 hnear)))

/-- A number in the interval of a double is rounded to its mantissa. -/
theorem RoundsTo.round (hx : RoundsTo x n q) (h : Stands (x / 2 ^ q) em) :
    em.roundedMantissa = n := by
  have hlow := hx.low
  have htie := hx.tie
  rcases quartersBelow_cases n q with ⟨-, -, hbelow⟩ | ⟨-, hbelow⟩
  · rw [hbelow] at hlow htie
    push_cast at hlow htie
    refine h.round (by linarith) hx.high ?_
    rintro (heq | heq)
    · linarith
    · exact htie (.inr heq)
  · rw [hbelow] at hlow htie
    push_cast at hlow htie
    refine h.round (by linarith) hx.high ?_
    rintro (heq | heq)
    · exact htie (.inl (by linarith))
    · exact htie (.inr heq)

/-- Rounding gives the double in whose interval the number lies. -/
theorem roundWithAccuracy_eq (hc : Canonical n q) (hx : RoundsTo x n q)
    (h : Lies (x / 2 ^ e) m acc) (he : e ≤ target m e) :
    roundWithAccuracy .binary64 s m e acc = .finite s n q hc.pos := by
  obtain ⟨em, hfirst, hstands⟩ := shiftToTargetExponent_stands h he
  rcases hx.target_cases hc h he with htarget | ⟨htarget, rfl, hlow, hhigh⟩
  · rw [htarget] at hfirst hstands
    have hround : em.roundedMantissa = n := hx.round hstands
    have hshift : (target n q - q).toNat = 0 := by
      have := hc.target_le
      omega
    refine roundWithAccuracy_of_shifts (.ofMantissaAndAccuracy n .exact) hc.pos
      hfirst ?_ rfl
    rw [hround, shiftToTargetExponent_eq, hshift, Nat.cast_zero, add_zero]
    rfl
  · -- Rounding carries, so the mantissa is shifted once more.
    rw [htarget, div_two_zpow_sub_one] at hstands
    rw [htarget] at hfirst
    have hround : em.roundedMantissa = 2 ^ 53 := by
      refine hstands.round ?_ ?_ fun _ => rfl
      · push_cast
        linarith
      · push_cast
        linarith
    have hshift : (target (2 ^ 53) (q - 1) - (q - 1)).toNat = 1 := by
      have hleast : -1074 ≤ q := hc.least
      rw [target_eq, Nat.log2_two_pow]
      omega
    refine roundWithAccuracy_of_shifts (.ofMantissaAndAccuracy (2 ^ 52) .exact)
      hc.pos hfirst ?_ rfl
    rw [hround, shiftToTargetExponent_eq, hshift, Nat.cast_one, sub_add_cancel]
    rfl

-- ============================================== products and quotients

/-- A mantissa of full width is moved down, if at all. -/
theorem le_target (hm : 2 ^ 52 ≤ m) : e ≤ target m e := by
  have hlog : 52 ≤ m.log2 := (Nat.le_log2 (by omega)).2 hm
  rw [target_eq]
  omega

/-- A quotient lies where its remainder says. -/
theorem lies_fraction (w : ℕ) {r b : ℕ} (hr : r < b) :
    Lies (w + r / b) w (accuracyOfFraction r b) := by
  have hb : (0 : ℚ) < b := by exact_mod_cast Nat.zero_lt_of_lt hr
  by_cases hzero : r = 0
  · subst hzero
    show (w : ℚ) + (0 : ℕ) / b = w
    simp
  · have hpos : (0 : ℚ) < r / b := by
      refine div_pos ?_ hb
      exact_mod_cast Nat.pos_of_ne_zero hzero
    unfold accuracyOfFraction
    rw [if_neg hzero]
    cases hcompare : compare (2 * r) b with
    | lt =>
        have h : (2 : ℚ) * r < b := by
          exact_mod_cast Nat.compare_eq_lt.1 hcompare
        have : (r : ℚ) / b < 1 / 2 := by
          rw [div_lt_div_iff₀ hb two_pos]
          linarith
        exact ⟨by linarith, by linarith⟩
    | eq =>
        have h : (2 : ℚ) * r = b := by
          exact_mod_cast Nat.compare_eq_eq.1 hcompare
        show (w : ℚ) + r / b = w + 1 / 2
        rw [← h]
        field_simp
    | gt =>
        have h : (b : ℚ) < 2 * r := by
          exact_mod_cast Nat.compare_eq_gt.1 hcompare
        have hlow : 1 / 2 < (r : ℚ) / b := by
          rw [div_lt_div_iff₀ two_pos hb]
          linarith
        have hhigh : (r : ℚ) / b < 1 := by
          rw [div_lt_one₀ hb]
          exact_mod_cast hr
        exact ⟨by linarith, by linarith⟩

/-- The quotient of whole numbers and its remainder tell where the exact
quotient lies. -/
theorem lies_div (a : ℕ) {b : ℕ} (hb : 0 < b) :
    Lies (a / b) (a / b : ℕ) (accuracyOfFraction (a % b) b) := by
  have hsum : (a : ℚ) / b = (a / b : ℕ) + (a % b : ℕ) / b := by
    have hb' : (b : ℚ) ≠ 0 := by exact_mod_cast hb.ne'
    rw [div_eq_iff hb', add_mul, div_mul_cancel₀ _ hb']
    exact_mod_cast (Nat.div_add_mod' a b).symm
  rw [hsum]
  exact lies_fraction _ (Nat.mod_lt a hb)

variable {m₁ m₂ : ℕ} {e₁ e₂ : ℤ} {s₁ s₂ : Sign} {h₁ : 0 < m₁} {h₂ : 0 < m₂}

/-- A product is rounded to its double, if it has the full width. -/
theorem mul_eq (hc : Canonical n q)
    (hx : RoundsTo (m₁ * 2 ^ e₁ * (m₂ * 2 ^ e₂)) n q) (hm : 2 ^ 52 ≤ m₁ * m₂) :
    mul .binary64 (.finite s₁ m₁ e₁ h₁) (.finite s₂ m₂ e₂ h₂)
      = .finite (s₁ * s₂) n q hc.pos := by
  refine roundWithAccuracy_eq hc hx ?_ (le_target hm)
  show _ = _
  rw [zpow_add₀ two_ne_zero]
  push_cast
  field_simp

/-- A quotient has no fewer bits than the difference of the widths. -/
theorem le_log2_div (h₁ : 0 < m₁) (h₂ : 0 < m₂) (k : ℕ) :
    m₁.log2 + k ≤ (m₁ * 2 ^ k / m₂).log2 + 1 + m₂.log2 := by
  by_cases hle : m₁.log2 + k ≤ m₂.log2 + 1
  · omega
  · obtain ⟨j, hj⟩ := Nat.le.dest (not_le.1 hle).le
    have hpow : 2 ^ j ≤ m₁ * 2 ^ k / m₂ := by
      rw [Nat.le_div_iff_mul_le h₂]
      calc 2 ^ j * m₂ ≤ 2 ^ j * 2 ^ (m₂.log2 + 1) :=
        Nat.mul_le_mul_left _ Nat.lt_log2_self.le
        _ = 2 ^ m₁.log2 * 2 ^ k := by rw [← pow_add, ← pow_add, add_comm, hj]
        _ ≤ m₁ * 2 ^ k := Nat.mul_le_mul_right _ (Nat.log2_self_le h₁.ne')
    have hlog := (Nat.le_log2 (by have := Nat.two_pow_pos j; omega)).2 hpow
    omega

/-- The exponent at which a quotient is cut off. -/
def cutExponent (m₁ : ℕ) (e₁ : ℤ) (m₂ : ℕ) (e₂ : ℤ) : ℤ :=
  min (e₁ - e₂) (Format.binary64.targetExponent
    (totalExponent m₁ e₁ - totalExponent m₂ e₂))

theorem divCore_eq {k : ℕ} (hk : cutExponent m₁ e₁ m₂ e₂ + k = e₁ - e₂) :
    divCore .binary64 m₁ e₁ m₂ e₂
      = (m₁ * 2 ^ k / m₂, cutExponent m₁ e₁ m₂ e₂,
        accuracyOfFraction (m₁ * 2 ^ k % m₂) m₂) := by
  have hshift : (e₁ - e₂ - cutExponent m₁ e₁ m₂ e₂).toNat = k := by omega
  rw [← Nat.shiftLeft_eq, ← hshift]
  rfl

/-- A quotient is rounded to its double. -/
theorem div_eq (hc : Canonical n q)
    (hx : RoundsTo (m₁ * 2 ^ e₁ / (m₂ * 2 ^ e₂)) n q) :
    div .binary64 (.finite s₁ m₁ e₁ h₁) (.finite s₂ m₂ e₂ h₂)
      = .finite (s₁ / s₂) n q hc.pos := by
  obtain ⟨k, hk⟩ :=
    Int.le.dest (show cutExponent m₁ e₁ m₂ e₂ ≤ e₁ - e₂ from min_le_left _ _)
  show roundWithAccuracy _ _ (divCore .binary64 m₁ e₁ m₂ e₂).1
    (divCore .binary64 m₁ e₁ m₂ e₂).2.1 (divCore .binary64 m₁ e₁ m₂ e₂).2.2 = _
  rw [divCore_eq hk]
  refine roundWithAccuracy_eq hc hx ?_ ?_
  · have hquotient := lies_div (m₁ * 2 ^ k) h₂
    have he : e₁ = cutExponent m₁ e₁ m₂ e₂ + k + e₂ := by omega
    have hcast : (m₁ : ℚ) * 2 ^ e₁ / (m₂ * 2 ^ e₂)
        / 2 ^ cutExponent m₁ e₁ m₂ e₂
        = (m₁ * 2 ^ k : ℕ) / m₂ := by
      generalize cutExponent m₁ e₁ m₂ e₂ = t at he
      rw [he, zpow_add₀ two_ne_zero, zpow_add₀ two_ne_zero, zpow_natCast]
      push_cast
      field_simp
    rw [hcast]
    exact hquotient
  · have hlog := le_log2_div h₁ h₂ k
    have hcut : cutExponent m₁ e₁ m₂ e₂
        ≤ max (totalExponent m₁ e₁ - totalExponent m₂ e₂ - 53) (-1074) :=
          min_le_right _ _
    show cutExponent m₁ e₁ m₂ e₂
      ≤ target (m₁ * 2 ^ k / m₂) (cutExponent m₁ e₁ m₂ e₂)
    rw [target_eq]
    unfold totalExponent at hcut
    omega

end BisayaPlus.Number
