/-
Written numbers are read back.

A number is written with the point at its place among its digits, and
with zeros where digits are missing: before the digits of a small number,
behind those of a large one. A zero in such a place changes nothing of
what the text is worth, so the text is a decimal that stands for what its
digits stand for (`decimal_positional`), and that is a number which is
rounded to the double (`Proofs/ShortestDigits.lean`). Reading the decimal
rounds it (`Proofs/Doubles.lean`), and so every finite double comes back
as it was, both zeros with their signs (`read?_write`).
-/
import BisayaPlus.Proofs.Numerals
import BisayaPlus.Proofs.ShortestDigits

namespace BisayaPlus.Number

variable {n : ℕ} {q : ℤ}

-- ============================================================== digits

theorem ofDigits_append_zeros (ds : List Char) (z : ℕ) :
    ofDigits (ds ++ List.replicate z '0') = 10 ^ z * ofDigits ds := by
  show Nat.ofDigitChars 10 _ 0 = 10 ^ z * Nat.ofDigitChars 10 ds 0
  rw [Nat.ofDigitChars_append, Nat.ofDigitChars_replicate_zero]

theorem ofDigits_zeros_append (z : ℕ) (ds : List Char) :
    ofDigits (List.replicate z '0' ++ ds) = ofDigits ds := by
  show Nat.ofDigitChars 10 _ 0 = Nat.ofDigitChars 10 ds 0
  rw [Nat.ofDigitChars_append, Nat.ofDigitChars_replicate_zero, mul_zero]

namespace Digits

/-- The number that a decimal stands for. -/
def worth (d : Digits) : ℚ :=
  ofDigits d.digits * 10 ^ (d.point - d.digits.length)

/-- What the digits of a whole number lose is zeros. -/
theorem ofScaled_split (n : ℕ) (e : ℤ) :
    ∃ z, Nat.toDigits 10 n
      = (ofScaled n e).digits ++ List.replicate z '0' := by
  have hzeros : ∀ c ∈ (Nat.toDigits 10 n).reverse.takeWhile (· == '0'),
      c = '0' := by
    intro c hc
    have := List.mem_takeWhile_imp hc
    exact beq_iff_eq.1 this
  have hsplit : Nat.toDigits 10 n = (ofScaled n e).digits
      ++ ((Nat.toDigits 10 n).reverse.takeWhile (· == '0')).reverse := by
    show _ = List.reverse _ ++ List.reverse _
    rw [← List.reverse_append, List.takeWhile_append_dropWhile,
      List.reverse_reverse]
  rw [List.eq_replicate_of_mem hzeros, List.reverse_replicate] at hsplit
  exact ⟨_, hsplit⟩

/-- A whole number is its digits without zeros at the end, times a power of
ten. -/
theorem eq_of_split {ds : List Char} {z : ℕ}
    (h : Nat.toDigits 10 n = ds ++ List.replicate z '0') :
    n = 10 ^ z * ofDigits ds := by
  rw [← ofDigits_append_zeros, ← h]
  exact Nat.ofDigitChars_ten_toDigits.symm

theorem worth_ofScaled (n : ℕ) (e : ℤ) :
    (ofScaled n e).worth = n * 10 ^ e := by
  obtain ⟨z, hz⟩ := ofScaled_split n e
  have hn : n = 10 ^ z * ofDigits (ofScaled n e).digits := eq_of_split hz
  have hpoint : (ofScaled n e).point - (ofScaled n e).digits.length
      = z + e := by
    show ((Nat.toDigits 10 n).length : ℤ) + e - _ = _
    rw [hz, List.length_append, List.length_replicate]
    push_cast
    ring
  unfold worth
  rw [hpoint, zpow_add₀ (by norm_num), zpow_natCast]
  nth_rewrite 2 [hn]
  push_cast
  ring

variable {d : Digits} {k : ℕ}

theorem worth_eq_div (h : d.point + k = d.digits.length) :
    d.worth = ofDigits d.digits / 10 ^ k := by
  have hexponent : d.point - d.digits.length = -k := by omega
  rw [worth, hexponent, zpow_neg, zpow_natCast, div_eq_mul_inv]

theorem worth_eq_mul (h : d.digits.length + k = d.point) :
    d.worth = (10 ^ k * ofDigits d.digits : ℕ) := by
  have hexponent : d.point - d.digits.length = k := by omega
  rw [worth, hexponent, zpow_natCast]
  push_cast
  exact mul_comm _ _

/-- A number above zero keeps a digit. -/
theorem digits_ofScaled (hn : 0 < n) (e : ℤ) :
    Token.Digits (ofScaled n e).digits := by
  obtain ⟨z, hz⟩ := ofScaled_split n e
  constructor
  · intro hnil
    have hn' : n = 10 ^ z * ofDigits (ofScaled n e).digits := eq_of_split hz
    rw [hnil] at hn'
    exact hn.ne' hn'
  · intro c hc
    refine Nat.isDigit_of_mem_toDigits (b := 10) (n := n) (by decide)
      (by decide) ?_
    rw [hz]
    exact List.mem_append_left _ hc

end Digits

-- ================================================ the text of a decimal

/-- The texts of decimals without sign and exponent, and what they stand
for. -/
inductive Decimal : List Char → ℚ → Prop where
  | whole {ds : List Char} (hds : Token.Digits ds) : Decimal ds (ofDigits ds)
  | point {ds fraction : List Char} (hds : Token.Digits ds)
      (hfraction : Token.Digits fraction) :
      Decimal (ds ++ '.' :: fraction)
        (ofDigits (ds ++ fraction) / 10 ^ fraction.length)

/-- Zeros are digits. -/
theorem isDigit_of_mem_zeros {z : ℕ} :
    ∀ c ∈ List.replicate z '0', c.isDigit = true := by
  intro c hc
  rw [List.eq_of_mem_replicate hc]
  rfl

variable {d : Digits}

/-- Zeros between the point and the digits. -/
theorem decimal_small (hd : Token.Digits d.digits) (hpoint : d.point ≤ 0) :
    Decimal ('0' :: '.' :: (List.replicate (-d.point).toNat '0' ++ d.digits))
      d.worth := by
  have hzero : Token.Digits ['0'] :=
    ⟨List.cons_ne_nil _ _, List.forall_mem_singleton.2 rfl⟩
  have hfraction :
      Token.Digits (List.replicate (-d.point).toNat '0' ++ d.digits) :=
    ⟨List.append_ne_nil_of_right_ne_nil _ hd.1,
      List.forall_mem_append.2 ⟨isDigit_of_mem_zeros, hd.2⟩⟩
  have hworth : d.worth
      = ofDigits (['0'] ++ (List.replicate (-d.point).toNat '0' ++ d.digits))
      / 10 ^ (List.replicate (-d.point).toNat '0' ++ d.digits).length := by
    rw [← List.replicate_one, ofDigits_zeros_append, ofDigits_zeros_append]
    refine Digits.worth_eq_div ?_
    rw [List.length_append, List.length_replicate]
    omega
  rw [hworth]
  exact .point hzero hfraction

/-- Zeros behind the digits. -/
theorem decimal_large (hd : Token.Digits d.digits)
    (hsize : d.digits.length ≤ d.point) :
    Decimal (d.digits ++ List.replicate (d.point - d.digits.length).toNat '0')
      d.worth := by
  have hwhole : Token.Digits
      (d.digits ++ List.replicate (d.point - d.digits.length).toNat '0') :=
    ⟨List.append_ne_nil_of_left_ne_nil hd.1 _,
      List.forall_mem_append.2 ⟨hd.2, isDigit_of_mem_zeros⟩⟩
  have hpoint : d.digits.length + (d.point - d.digits.length).toNat
      = d.point := by omega
  rw [Digits.worth_eq_mul hpoint, ← ofDigits_append_zeros]
  exact .whole hwhole

/-- The point among the digits. -/
theorem decimal_middle (hd : Token.Digits d.digits) (hpoint : 0 < d.point)
    (hsize : d.point < d.digits.length) :
    Decimal (d.digits.take d.point.toNat ++ '.' :: d.digits.drop d.point.toNat)
      d.worth := by
  have hworth : d.worth
      = ofDigits (d.digits.take d.point.toNat ++ d.digits.drop d.point.toNat)
      / 10 ^ (d.digits.drop d.point.toNat).length := by
    rw [List.take_append_drop]
    refine Digits.worth_eq_div ?_
    rw [List.length_drop]
    omega
  have htake : d.digits.take d.point.toNat ≠ [] := by
    intro hnil
    rcases List.take_eq_nil_iff.1 hnil with hzero | hnil
    · omega
    · exact hd.1 hnil
  have hdrop : d.digits.drop d.point.toNat ≠ [] := by
    intro hnil
    have := List.drop_eq_nil_iff.1 hnil
    omega
  rw [hworth]
  exact .point ⟨htake, fun c hc => hd.2 c (List.mem_of_mem_take hc)⟩
    ⟨hdrop, fun c hc => hd.2 c (List.mem_of_mem_drop hc)⟩

/-- Digits set out with the point at its place stand for what they are
worth. -/
theorem decimal_positional (hd : Token.Digits d.digits) :
    Decimal (Layout.positional false d) d.worth := by
  unfold Layout.positional
  dsimp only
  split
  next hpoint => exact decimal_small hd hpoint
  next hpoint =>
    split
    next hsize =>
      rw [if_neg (by decide), List.append_nil]
      exact decimal_large hd hsize
    next hsize => exact decimal_middle hd (not_le.1 hpoint) (not_le.1 hsize)

/-- The text of a decimal is read as the double that the decimal is
rounded to. -/
theorem Decimal.read? {text : List Char} {x : ℚ} (h : Decimal text x)
    (hc : Canonical n q) (hx : RoundsTo x n q) :
    Number.read? text
      = some (.ofModel (.pack (.finite .positive n q hc.pos))) := by
  cases h with
  | whole hds =>
      have hx' : RoundsTo
          (ofDigits (text ++ []) / 10 ^ ([] : List Char).length) n q := by
        rw [List.append_nil, List.length_nil, pow_zero, div_one]
        exact hx
      rw [hds.read?_eq, ofDecimal, ofScaled_eq hc hx']
  | point hds hfraction =>
      rw [hds.read?_point hfraction, ofDecimal, ofScaled_eq hc hx]

/-- A decimal starts with a digit. -/
theorem Decimal.head {text : List Char} {x : ℚ} (h : Decimal text x) :
    ∃ c cs, text = c :: cs ∧ c.isDigit = true := by
  cases h with
  | whole hds =>
      obtain ⟨c, cs, rfl⟩ := List.exists_cons_of_ne_nil hds.1
      exact ⟨c, cs, rfl, hds.2 c List.mem_cons_self⟩
  | point hds _ =>
      obtain ⟨c, cs, rfl⟩ := List.exists_cons_of_ne_nil hds.1
      exact ⟨c, cs ++ _, rfl, hds.2 c List.mem_cons_self⟩

/-- A decimal has nothing but digits and a point. -/
theorem Decimal.mem {text : List Char} {x : ℚ} (h : Decimal text x) :
    ∀ c ∈ text, c.isDigit = true ∨ c = '.' := by
  cases h with
  | whole hds => exact fun c hc => .inl (hds.2 c hc)
  | point hds hfraction =>
      intro c hc
      rcases List.mem_append.1 hc with hc | hc
      · exact .inl (hds.2 c hc)
      · rcases List.mem_cons.1 hc with rfl | hc
        · exact .inr rfl
        · exact .inl (hfraction.2 c hc)

-- ====================================================== written doubles

/-- Numbers are written without exponents and whole ones without a
fraction. -/
structure Layout.Positional (l : Layout) : Prop where
  plain : ∀ point, l.plain point = true
  whole : l.keepsFraction = false

namespace Layout.Positional

variable {l : Layout} {d : Dyadic}

/-- The text of a number is a decimal that is rounded to the number. -/
theorem decimal_magnitude (hl : l.Positional)
    (hc : Canonical d.mantissa d.exponent) :
    ∃ x, Decimal (l.magnitude d) x ∧ RoundsTo x d.mantissa d.exponent := by
  obtain ⟨n, e, hshortest, hround⟩ := shortest_roundsTo l.tie hc
  have hn : 0 < n := by
    refine Nat.pos_of_ne_zero fun hzero => ?_
    have := hround.pos hc.pos
    rw [hzero, Nat.cast_zero, zero_mul] at this
    exact lt_irrefl _ this
  refine ⟨n * 10 ^ e, ?_, hround⟩
  unfold magnitude
  rw [if_neg hc.pos.ne', hshortest, if_pos (hl.plain _), hl.whole,
    ← Digits.worth_ofScaled]
  exact decimal_positional (Digits.digits_ofScaled hn e)

theorem magnitude_zero (hl : l.Positional) (hd : d.mantissa = 0) :
    l.magnitude d = ['0'] := by
  unfold magnitude
  rw [if_pos hd, hl.whole]
  rfl

end Layout.Positional

/-- Negation turns the sign only. -/
theorem neg_pack (hc : Canonical n q) :
    -Float.ofModel (.pack (.finite .positive n q hc.pos))
      = .ofModel (.pack (.finite .negative n q hc.pos)) := by
  show Float.ofModel (.pack (Float.Model.pack _).unpack.neg) = _
  rw [unpack_pack _ hc]
  rfl

/-- A finite double is read back from its text. -/
theorem Layout.Positional.read?_write {l : Layout} (hl : l.Positional)
    {x : Float} (hx : x.isFinite = true) :
    Number.read? (l.write x) = some x := by
  have hpack := pack_ofFloat hx
  have hcanonical := canonical_ofFloat hx
  unfold Layout.write
  dsimp only
  generalize Dyadic.ofFloat x = d at hpack hcanonical ⊢
  subst hpack
  by_cases hd : d.mantissa = 0
  · rw [Dyadic.unpacked_of_eq hd, hl.magnitude_zero hd, Dyadic.sign]
    cases d.negative with
    | true => exact congrArg some (eq_of_toBits (by decide +kernel))
    | false => exact congrArg some (eq_of_toBits (by decide +kernel))
  · obtain ⟨y, hdecimal, hround⟩ := hl.decimal_magnitude (hcanonical hd)
    have hread := hdecimal.read? (hcanonical hd) hround
    obtain ⟨c, cs, htext, hc⟩ := hdecimal.head
    rw [Dyadic.unpacked_of_ne hd, Dyadic.sign]
    cases d.negative with
    | true =>
        rw [htext] at hread
        show Number.read? ('-' :: l.magnitude d) = _
        rw [htext, read?_minus hc, hread, Option.map_some,
          neg_pack (hcanonical hd)]
        rfl
    | false => exact hread

/-- The text of a finite number consists of digits, a point and a minus. -/
theorem Layout.Positional.mem_write {l : Layout} (hl : l.Positional)
    {x : Float} (hx : x.isFinite = true) :
    ∀ c ∈ l.write x, c.isDigit = true ∨ c = '.' ∨ c = '-' := by
  have hmagnitude : ∀ c ∈ l.magnitude (Dyadic.ofFloat x),
      c.isDigit = true ∨ c = '.' := by
    by_cases hd : (Dyadic.ofFloat x).mantissa = 0
    · rw [hl.magnitude_zero hd]
      exact List.forall_mem_singleton.2 (.inl rfl)
    · obtain ⟨y, hdecimal, -⟩ := hl.decimal_magnitude (canonical_ofFloat hx hd)
      exact hdecimal.mem
  intro c hc
  unfold Layout.write at hc
  dsimp only at hc
  split at hc
  · rcases List.mem_cons.1 hc with rfl | hc
    · exact .inr (.inr rfl)
    · exact (hmagnitude c hc).imp_right .inl
  · exact (hmagnitude c hc).imp_right .inl

end BisayaPlus.Number
