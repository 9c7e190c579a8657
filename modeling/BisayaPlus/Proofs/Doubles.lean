/-
Doubles as the reader of decimals makes them.

A double is sixty-four bits: a sign, a biased exponent, a fraction. Its
arithmetic unpacks them to a mantissa and an exponent, and packs what it
has rounded. The first half of this module ties the three views of a
finite double together: its bits, its unpacked form and the parts that
its digits are computed from (`Dyadic.ofFloat`). Unpacking undoes packing
(`unpack_pack`), and a finite double is packed from its parts
(`pack_ofFloat`), so a double can be named by them.

The second half is about reading. A decimal with few digits is read as
the quotient of two doubles that are exact, any other by exact division.
Both come to a quotient that is rounded once, and so a decimal that lies
in the interval of a double is read as this double (`ofScaled_eq`).
-/
import BisayaPlus.Number.Reader
import BisayaPlus.Proofs.Rounding

namespace BisayaPlus.Number

open Float.Model Float.Model.UnpackedFloat

variable {s : Sign} {m n k : ℕ} {q : ℤ}

-- ======================================================== the three fields

theorem unpackMantissa_toNat (b : BitVec 64) :
    (@unpackMantissa .binary64 b).toNat = b.toNat % 2 ^ 52 := by
  simp [unpackMantissa, BitVec.extractLsb_toNat]

theorem unpackExponent_toNat (b : BitVec 64) :
    (@unpackExponent .binary64 b).toNat = b.toNat / 2 ^ 52 % 2 ^ 11 := by
  simp [unpackExponent, BitVec.extractLsb_toNat, Nat.shiftRight_eq_div_pow]

theorem unpackSign_toNat (b : BitVec 64) :
    (@unpackSign .binary64 b).toNat = b.toNat / 2 ^ 63 := by
  have hlt := b.isLt
  show ((b.extractLsb 63 63).cast _).toNat = _
  rw [BitVec.toNat_cast, BitVec.extractLsb_toNat, Nat.shiftRight_eq_div_pow]
  show b.toNat / 2 ^ 63 % 2 ^ 1 = _
  omega

theorem packComponents_toNat (s : Sign) (e : BitVec 11) (m : BitVec 52) :
    (packComponents .binary64 s e m).toNat
      = s.toBitVec.toNat * 2 ^ 63 + e.toNat * 2 ^ 52 + m.toNat := by
  show (s.toBitVec ++ e ++ m).toNat = _
  have he := e.isLt
  have hm := m.isLt
  rw [BitVec.toNat_append, BitVec.toNat_append,
    ← Nat.shiftLeft_add_eq_or_of_lt he, ← Nat.shiftLeft_add_eq_or_of_lt hm,
    Nat.shiftLeft_eq, Nat.shiftLeft_eq]
  omega

namespace Dyadic

/-- The sign as the arithmetic of doubles has it. -/
def sign (d : Dyadic) : Sign := if d.negative then .negative else .positive

/-- The parts of a double as the arithmetic of doubles takes them. -/
def unpacked (d : Dyadic) : UnpackedFloat :=
  if h : d.mantissa = 0 then .zero d.sign
  else .finite d.sign d.mantissa d.exponent (Nat.pos_of_ne_zero h)

/-- The parts of a double that has these bits. -/
def ofBits (bits : ℕ) : Dyadic :=
  let biased := bits / Nat.pow 2 52 % Nat.pow 2 11
  let fraction := bits % Nat.pow 2 52
  { negative := bits / Nat.pow 2 63 == 1
    mantissa := if biased = 0 then fraction else Nat.pow 2 52 + fraction
    exponent := (max biased 1 : ℕ) - 1075 }

theorem unpacked_of_ne {d : Dyadic} (h : d.mantissa ≠ 0) :
    d.unpacked = .finite d.sign d.mantissa d.exponent (Nat.pos_of_ne_zero h) :=
      dif_neg h

theorem unpacked_of_eq {d : Dyadic} (h : d.mantissa = 0) :
    d.unpacked = .zero d.sign := dif_pos h

theorem ofFloat_eq (x : Float) : ofFloat x = ofBits x.toBits.toNat := rfl

theorem mantissa_ofBits (bits : ℕ) :
    (ofBits bits).mantissa
      = if bits / 2 ^ 52 % 2 ^ 11 = 0 then bits % 2 ^ 52
        else 2 ^ 52 + bits % 2 ^ 52 := rfl

theorem exponent_ofBits (bits : ℕ) :
    (ofBits bits).exponent = (max (bits / 2 ^ 52 % 2 ^ 11) 1 : ℕ) - 1075 := rfl

end Dyadic

/-- A sign is negative if its bit is set. -/
theorem ofBitVec_eq (b : BitVec 1) :
    Sign.ofBitVec b = if b.toNat == 1 then .negative else .positive := by
  obtain rfl | rfl : b = 0#1 ∨ b = 1#1 := by
    revert b
    decide
  · rfl
  · rfl

theorem sign_ofBits (b : BitVec 64) :
    (Dyadic.ofBits b.toNat).sign = .ofBitVec (@unpackSign .binary64 b) := by
  rw [ofBitVec_eq, unpackSign_toNat]
  rfl

/-- Finite numbers with equal parts are equal. -/
theorem finite_congr {m m' : ℕ} {e e' : ℤ} {h : 0 < m} {h' : 0 < m'}
    (hm : m = m') (he : e = e') :
    UnpackedFloat.finite s m e h = .finite s m' e' h' := by
  subst hm he
  rfl

theorem one_append_toNat (f : BitVec 52) :
    (1#1 ++ f).toNat = 2 ^ 52 + f.toNat := by
  rw [BitVec.toNat_append, ← Nat.shiftLeft_add_eq_or_of_lt f.isLt]
  rfl

/-- Unpacking bits of a finite double gives its parts. -/
theorem unpack_eq {b : BitVec 64} (hb : b.toNat / 2 ^ 52 % 2 ^ 11 ≠ 2047) :
    UnpackedFloat.unpack .binary64 b = (Dyadic.ofBits b.toNat).unpacked := by
  have hexponent := unpackExponent_toNat b
  have hmantissa := unpackMantissa_toNat b
  have hparts := Dyadic.mantissa_ofBits b.toNat
  have hparts' := Dyadic.exponent_ofBits b.toNat
  rw [← hexponent] at hb hparts hparts'
  rw [← hmantissa] at hparts
  have hinfinite : @unpackExponent .binary64 b ≠ -1#11 := by
    intro he
    rw [he] at hb
    exact hb rfl
  unfold UnpackedFloat.unpack
  rw [if_neg hinfinite, ← sign_ofBits]
  by_cases he : @unpackExponent .binary64 b = 0#11
  · have hzero : (@unpackExponent .binary64 b).toNat = 0 := by rw [he]; rfl
    rw [if_pos he]
    rw [if_pos hzero] at hparts
    by_cases hm : @unpackMantissa .binary64 b = 0#52
    · rw [dif_pos hm, Dyadic.unpacked_of_eq]
      rw [hparts, hm]
      rfl
    · have hne : (Dyadic.ofBits b.toNat).mantissa ≠ 0 := by
        rw [hparts]
        intro h
        exact hm (BitVec.eq_of_toNat_eq h)
      rw [dif_neg hm, Dyadic.unpacked_of_ne hne]
      refine finite_congr hparts.symm ?_
      rw [hparts', hzero]
      rfl
  · have hpos : (@unpackExponent .binary64 b).toNat ≠ 0 := by
      intro h
      exact he (BitVec.eq_of_toNat_eq h)
    rw [if_neg he]
    rw [if_neg hpos] at hparts
    rw [Dyadic.unpacked_of_ne (by omega)]
    refine finite_congr ?_ ?_
    · rw [one_append_toNat, hparts]
    · rw [hparts', Nat.max_eq_left (by omega)]
      rfl

-- ============================================================= packing

/-- The bits of a finite double with these parts. -/
def word (s : Sign) (n : ℕ) (q : ℤ) : ℕ :=
  s.toBitVec.toNat * 2 ^ 63 + if n < 2 ^ 52 then n
    else (q + 1075).toNat * 2 ^ 52 + (n - 2 ^ 52)

/-- Zero is packed as its sign alone. -/
theorem pack_zero_toNat (s : Sign) (q : ℤ) :
    (UnpackedFloat.pack .binary64 (.zero s)).toNat = word s 0 q := by
  refine (packComponents_toNat s 0 0).trans ?_
  simp [word]

/-- A finite number is packed as its three fields. -/
theorem pack_finite_toNat (s : Sign) (hc : Canonical n q) :
    (UnpackedFloat.pack .binary64 (.finite s n q hc.pos)).toNat
      = word s n q := by
  have hleast : -1074 ≤ q := hc.least
  have hmost := hc.most
  have hlt := hc.lt
  have hfinite : ¬2 ^ 11 ≤ (q + 1023 + 52).toNat + 1 := by omega
  unfold UnpackedFloat.pack word
  refine (congrArg BitVec.toNat (if_neg hfinite)).trans ?_
  by_cases hn : n < 2 ^ 52
  · have hlog : ¬n.log2 + 1 = 53 := by
      have := (Nat.log2_lt hc.pos.ne').2 hn
      omega
    rw [if_pos hn]
    refine (congrArg BitVec.toNat (if_neg hlog)).trans
      ((packComponents_toNat s _ _).trans ?_)
    rw [BitVec.toNat_ofNat]
    show s.toBitVec.toNat * 2 ^ 63 + 0 * 2 ^ 52 + n % 2 ^ 52 = _
    omega
  · have hlog : n.log2 + 1 = 53 := by
      have := (Nat.log2_eq_iff hc.pos.ne').2 ⟨not_lt.1 hn, hlt⟩
      omega
    rw [if_neg hn]
    refine (congrArg BitVec.toNat (if_pos hlog)).trans
      ((packComponents_toNat s _ _).trans ?_)
    rw [BitVec.toNat_ofNat, BitVec.toNat_ofNat]
    show s.toBitVec.toNat * 2 ^ 63 + (q + 1023 + 52).toNat % 2 ^ 11 * 2 ^ 52
      + n % 2 ^ 52 = _
    omega

/-- A sign has one bit. -/
theorem toNat_toBitVec_le (s : Sign) : s.toBitVec.toNat ≤ 1 := by
  cases s <;> decide

/-- The three fields are found again in the bits. -/
theorem word_fields (s : Sign) (hc : Canonical n q) :
    word s n q / 2 ^ 63 = s.toBitVec.toNat
      ∧ word s n q / 2 ^ 52 % 2 ^ 11 = (if n < 2 ^ 52 then 0
        else (q + 1075).toNat)
      ∧ word s n q % 2 ^ 52 = n % 2 ^ 52 := by
  have hleast : -1074 ≤ q := hc.least
  have hmost := hc.most
  have hlt := hc.lt
  have hs := toNat_toBitVec_le s
  unfold word
  split <;> omega

/-- The bits are not those of an infinite number. -/
theorem biased_word_ne (s : Sign) (hc : Canonical n q) :
    word s n q / 2 ^ 52 % 2 ^ 11 ≠ 2047 := by
  have hmost := hc.most
  rw [(word_fields s hc).2.1]
  split <;> omega

/-- The parts of the bits of a double are those that it was packed from. -/
theorem unpacked_word (s : Sign) (hc : Canonical n q) :
    (Dyadic.ofBits (word s n q)).unpacked = .finite s n q hc.pos := by
  have hleast : -1074 ≤ q := hc.least
  have hlt := hc.lt
  have hpos := hc.pos
  have hnormal := hc.normal
  change _ ∨ q = -1074 at hnormal
  obtain ⟨hnegative, hbiased, hfraction⟩ := word_fields s hc
  have hmantissa : (Dyadic.ofBits (word s n q)).mantissa = n := by
    rw [Dyadic.mantissa_ofBits, hbiased, hfraction]
    by_cases hn : n < 2 ^ 52
    · rw [if_pos hn, if_pos rfl]
      omega
    · rw [if_neg hn, if_neg (by omega)]
      omega
  have hexponent : (Dyadic.ofBits (word s n q)).exponent = q := by
    rw [Dyadic.exponent_ofBits, hbiased]
    split <;> omega
  have hsign : (Dyadic.ofBits (word s n q)).sign = s := by
    show (if word s n q / 2 ^ 63 == 1 then Sign.negative else .positive) = s
    rw [hnegative]
    cases s <;> rfl
  rw [Dyadic.unpacked_of_ne (by omega), hsign]
  exact finite_congr hmantissa hexponent

/-- Unpacking undoes packing. -/
theorem unpack_pack (s : Sign) (hc : Canonical n q) :
    (Float.Model.pack (.finite s n q hc.pos)).unpack
      = .finite s n q hc.pos := by
  have hbits := pack_finite_toNat s hc
  show UnpackedFloat.unpack .binary64 (UnpackedFloat.pack .binary64 _) = _
  rw [unpack_eq (by rw [hbits]; exact biased_word_ne s hc), hbits,
    unpacked_word s hc]

-- ===================================================== finite doubles

variable {x : Float}

/-- A finite double does not have the exponent of an infinite one. -/
theorem biased_ne_of_isFinite (hx : x.isFinite = true) :
    x.toBits.toNat / 2 ^ 52 % 2 ^ 11 ≠ 2047 := by
  intro h
  change (UnpackedFloat.unpack .binary64 x.toBits.toBitVec).isFinite
    = true at hx
  have he : @unpackExponent .binary64 x.toBits.toBitVec = -1#11 :=
    BitVec.eq_of_toNat_eq ((unpackExponent_toNat _).trans h)
  unfold UnpackedFloat.unpack at hx
  rw [if_pos he] at hx
  split at hx <;> cases hx

/-- A finite double is unpacked to its parts. -/
theorem unpack_toModel (hx : x.isFinite = true) :
    x.toModel.unpack = (Dyadic.ofFloat x).unpacked := by
  rw [Dyadic.ofFloat_eq]
  exact unpack_eq (biased_ne_of_isFinite hx)

/-- The parts of a finite double are those of a double. -/
theorem canonical_ofFloat (hx : x.isFinite = true)
    (hm : (Dyadic.ofFloat x).mantissa ≠ 0) :
    Canonical (Dyadic.ofFloat x).mantissa (Dyadic.ofFloat x).exponent := by
  have hbiased := biased_ne_of_isFinite hx
  rw [Dyadic.ofFloat_eq] at hm ⊢
  have hmantissa := Dyadic.mantissa_ofBits x.toBits.toNat
  have hexponent := Dyadic.exponent_ofBits x.toBits.toNat
  have hleast : Dyadic.leastExponent = -1074 := rfl
  split at hmantissa <;> constructor <;> omega

/-- All bits are found again in the parts. -/
theorem word_ofBits {bits : ℕ} (hlt : bits < 2 ^ 64) :
    word (Dyadic.ofBits bits).sign (Dyadic.ofBits bits).mantissa
      (Dyadic.ofBits bits).exponent
      = bits := by
  have hmantissa := Dyadic.mantissa_ofBits bits
  have hexponent := Dyadic.exponent_ofBits bits
  have hsign : (Dyadic.ofBits bits).sign.toBitVec.toNat = bits / 2 ^ 63 := by
    show (if bits / 2 ^ 63 == 1 then Sign.negative
      else .positive).toBitVec.toNat = _
    obtain h | h : bits / 2 ^ 63 = 0 ∨ bits / 2 ^ 63 = 1 := by omega
    · rw [h]
      rfl
    · rw [h]
      rfl
  unfold word
  rw [hsign]
  split <;> split at hmantissa <;> omega

/-- Parts are packed as the bits that stand for them. -/
theorem pack_unpacked_toNat {d : Dyadic}
    (hd : d.mantissa ≠ 0 → Canonical d.mantissa d.exponent) :
    (UnpackedFloat.pack .binary64 d.unpacked).toNat
      = word d.sign d.mantissa d.exponent := by
  by_cases h : d.mantissa = 0
  · rw [Dyadic.unpacked_of_eq h, h]
    exact pack_zero_toNat _ _
  · rw [Dyadic.unpacked_of_ne h]
    exact pack_finite_toNat _ (hd h)

/-- A double is known by its bits. -/
theorem eq_of_toBits {x y : Float} (h : x.toBits = y.toBits) : x = y := by
  obtain ⟨⟨bits, _⟩⟩ := x
  obtain ⟨⟨bits', _⟩⟩ := y
  cases (h : bits = bits')
  rfl

/-- A finite double is packed from its parts. -/
theorem pack_ofFloat (hx : x.isFinite = true) :
    Float.ofModel (.pack (Dyadic.ofFloat x).unpacked) = x := by
  have hbits := pack_unpacked_toNat (canonical_ofFloat hx)
  rw [Dyadic.ofFloat_eq, word_ofBits x.toBits.toNat_lt] at hbits
  exact eq_of_toBits (UInt64.eq_of_toBitVec_eq (BitVec.eq_of_toNat_eq hbits))

-- ======================================================= whole numbers

/-- A whole number below `2 ^ 53`, moved up to the full width. -/
theorem whole_bounds (hpos : 0 < m) (hlt : m < 2 ^ 53) :
    m.log2 ≤ 52 ∧ 2 ^ 52 ≤ m * 2 ^ (52 - m.log2) ∧ m * 2 ^ (52 - m.log2)
      < 2 ^ 53 := by
  have hlog : m.log2 ≤ 52 := Nat.le_of_lt_succ ((Nat.log2_lt hpos.ne').2 hlt)
  obtain ⟨k, hk⟩ := Nat.le.dest hlog
  have hshift : 52 - m.log2 = k := by omega
  rw [hshift]
  refine ⟨hlog, ?_, ?_⟩
  · rw [← hk, pow_add]
    exact Nat.mul_le_mul_right _ (Nat.log2_self_le hpos.ne')
  · have hwidth : 2 ^ 53 = 2 ^ (m.log2 + 1) * 2 ^ k := by
      rw [← pow_add]
      congr 1
      omega
    rw [hwidth]
    exact Nat.mul_lt_mul_of_pos_right Nat.lt_log2_self (Nat.two_pow_pos k)

/-- Moving up does not change the number. -/
theorem whole_value (hpos : 0 < m) (hlt : m < 2 ^ 53) :
    (m * 2 ^ (52 - m.log2) : ℕ) * (2 : ℚ) ^ ((m.log2 : ℤ) - 52) = m := by
  obtain ⟨k, hk⟩ := Nat.le.dest (whole_bounds hpos hlt).1
  have hshift : 52 - m.log2 = k := by omega
  have hexponent : (m.log2 : ℤ) - 52 = -k := by omega
  rw [hshift, hexponent, zpow_neg, zpow_natCast]
  push_cast
  field_simp

/-- A whole number below `2 ^ 53` has the parts of a double. -/
theorem canonical_whole (hpos : 0 < m) (hlt : m < 2 ^ 53) :
    Canonical (m * 2 ^ (52 - m.log2)) (m.log2 - 52) := by
  obtain ⟨hlog, hlow, hhigh⟩ := whole_bounds hpos hlt
  have hleast : Dyadic.leastExponent = -1074 := rfl
  constructor <;> omega

/-- A whole number below `2 ^ 53` is not rounded. -/
theorem round_whole (s : Sign) (hpos : 0 < m) (hlt : m < 2 ^ 53) :
    UnpackedFloat.round .binary64 s m 0
      = .finite s (m * 2 ^ (52 - m.log2)) (m.log2 - 52) (canonical_whole hpos
        hlt).pos := by
  obtain ⟨hlog, hlow, -⟩ := whole_bounds hpos hlt
  have htarget : target m 0 = m.log2 - 52 := by
    rw [target_eq]
    omega
  have hdown : decreaseExponent m 0 (target m 0)
      = (m * 2 ^ (52 - m.log2), (m.log2 : ℤ) - 52) := by
    have hshift : (0 - target m 0).toNat = 52 - m.log2 := by omega
    rw [decreaseExponent, hshift]
    refine Prod.ext (Nat.shiftLeft_eq _ _) ?_
    show (0 : ℤ) - (52 - m.log2 : ℕ) = _
    omega
  show roundWithAccuracy _ _ (decreaseExponent m 0 (target m 0)).1
    (decreaseExponent m 0 (target m 0)).2 _ = _
  rw [hdown]
  refine roundWithAccuracy_eq (canonical_whole hpos hlt) (roundsTo_self _ _) ?_
    (le_target hlow)
  show _ = _
  field_simp

/-- A whole number below `2 ^ 53` is a double. -/
theorem unpack_toFloat (hpos : 0 < m) (hlt : m < 2 ^ 53) :
    m.toUInt64.toFloat.toModel.unpack
      = .finite .positive (m * 2 ^ (52 - m.log2)) (m.log2
        - 52) (canonical_whole hpos hlt).pos := by
  have htoNat : m.toUInt64.toNat = m :=
    UInt64.toNat_ofNat_of_lt (by show m < 2 ^ 64; omega)
  have hround : UnpackedFloat.ofUInt64 .binary64 m.toUInt64
      = UnpackedFloat.round .binary64 .positive m 0 := by
    have hcompare : compare (m : ℤ) 0 = .gt := Int.compare_eq_gt.2 (by omega)
    show UnpackedFloat.normalize _ (m.toUInt64.toNat : ℤ) _ _ = _
    rw [htoNat, UnpackedFloat.normalize, hcompare]
    rfl
  show (Float.Model.pack (UnpackedFloat.ofUInt64 .binary64 m.toUInt64)).unpack
    = _
  rw [hround, round_whole .positive hpos hlt]
  exact unpack_pack _ (canonical_whole hpos hlt)

/-- The powers of ten that are kept as doubles are exact. -/
theorem powersOfTen_exact (k : Fin 23) :
    let p := Float.exactlyRepresentablePowersOfTen[k]
    let d := Dyadic.ofFloat p
    p.isFinite = true ∧ d.negative = false
      ∧ d.mantissa * Nat.pow 2 d.exponent.toNat
        = Nat.pow 10 k * Nat.pow 2 (-d.exponent).toNat := by
  revert k
  decide +kernel

/-- A power with any exponent is a quotient of two powers, one of which is
one. -/
theorem zpow_eq_div {a : ℚ} (ha : a ≠ 0) (q : ℤ) :
    a ^ q = a ^ q.toNat / a ^ (-q).toNat := by
  rw [← zpow_natCast, ← zpow_natCast, ← zpow_sub₀ ha]
  congr 1
  omega

/-- A power of ten that is kept as a double has its parts. -/
theorem unpack_powersOfTen (hk : k ≤ 22)
    (h : k < Float.exactlyRepresentablePowersOfTen.size) :
    ∃ p e hp, Float.exactlyRepresentablePowersOfTen[k].toModel.unpack
      = .finite .positive p e hp
      ∧ (p : ℚ) * 2 ^ e = 10 ^ k := by
  obtain ⟨hfinite, hnegative, hvalue⟩ := powersOfTen_exact ⟨k, by omega⟩
  change (Dyadic.ofFloat Float.exactlyRepresentablePowersOfTen[k]).mantissa
    * 2 ^ _ = 10 ^ k * 2 ^ _ at hvalue
  change (Dyadic.ofFloat Float.exactlyRepresentablePowersOfTen[k]).negative
    = false at hnegative
  change Float.exactlyRepresentablePowersOfTen[k].isFinite = true at hfinite
  generalize Float.exactlyRepresentablePowersOfTen[k] = x at *
  have hne : (Dyadic.ofFloat x).mantissa ≠ 0 := by
    intro hzero
    rw [hzero, zero_mul] at hvalue
    have : 0 < 10 ^ k * 2 ^ (-(Dyadic.ofFloat x).exponent).toNat := by
      positivity
    omega
  have hsign : (Dyadic.ofFloat x).sign = .positive := by
    rw [Dyadic.sign, hnegative]; rfl
  refine ⟨(Dyadic.ofFloat x).mantissa, (Dyadic.ofFloat x).exponent,
    Nat.pos_of_ne_zero hne, ?_, ?_⟩
  · rw [unpack_toModel hfinite, Dyadic.unpacked_of_ne hne, hsign]
  · rw [zpow_eq_div two_ne_zero, mul_div_assoc', div_eq_iff (by positivity)]
    exact_mod_cast hvalue

-- ==================================================== decimal numbers

/-- A decimal that is rounded to a double has no more places than are
looked at. -/
theorem RoundsTo.places_le (hx : RoundsTo (m / 10 ^ k) n q)
    (hc : Canonical n q) :
    k ≤ 2 ^ 11 + m.log2 := by
  have hleast : -1074 ≤ q := hc.least
  have hlow : (2 : ℚ) ^ (q - 1) ≤ m / 10 ^ k := by
    rw [zpow_sub₀ two_ne_zero, zpow_one]
    exact hx.half_le hc.pos
  have hhigh : (m : ℚ) / 10 ^ k < 2 ^ ((m.log2 + 1 : ℕ) - k : ℤ) := by
    calc (m : ℚ) / 10 ^ k < 2 ^ (m.log2 + 1) / 10 ^ k := by
          gcongr
          exact_mod_cast Nat.lt_log2_self
      _ ≤ 2 ^ (m.log2 + 1) / 2 ^ k := by
          gcongr
          norm_num
      _ = 2 ^ ((m.log2 + 1 : ℕ) - k : ℤ) := by
          rw [zpow_sub₀ two_ne_zero, zpow_natCast, zpow_natCast]
  have hlt := (zpow_lt_zpow_iff_right₀ one_lt_two).1 (hlow.trans_lt hhigh)
  push_cast at hlt
  omega

/-- A decimal that is rounded to a double above zero is not zero. -/
theorem RoundsTo.pos_of_div (hx : RoundsTo (m / 10 ^ k) n q) (hn : 0 < n) :
    0 < m := by
  refine Nat.pos_of_ne_zero fun hzero => ?_
  have := hx.pos hn
  rw [hzero, Nat.cast_zero, zero_div] at this
  exact lt_irrefl _ this

/-- The general way to read a decimal rounds it to its double. -/
theorem ofScientific_eq (hc : Canonical n q) (hx : RoundsTo (m / 10 ^ k) n q) :
    UnpackedFloat.ofScientific .binary64 m (-k)
      = .finite .positive n q hc.pos := by
  have hpos := hx.pos_of_div hc.pos
  have hlarge : ¬(-k : ℤ) > 2 ^ 11 := by omega
  have hsmall : ¬(-k : ℤ) < -((2 ^ 11 : ℤ) + m.log2) := by
    have := hx.places_le hc
    omega
  unfold UnpackedFloat.ofScientific
  rw [dif_neg hpos.ne', if_neg hlarge, if_neg hsmall]
  by_cases hk : k = 0
  · subst hk
    have hshift : m <<< Format.binary64.mantissaBits = m * 2 ^ 53 :=
      Nat.shiftLeft_eq m 53
    rw [if_pos (by omega), mul_eq hc]
    · rfl
    · have hvalue : (m <<< Format.binary64.mantissaBits : ℕ)
          * (2 : ℚ) ^ (-Format.binary64.mantissaBits : ℤ) = m := by
        rw [hshift]
        show ((m * 2 ^ 53 : ℕ) : ℚ) * 2 ^ (-53 : ℤ) = m
        push_cast
        ring
      rw [hvalue, zpow_zero]
      simpa using hx
    · rw [hshift]
      show 2 ^ 52 ≤ m * 2 ^ 53 * 1
      omega
  · rw [if_neg (by omega), div_eq hc]
    · rfl
    · have htoNat : (-(-k : ℤ)).toNat = k := by omega
      rw [htoNat]
      push_cast
      rw [mul_one, mul_one]
      exact hx

/-- So does the division of a whole number by a power of ten, if both are
doubles. -/
theorem toFloat_div_eq (hc : Canonical n q) (hx : RoundsTo (m / 10 ^ k) n q)
    (hlt : m < 2 ^ 53) (hk : k ≤ 22)
    (h : k < Float.exactlyRepresentablePowersOfTen.size) :
    m.toUInt64.toFloat / Float.exactlyRepresentablePowersOfTen[k]
      = .ofModel (.pack (.finite .positive n q hc.pos)) := by
  have hpos := hx.pos_of_div hc.pos
  obtain ⟨p, e, hp, hunpack, hvalue⟩ := unpack_powersOfTen hk h
  show Float.ofModel (.pack
    (UnpackedFloat.div .binary64 m.toUInt64.toFloat.toModel.unpack
      Float.exactlyRepresentablePowersOfTen[k].toModel.unpack)) = _
  rw [unpack_toFloat hpos hlt, hunpack, div_eq hc]
  · rfl
  · rw [whole_value hpos hlt, hvalue]
    exact hx

/-- So does the product with the power of ten that is one, for a decimal
without places. -/
theorem toFloat_mul_eq (hc : Canonical n q) (hx : RoundsTo (m / 10 ^ 0) n q)
    (hlt : m < 2 ^ 53) (h : 0 < Float.exactlyRepresentablePowersOfTen.size) :
    m.toUInt64.toFloat * Float.exactlyRepresentablePowersOfTen[0]
      = .ofModel (.pack (.finite .positive n q hc.pos)) := by
  have hpos := hx.pos_of_div hc.pos
  obtain ⟨p, e, hp, hunpack, hvalue⟩ := unpack_powersOfTen (Nat.zero_le 22) h
  show Float.ofModel (.pack
    (UnpackedFloat.mul .binary64 m.toUInt64.toFloat.toModel.unpack
      Float.exactlyRepresentablePowersOfTen[0].toModel.unpack)) = _
  rw [unpack_toFloat hpos hlt, hunpack, mul_eq hc]
  · rfl
  · rw [whole_value hpos hlt, hvalue, pow_zero, mul_one]
    rwa [pow_zero, div_one] at hx
  · exact (whole_bounds hpos hlt).2.1.trans (Nat.le_mul_of_pos_right _ hp)

/-- The double nearest to a decimal is the one in whose interval it lies. -/
theorem ofScaled_eq (hc : Canonical n q) (hx : RoundsTo (m / 10 ^ k) n q) :
    ofScaled m (-k) = .ofModel (.pack (.finite .positive n q hc.pos)) := by
  have hnatAbs : (-k : ℤ).natAbs = k := by omega
  have hsign : (-k : ℤ) < 0 ↔ k ≠ 0 := by omega
  unfold ofScaled Float.ofScientific
  rw [hnatAbs, decide_eq_decide.2 hsign]
  by_cases hfast : m < 2 ^ 53 ∧ k ≤ 22
  · rw [dif_pos hfast]
    show (if decide (k ≠ 0) = true then m.toUInt64.toFloat / _
      else m.toUInt64.toFloat * _) = _
    by_cases hk : k = 0
    · subst hk
      exact toFloat_mul_eq hc hx hfast.1 (by decide)
    · rw [if_pos (decide_eq_true hk)]
      exact toFloat_div_eq hc hx hfast.1 hfast.2 (Nat.lt_succ_of_le hfast.2)
  · rw [dif_neg hfast]
    show Float.ofModel (.pack (UnpackedFloat.ofScientific .binary64 m
      (if decide (k ≠ 0) = true then Int.negOfNat k else Int.ofNat k))) = _
    by_cases hk : k = 0
    · subst hk
      exact congrArg (fun u => Float.ofModel (.pack u)) (ofScientific_eq hc hx)
    · rw [if_pos (decide_eq_true hk), Int.negOfNat_eq]
      exact congrArg (fun u => Float.ofModel (.pack u)) (ofScientific_eq hc hx)

end BisayaPlus.Number
