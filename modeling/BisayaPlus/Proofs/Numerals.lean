/-
Numerals.

A numeral of the language is a run of digits, or two of them with a point
between. The reader of decimals (`Number/Reader.lean`) takes more than
that: signs, exponents, the words for special numbers. On a numeral none
of these comes in, and it reads all of it: its digits before and after
the point are those of the decimal, so a numeral always has a value.
-/
import BisayaPlus.Proofs.Lexicon

namespace BisayaPlus.Number

variable {c : Char} {cs : List Char}

theorem toLower_of_isDigit (hc : c.isDigit = true) : c.toLower = c := by
  obtain ⟨-, hhigh⟩ := Char.isDigit_iff_toNat.1 hc
  apply dif_neg
  rintro ⟨hlow, -⟩
  have hlow : 'A'.toNat ≤ c.toNat := UInt32.le_iff_toNat_le.1 hlow
  exact absurd (Nat.le_trans hlow hhigh) (by decide)

/-- No sign is a digit. -/
theorem takeSign_of_isDigit (hc : c.isDigit = true) :
    takeSign (c :: cs) = (false, c :: cs) := by
  rw [takeSign.eq_def]
  split
  next heq =>
    obtain ⟨rfl, -⟩ := List.cons.inj heq
    exact absurd hc (by decide)
  next heq =>
    obtain ⟨rfl, -⟩ := List.cons.inj heq
    exact absurd hc (by decide)
  next => rfl

/-- What starts with a digit is read as a decimal: it has no sign and is
none of the words for special numbers. -/
theorem read?_of_isDigit (hc : c.isDigit = true) :
    read? (c :: cs) = readDecimal (c :: cs) := by
  have hlower : ∀ d ds,
      d.isDigit = false → (c :: cs).map Char.toLower ≠ d :: ds := by
    intro d ds hd heq
    obtain ⟨rfl, -⟩ := List.cons.inj heq
    rw [toLower_of_isDigit hc, hc] at hd
    cases hd
  have hword : readWord (c :: cs) = none := by
    unfold readWord
    dsimp only
    rw [if_neg, if_neg]
    · exact hlower 'n' ['a', 'n'] rfl
    · rintro (heq | heq)
      · exact hlower 'i' ['n', 'f'] rfl heq
      · exact hlower 'i' ['n', 'f', 'i', 'n', 'i', 't', 'y'] rfl heq
  unfold read?
  rw [takeSign_of_isDigit hc]
  dsimp only
  rw [hword]
  exact Option.map_id'

/-- A minus before a digit negates what is read from there on. -/
theorem read?_minus (hc : c.isDigit = true) :
    read? ('-' :: c :: cs) = (read? (c :: cs)).map (- ·) := by
  unfold read?
  rw [takeSign_of_isDigit hc]
  show Option.map _ _ = Option.map _ (Option.map _ _)
  rw [Option.map_map]
  rfl

end BisayaPlus.Number

namespace BisayaPlus.Token

theorem stops_nil (p : Char → Bool) : Stops p [] := by
  intro c hc
  cases hc

theorem stops_cons {p : Char → Bool} {c : Char} (hc : p c = false)
    (cs : List Char) :
    Stops p (c :: cs) := by
  intro d hd
  cases hd
  exact hc

namespace Digits

variable {ds fraction : List Char}

theorem takeWhile_eq (h : Digits ds) : ds.takeWhile Char.isDigit = ds := by
  have hrun := takeWhile_run h.2 (stops_nil Char.isDigit)
  rwa [List.append_nil] at hrun

/-- The digits before a point end there. -/
theorem takeWhile_point (h : Digits ds) (cs : List Char) :
    (ds ++ '.' :: cs).takeWhile Char.isDigit = ds :=
  takeWhile_run h.2 (stops_cons rfl cs)

/-- Digits alone are read as they stand. -/
theorem read?_eq (h : Digits ds) :
    Number.read? ds = some (Number.ofDecimal ds []) := by
  have hrun := h.takeWhile_eq
  cases ds with
  | nil => exact absurd rfl h.1
  | cons d ds =>
      rw [Number.read?_of_isDigit (h.2 d List.mem_cons_self),
        Number.readDecimal]
      simp only [hrun, List.drop_length]
      rfl

/-- Digits, a point and digits are read as they stand. -/
theorem read?_point (h : Digits ds) (hfraction : Digits fraction) :
    Number.read? (ds ++ '.' :: fraction)
      = some (Number.ofDecimal ds fraction) := by
  have hwhole := h.takeWhile_point fraction
  have hdrop : (ds ++ '.' :: fraction).drop ds.length = '.' :: fraction :=
    List.drop_left
  cases ds with
  | nil => exact absurd rfl h.1
  | cons d ds =>
      rw [List.cons_append] at hwhole hdrop ⊢
      rw [Number.read?_of_isDigit (h.2 d List.mem_cons_self),
        Number.readDecimal]
      simp only [hwhole, hdrop, hfraction.takeWhile_eq, List.drop_length]
      show some (Number.ofScaled _ (0 - _)) = _
      rw [Int.zero_sub]
      rfl

end Digits

end BisayaPlus.Token
