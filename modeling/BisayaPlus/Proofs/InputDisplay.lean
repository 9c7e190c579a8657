/-
What is displayed can be typed in again.

A value is displayed as a text, and a line of input is read as a value of
the type that the variable has. Reading takes line ends off the line and
all double quotes out of it; for numbers and truth values it takes off
blanks as well, for characters it does not. So the text of a value passes
three sieves, in this order, and the theorem says for which values
nothing is lost: for every finite number, whose text has only characters
that all sieves let through (`Counts`) and is read back exactly
(`Proofs/Decimals.lean`), for both truth values, and for all characters
but the three that the first two sieves hold back. The numbers that are
not finite have texts too, which are read as numbers and then refused.

The sieves also say what may be added to a line. Quotes are taken out
wherever they stand, but line ends only behind all else, so a quote
behind a line end would keep it. The lines of which the theorem speaks
have no line end last before quotes are put in.
-/
import BisayaPlus.Proofs.Decimals
import BisayaPlus.Proofs.Dialogue
import BisayaPlus.Proofs.StoreTyping

namespace BisayaPlus

-- ========================================================== plain texts

namespace Text

variable {p : Char → Bool} {cs : List Char}

/-- There is nothing to drop behind a last character of another class. -/
theorem dropEnd_eq_self (h : ∀ c, cs.getLast? = some c → p c = false) :
    dropEnd p cs = cs := by
  unfold dropEnd
  cases hreverse : cs.reverse with
  | nil =>
      rw [List.reverse_eq_nil_iff.1 hreverse]
      rfl
  | cons c rest =>
      have hlast : p c = false :=
        h c (by rw [← List.head?_reverse, hreverse]; rfl)
      rw [List.dropWhile_cons_of_neg (by rw [hlast]; decide), ← hreverse,
        List.reverse_reverse]

/-- A text without blanks is not trimmed. -/
theorem trim_eq_self (h : ∀ c ∈ cs, isBlank c = false) : trim cs = cs := by
  have hfront : cs.dropWhile isBlank = cs := by
    cases cs with
    | nil => rfl
    | cons c cs =>
        exact List.dropWhile_cons_of_neg
          (by rw [h c List.mem_cons_self]; decide)
  unfold trim
  rw [hfront]
  exact dropEnd_eq_self fun c hc => h c (List.mem_of_getLast? hc)

end Text

namespace Run

/-- The character counts wherever it stands in a line. -/
def Counts (c : Char) : Prop := c ≠ '"' ∧ Text.isBlank c = false

instance : DecidablePred Counts :=
  fun c => inferInstanceAs (Decidable (c ≠ '"' ∧ Text.isBlank c = false))

/-- The characters of a number count in a line of input. -/
theorem counts_of_number {c : Char}
    (h : c.isDigit = true ∨ c = '.' ∨ c = '-') : Counts c := by
  rcases h with hdigit | rfl | rfl
  · constructor
    · rintro rfl
      cases hdigit
    · obtain ⟨hlow, hhigh⟩ := Char.isDigit_iff_toNat.1 hdigit
      change 48 ≤ c.toNat at hlow
      change c.toNat ≤ 57 at hhigh
      simp only [Text.isBlank, Bool.or_eq_false_iff, Bool.and_eq_false_iff,
        decide_eq_false_iff_not, beq_eq_false_iff_ne]
      omega
  · decide
  · decide

/-- Line ends are blanks, so a line of characters that count has none. -/
theorem inputText_of_counts {cs : List Char} (h : ∀ c ∈ cs, Counts c) :
    inputText (String.ofList cs) = cs := by
  have hend : Text.dropEnd (fun c => c == '\n' || c == '\r') cs = cs := by
    refine Text.dropEnd_eq_self fun c hc => ?_
    have hblank := (h c (List.mem_of_getLast? hc)).2
    have hne : ∀ d, Text.isBlank d = true → (c == d) = false := by
      intro d hd
      refine beq_eq_false_iff_ne.2 ?_
      rintro rfl
      rw [hblank] at hd
      cases hd
    rw [hne '\n' rfl, hne '\r' rfl]
    rfl
  unfold inputText
  rw [String.toList_ofList, hend]
  exact List.filter_eq_self.2 fun c hc => decide_eq_true (h c hc).1

end Run

-- ============================================== the texts of numbers

/-- A double is finite, or infinite or no number. -/
theorem Number.isFinite_cases (x : Float) :
    (x.isFinite = true ∧ x.isNaN = false ∧ x.isInf = false)
      ∨ (x.isFinite = false ∧ (x.isNaN = true ∨ x.isInf = true)) := by
  unfold Float.isFinite Float.isNaN Float.isInf Float.Model.isFinite
    Float.Model.isNaN Float.Model.isInf
  cases x.toModel.unpack with
  | finite _ _ _ _ | zero _ => exact .inl ⟨rfl, rfl, rfl⟩
  | infinity _ => exact .inr ⟨rfl, .inr rfl⟩
  | notANumber => exact .inr ⟨rfl, .inl rfl⟩

namespace Value

variable {x : Float}

theorem layout_positional : layout.Positional where
  plain _ := rfl
  whole := rfl

theorem numberText_of_isFinite (hx : x.isFinite = true) :
    numberText x = layout.write x := by
  obtain ⟨-, hnan, hinf⟩ | ⟨hx', -⟩ := Number.isFinite_cases x
  · unfold numberText
    rw [hnan, hinf]
    rfl
  · rw [hx] at hx'
    cases hx'

/-- The texts of the numbers that are not finite. -/
def notFinite : List (List Char) := ["NaN".toList, "inf".toList, "-inf".toList]

/-- A double that is not finite is shown as a word. -/
theorem numberText_mem_notFinite (hx : x.isFinite = false) :
    numberText x ∈ notFinite := by
  obtain ⟨hx', -⟩ | ⟨-, hspecial⟩ := Number.isFinite_cases x
  · rw [hx] at hx'
    cases hx'
  · unfold numberText notFinite
    split
    · exact List.mem_cons_self
    next hnan =>
      rw [if_pos (hspecial.resolve_left hnan)]
      split
      · exact List.mem_cons_of_mem _
          (List.mem_cons_of_mem _ List.mem_cons_self)
      · exact List.mem_cons_of_mem _ List.mem_cons_self

end Value

-- ================================================= values and their lines

/-- A line can be read as the value. -/
def Value.legible : Value → Bool
  | number x => x.isFinite
  | char c => c ≠ '\n' && c ≠ '\r' && c ≠ '"'
  | _ => true

namespace Run

variable {type : VarType} {x : Float} {cs : List Char}

/-- A line of characters that count is read as the number they spell. -/
theorem ofInput_of_counts (htype : type.accepts (.number x) = true)
    (h : ∀ c ∈ cs, Counts c) (name : Token) :
    ofInput (String.ofList cs) type name = (inputNumber? cs).elim
      (.error ⟨.notNumber name.lexeme type (String.ofList cs), name.span⟩)
      (fun y => .ok (.number y)) := by
  have htrim : Text.trim cs = cs := Text.trim_eq_self fun c hc => (h c hc).2
  unfold ofInput
  rw [inputText_of_counts h]
  cases type with
  | numero | tipik =>
      dsimp only
      rw [htrim]
      cases inputNumber? cs <;> rfl
  | letra | tinuod => cases htype

/-- A finite number is read from its text. -/
theorem ofInput_number (htype : type.accepts (.number x) = true)
    (hx : x.isFinite = true) (name : Token) :
    ofInput (Value.display (.number x)) type name = .ok (.number x) := by
  have hcounts : ∀ c ∈ Value.layout.write x, Counts c := fun c hc =>
    counts_of_number (Value.layout_positional.mem_write hx c hc)
  have hinput : inputNumber? (Value.layout.write x) = some x := by
    unfold inputNumber?
    rw [Value.layout_positional.read?_write hx, Option.filter_some_pos hx]
  show ofInput (String.ofList (Value.numberText x)) type name = _
  rw [Value.numberText_of_isFinite hx, ofInput_of_counts htype hcounts, hinput]
  rfl

/-- The texts of the other numbers spell numbers that input does not take. -/
theorem ofInput_notFinite (htype : type.accepts (.number x) = true)
    (hx : x.isFinite = false) (name : Token) :
    ∃ e, ofInput (Value.display (.number x)) type name = .error e := by
  have hnone : ∀ cs ∈ Value.notFinite, (inputNumber? cs).isNone = true := by
    decide +kernel
  have hall : ∀ cs ∈ Value.notFinite, cs.all (decide <| Counts ·) = true := by
    decide
  have hmem := Value.numberText_mem_notFinite hx
  have hcounts : ∀ c ∈ Value.numberText x, Counts c := fun c hc =>
    of_decide_eq_true (List.all_eq_true.1 (hall _ hmem) c hc)
  show ∃ e, ofInput (String.ofList (Value.numberText x)) type name = .error e
  rw [ofInput_of_counts htype hcounts,
    Option.isNone_iff_eq_none.1 (hnone _ hmem)]
  exact ⟨_, rfl⟩

/-- A truth value that is shown is read back. -/
theorem ofInput_truth (b : Bool) (name : Token) :
    ofInput (Value.display (.truth b)) .tinuod name = .ok (.truth b) := by
  cases b <;> rfl

theorem inputText_singleton (c : Char) :
    inputText (String.singleton c) = if (Value.char c).legible then [c]
      else [] := by
  by_cases hfeed : c = '\n'
  · subst hfeed
    rfl
  by_cases hreturn : c = '\r'
  · subst hreturn
    rfl
  by_cases hquote : c = '"'
  · subst hquote
    rfl
  simp [inputText, Text.dropEnd, Value.legible, hfeed, hreturn, hquote]

/-- A character is read from a line of its own, a blank too. -/
theorem ofInput_char (c : Char) (name : Token) :
    ofInput (Value.display (.char c)) .letra name
      = if (Value.char c).legible then .ok (.char c)
        else .error ⟨.notCharacter name.lexeme, name.span⟩ := by
  have htext : inputText (Value.display (.char c)) = _ := inputText_singleton c
  unfold ofInput
  cases hlegible : (Value.char c).legible with
  | true =>
      rw [htext, hlegible]
      rfl
  | false =>
      rw [htext, hlegible]
      rfl

/-- A value that the type admits is read from the line that displays it,
or nothing is. -/
theorem ofInput_displayed {v : Value} (hv : type.accepts v = true)
    (name : Token) :
    (v.legible = true → ofInput v.display type name = .ok v)
      ∧ (v.legible = false → ∃ e, ofInput v.display type name = .error e) := by
  cases v with
  | number x =>
      exact ⟨fun hx => ofInput_number hv hx name,
        fun hx => ofInput_notFinite hv hx name⟩
  | truth b =>
      cases type with
      | tinuod => exact ⟨fun _ => ofInput_truth b name, fun h => by cases h⟩
      | numero | tipik | letra => cases hv
  | char c =>
      cases type with
      | letra =>
          rw [ofInput_char]
          exact ⟨fun hc => if_pos hc,
            fun hc => ⟨_, if_neg (by rw [hc]; decide)⟩⟩
      | numero | tipik | tinuod => cases hv
  | text s => exact absurd rfl ((VarType.accepts_ne hv).2 s)
  | null => exact absurd rfl (VarType.accepts_ne hv).1

-- =========================================================== quoted lines

/-- The second text is the first with double quotes put in anywhere. -/
inductive Quoted : List Char → List Char → Prop where
  | nil : Quoted [] []
  | keep (c : Char) {cs cs' : List Char} : Quoted cs cs' → Quoted (c :: cs)
      (c :: cs')
  | quote {cs cs' : List Char} : Quoted cs cs' → Quoted cs ('"' :: cs')

namespace Quoted

variable {cs cs' : List Char}

/-- Lines that differ in quotes only are the same without them. -/
theorem filter_eq (h : Quoted cs cs') :
    cs'.filter (· ≠ '"') = cs.filter (· ≠ '"') := by
  induction h with
  | nil => rfl
  | keep c _ ih => rw [List.filter_cons, List.filter_cons, ih]
  | quote _ ih => exact ih

/-- What is last in the quoted text is a quote or was last before. -/
theorem last (h : Quoted cs cs') {c : Char} (hc : cs'.getLast? = some c) :
    c = '"' ∨ cs.getLast? = some c := by
  induction h with
  | nil => cases hc
  | @keep d cs cs' h ih =>
      rw [List.getLast?_cons] at hc
      cases hlast : cs'.getLast? with
      | none =>
          obtain rfl := List.getLast?_eq_none_iff.1 hlast
          cases h
          exact .inr hc
      | some b =>
          rw [hlast] at hc
          refine (ih (hlast.trans hc)).imp_right fun hb => ?_
          rw [List.getLast?_cons, hb]
          rfl
  | @quote cs cs' h ih =>
      rw [List.getLast?_cons] at hc
      cases hlast : cs'.getLast? with
      | none =>
          rw [hlast] at hc
          exact .inl (Option.some.inj hc).symm
      | some b =>
          rw [hlast] at hc
          exact ih (hlast.trans hc)

end Quoted

/-- Quotes in a line, and line ends behind it, do not count. -/
theorem inputText_quoted {line quoted ends : String}
    (h : Quoted line.toList quoted.toList)
    (hline : ∀ c ∈ line.toList.getLast?, c ≠ '\n' ∧ c ≠ '\r')
    (hends : ∀ c ∈ ends.toList, c = '\n' ∨ c = '\r') :
    inputText (quoted ++ ends) = inputText line := by
  have hkeeps : ∀ c, line.toList.getLast? = some c →
      (c == '\n' || c == '\r') = false := by
    intro c hc
    simp [hline c hc]
  have hkeeps' : ∀ c, quoted.toList.getLast? = some c →
      (c == '\n' || c == '\r') = false := by
    intro c hc
    rcases h.last hc with rfl | hc
    · rfl
    · exact hkeeps c hc
  unfold inputText
  rw [String.toList_append, dropEnd_append, Text.dropEnd_eq_self hkeeps,
    Text.dropEnd_eq_self hkeeps', h.filter_eq]
  intro c hc
  rcases hends c hc with rfl | rfl <;> rfl

-- ========================================================= the theorem

/-- A value that a type admits is read, for that type, from the line that
displays it, but for a number that is not finite and for a character that
a line cannot hold, a line feed, a carriage return or a double quote:
there the line is refused as input. In a line that ends in neither a line
feed nor a carriage return, double quotes may be put in anywhere, and any
line feeds and carriage returns behind: it is read as before, or refused
as before. -/
theorem ofInput_display (type : VarType) (name : Token) :
    (∀ v, type.accepts v = true →
        (v.legible = true → ofInput v.display type name = .ok v)
          ∧ (v.legible = false →
            ∃ e, ofInput v.display type name = .error e
            ∧ e.fault.code = .input))
      ∧ ∀ line quoted ends : String,
        (∀ c ∈ line.toList.getLast?, c ≠ '\n' ∧ c ≠ '\r') →
        Quoted line.toList quoted.toList →
        (∀ c ∈ ends.toList, c = '\n' ∨ c = '\r') →
          ofInput (quoted ++ ends) type name = ofInput line type name := by
  constructor
  · intro v hv
    obtain ⟨hread, hrefused⟩ := ofInput_displayed hv name
    refine ⟨hread, fun hv' => ?_⟩
    obtain ⟨e, he⟩ := hrefused hv'
    exact ⟨e, he, ofInput_code he⟩
  · intro line quoted ends hline hquoted hends
    unfold ofInput
    rw [inputText_quoted hquoted hline hends]

/-- A sum that no short decimal names comes back digit by digit, a double
quote does not come back, and quotes and line ends around a truth value
do no harm. -/
theorem ofInput_display_sum :
    let name : Token := ⟨.identifier, "x", none, ⟨1, 0⟩⟩
    let sum : Float := 0.1 + 0.2
    ofInput (Value.display (.number sum)) .tipik name = .ok (.number sum)
      ∧ (∃ e, ofInput (Value.display (.char '"')) .letra name = .error e
        ∧ e.fault.code = .input)
      ∧ ofInput ("\"O\"O" ++ "\r\n") .tinuod name
        = ofInput "OO" .tinuod name := by
  intro name sum
  refine ⟨((ofInput_display .tipik name).1 (.number sum) rfl).1
    (by decide +kernel), ((ofInput_display .letra name).1 (.char '"') rfl).2
    rfl, (ofInput_display .tinuod name).2 "OO" "\"O\"O" "\r\n" ?_ ?_ ?_⟩
  · intro c hc
    obtain rfl : 'O' = c := Option.some.inj hc
    exact ⟨by decide, by decide⟩
  · exact .quote (.keep 'O' (.quote (.keep 'O' .nil)))
  · intro c hc
    have hmem : c ∈ ['\r', '\n'] := hc
    simpa [or_comm] using hmem

end Run

end BisayaPlus
