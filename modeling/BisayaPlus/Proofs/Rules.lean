/-
The rules of the lexical grammar fix the scanner's step.

`Slice.next_cuts` says that the slice the scanner cuts off follows a
rule. Here is the converse for slices that are no mistake (`Cut.next_eq`):
a text that starts as some rule says has that slice for its first one. To
find the first slice of a text it is then enough to know what may follow
it, and the scanner's step need not be opened again.

`Spelled cs contents` puts the rules in a row: the text `cs` is made of
tokens with these contents, and of blanks and comments. Such a text scans
to these tokens (`Spelled.scan`), wherever they come to stand.
-/
import BisayaPlus.Proofs.Slices

namespace BisayaPlus.Token

/-- The first word of a pair ends at the gap. -/
theorem Joined.gap_stops {first gap second rest : List Char} {kind : Kind}
    (h : Joined first gap second rest kind) (behind : List Char) :
    Stops Slice.isWordChar (gap ++ behind) := by
  intro c hc
  cases gap with
  | nil => exact absurd rfl h.gap_ne
  | cons d gap =>
      cases hc
      have hblank := h.gap_blank c List.mem_cons_self
      simp only [Bool.or_eq_true, beq_iff_eq] at hblank
      obtain rfl | rfl := hblank
      · decide
      · decide

namespace Slice

-- ============================================================ openings

/-- A digit opens a number. -/
theorem next_of_isDigit {c : Char} (hc : c.isDigit = true) (cs : List Char) :
    next c cs = number c cs := by
  fun_cases next c cs
  case case29 => rfl
  case case30 hdigit _ | case31 hdigit _ => exact absurd hc hdigit
  all_goals exact absurd hc (by decide)

/-- No letter comes before `A`. -/
theorem le_toNat_of_isAlpha {c : Char} (hc : c.isAlpha = true) :
    'A'.toNat ≤ c.toNat := by
  have hle {d : Char} (hd : d.val ≤ c.val) : d.toNat ≤ c.toNat :=
    UInt32.le_iff_toNat_le.1 hd
  obtain hupper | hlower : c.isUpper = true ∨ c.isLower = true :=
    Bool.or_eq_true_iff.1 hc
  · have hbounds : 'A'.val ≤ c.val ∧ c.val ≤ 'Z'.val :=
      of_decide_eq_true hupper
    exact hle hbounds.1
  · have hlow : 'a'.val ≤ c.val :=
      of_decide_eq_true (Bool.and_eq_true_iff.1 hlower).1
    exact Nat.le_trans (by decide) (hle hlow)

/-- What opens a word is no digit. -/
theorem isDigit_of_isWordStart {c : Char} (hc : isWordStart c = true) :
    c.isDigit = false := by
  rw [Bool.eq_false_iff]
  intro hdigit
  obtain ⟨-, hhigh⟩ := Char.isDigit_iff_toNat.1 hdigit
  obtain halpha | hunder := Bool.or_eq_true_iff.1 hc
  · have hlow : 65 ≤ c.toNat := le_toNat_of_isAlpha halpha
    change c.toNat ≤ 57 at hhigh
    omega
  · rw [eq_of_beq hunder] at hdigit
    cases hdigit

/-- A letter or an underscore opens a word. -/
theorem next_of_isWordStart {c : Char} (hc : isWordStart c = true)
    (cs : List Char) :
    next c cs = word c cs := by
  have hdigit := isDigit_of_isWordStart hc
  fun_cases next c cs
  case case29 hdigit' => exact absurd hdigit' (by simp [hdigit])
  case case30 => rfl
  case case31 hword => exact absurd hc hword
  all_goals exact absurd hc (by decide)

-- ======================================================== kinds of slice

/-- A text ends at its second quote; two texts are truth values. -/
theorem afterQuote_of_closed {body : List Char} (hbody : '"' ∉ body)
    (rest : List Char) :
    afterQuote ((body ++ ['"']) ++ rest) =
      match String.ofList body with
      | "OO" => literal .oo (.truth true) (body.length + 1)
      | "DILI" => literal .dili (.truth false) (body.length + 1)
      | s => literal .string (.text s) (body.length + 1) := by
  have hrun : ((body ++ ['"']) ++ rest).takeWhile (· ≠ '"') = body := by
    rw [List.append_assoc]
    apply takeWhile_run
    · intro c hc
      exact decide_eq_true fun heq => hbody (heq ▸ hc)
    · intro c hc
      cases hc
      rfl
  unfold afterQuote
  rw [hrun]
  exact if_neg (by simp)

/-- A character stands between apostrophes. -/
theorem afterApostrophe_of_bare {c : Char} (hc : c ∉ ['\'', '\\', '\n'])
    (rest : List Char) :
    afterApostrophe (c :: '\'' :: rest) = literal .character (.char c) 2 := by
  simp only [List.mem_cons, List.not_mem_nil, or_false, not_or] at hc
  obtain ⟨hquote, hescape, hline⟩ := hc
  rw [afterApostrophe.eq_def]
  split
  next heq => cases heq
  next heq => exact absurd (List.cons.inj heq).1 hline
  next heq => exact absurd (List.cons.inj heq).1 hquote
  next heq => exact absurd (List.cons.inj heq).1 hescape
  next heq =>
    obtain ⟨rfl, rfl⟩ := List.cons.inj heq
    rfl

/-- An escape code stands between brackets. -/
theorem afterBracket_of_closed {c : Char} (hc : c ≠ '\n') (rest : List Char) :
    afterBracket (c :: ']' :: rest) = literal .escapeCode (.char c) 2 := by
  rw [afterBracket]
  rintro rfl
  exact hc rfl

/-- A comment ends where its line ends. -/
theorem next_comment {body rest : List Char} (hbody : '\n' ∉ body)
    (hrest : EndsLine rest) :
    next '-' ('-' :: body ++ rest) = ⟨.comment, body.length + 1⟩ := by
  have hrun : ('-' :: body ++ rest).takeWhile (· ≠ '\n') = '-' :: body := by
    apply takeWhile_run
    · intro c hc
      obtain rfl | hc := List.mem_cons.1 hc
      · rfl
      · exact decide_eq_true fun heq => hbody (heq ▸ hc)
    · exact hrest
  show (⟨.comment, (('-' :: body ++ rest).takeWhile (· ≠ '\n')).length⟩ :
    Slice) = _
  rw [hrun]
  rfl

/-- A minus is a sign where no second one follows. -/
theorem next_minus {rest : List Char}
    (h : ∀ more, rest = '-' :: more → False) :
    next '-' rest = plain .minus 0 := by
  rw [next]
  exact h

/-- An equals sign alone assigns. -/
theorem next_assign {rest : List Char}
    (h : ∀ more, rest = '=' :: more → False) :
    next '=' rest = plain .assign 0 := by
  rw [next]
  exact h

/-- The sign `<` is read alone where neither `=` nor `>` follows. -/
theorem next_less {rest : List Char}
    (hequals : ∀ more, rest = '=' :: more → False)
    (hgreater : ∀ more, rest = '>' :: more → False) :
    next '<' rest = plain .less 0 := by
  rw [next]
  · exact hequals
  · exact hgreater

/-- The sign `>` is read alone where no `=` follows. -/
theorem next_greater {rest : List Char}
    (h : ∀ more, rest = '=' :: more → False) :
    next '>' rest = plain .greater 0 := by
  rw [next]
  exact h

/-- A sign is read where no longer opening stands. -/
theorem next_sign {text rest : List Char} {kind : Kind}
    (hsign : (text, kind) ∈ signs)
    (hrest : ∀ d, rest.head? = some d → text ++ [d] ∉ wider) :
    ∃ c more, text = c :: more ∧ next c (more ++ rest)
      = plain kind more.length := by
  have hstop : ∀ d, text ++ [d] ∈ wider → ∀ more,
      rest = d :: more → False := by
    rintro d hwider more rfl
    exact hrest d rfl hwider
  simp only [signs, List.mem_cons, List.not_mem_nil, or_false,
    Prod.mk.injEq] at hsign
  rcases hsign with ⟨rfl, rfl⟩ | ⟨rfl, rfl⟩ | ⟨rfl, rfl⟩ | ⟨rfl, rfl⟩
    | ⟨rfl, rfl⟩ | ⟨rfl, rfl⟩ | ⟨rfl, rfl⟩ | ⟨rfl, rfl⟩ | ⟨rfl, rfl⟩
    | ⟨rfl, rfl⟩ | ⟨rfl, rfl⟩ | ⟨rfl, rfl⟩ | ⟨rfl, rfl⟩ | ⟨rfl, rfl⟩
    | ⟨rfl, rfl⟩ | ⟨rfl, rfl⟩ | ⟨rfl, rfl⟩ | ⟨rfl, rfl⟩ | ⟨rfl, rfl⟩
    | ⟨rfl, rfl⟩
  all_goals refine ⟨_, _, rfl, ?_⟩
  -- four signs start a longer opening; the others are read at sight
  all_goals first
    | rfl
    | exact next_minus (hstop '-' (by decide))
    | exact next_assign (hstop '=' (by decide))
    | exact next_less (hstop '=' (by decide)) (hstop '>' (by decide))
    | exact next_greater (hstop '=' (by decide))

/-- A number without a point ends behind its digits. A point behind them
does not count where no digit follows it. -/
theorem number_of_whole {c : Char} {more rest : List Char}
    (hmore : ∀ d ∈ more, d.isDigit = true) (hrest : Stops Char.isDigit rest)
    (hpoint : ∀ behind, rest = '.' :: behind → Stops Char.isDigit behind) :
    number c (more ++ rest) =
      literal .number (.number (Number.ofDecimal (c :: more) []))
        more.length := by
  unfold number
  rw [takeWhile_run hmore hrest]
  dsimp only
  rw [List.drop_left]
  split
  next d behind =>
    rw [if_neg]
    simp [hpoint (d :: behind) rfl d rfl]
  next => rfl

/-- A number with a point ends behind the digits that follow it. -/
theorem number_of_decimal {c : Char} {more fraction rest : List Char}
    (hmore : ∀ d ∈ more, d.isDigit = true) (hfraction : Digits fraction)
    (hrest : Stops Char.isDigit rest) :
    number c ((more ++ '.' :: fraction) ++ rest) =
      literal .number (.number (Number.ofDecimal (c :: more) fraction))
        (more ++ '.' :: fraction).length := by
  obtain ⟨hne, hdigits⟩ := hfraction
  cases fraction with
  | nil => exact absurd rfl hne
  | cons d fraction =>
      have hstop : Stops Char.isDigit ('.' :: d :: fraction ++ rest) := by
        intro c hc
        cases hc
        rfl
      have hrun :=
        takeWhile_run (fun e he => hdigits e (List.mem_cons_of_mem d he)) hrest
      unfold number
      rw [List.append_assoc, takeWhile_run hmore hstop]
      dsimp only
      rw [List.drop_left]
      simp only [List.cons_append, hdigits d List.mem_cons_self, if_true, hrun]
      simp [literal, Nat.add_assoc, Nat.add_comm 1]

/-- Two words that make up a pair are one keyword. -/
theorem word_of_joined {c : Char} {tail gap second rest : List Char}
    {kind : Kind} (htail : ∀ d ∈ tail, isWordChar d = true)
    (h : Joined (c :: tail) gap second rest kind) :
    word c ((tail ++ (gap ++ second)) ++ rest) =
      plain kind (tail ++ (gap ++ second)).length := by
  unfold word
  rw [List.append_assoc, List.append_assoc,
    takeWhile_run htail (h.gap_stops _)]
  dsimp only
  rw [List.drop_left, if_pos h.opens, pair?_of_joined h]
  simp [plain]

/-- Any other word stands alone. -/
theorem word_of_alone {c : Char} {tail rest : List Char}
    (htail : ∀ d ∈ tail, isWordChar d = true) (hrest : Stops isWordChar rest)
    (halone : ∀ gap second more kind, rest = gap ++ (second ++ more) →
      ¬ Joined (c :: tail) gap second more kind) :
    word c (tail ++ rest) =
      plain ((keyword? (String.ofList (c :: tail))).getD .identifier)
        tail.length := by
  unfold word
  rw [takeWhile_run htail hrest]
  dsimp only
  rw [List.drop_left]
  split
  next kind n hpair =>
    obtain ⟨hopens, hpair⟩ := Option.ite_none_right_eq_some.1 hpair
    obtain ⟨gap, second, more, rfl, -, hjoined⟩ := pair?_eq_some hopens hpair
    exact absurd hjoined (halone gap second more kind rfl)
  next => rfl

end Slice

-- ============================================================ the step

/-- A text that starts as a rule says is cut there. -/
theorem Cut.next_eq {text rest : List Char} {piece : Piece}
    (h : Cut text rest piece) (hsound : ∀ fault, piece ≠ .malformed fault) :
    ∃ c more, text = c :: more ∧ Slice.next c (more ++ rest)
      = ⟨piece, more.length⟩ := by
  cases h with
  | blank hc =>
      simp only [blanks, List.mem_cons, List.not_mem_nil, or_false] at hc
      obtain rfl | rfl | rfl | rfl := hc
      all_goals exact ⟨_, [], rfl, rfl⟩
  | comment hbody hrest => exact ⟨_, _, rfl, Slice.next_comment hbody hrest⟩
  | sign hsign hrest => exact Slice.next_sign hsign hrest
  | yes =>
      exact ⟨_, _, rfl, @Slice.afterQuote_of_closed ['O', 'O']
        (by decide) rest⟩
  | no =>
      exact ⟨_, _, rfl, @Slice.afterQuote_of_closed ['D', 'I', 'L', 'I']
        (by decide) rest⟩
  | text hbody hyes hno =>
      refine ⟨_, _, rfl, (Slice.afterQuote_of_closed hbody rest).trans ?_⟩
      split
      next heq => exact absurd heq hyes
      next heq => exact absurd heq hno
      next => simp [Slice.literal]
  | character hc => exact ⟨_, _, rfl, Slice.afterApostrophe_of_bare hc rest⟩
  | escaped => exact ⟨_, _, rfl, rfl⟩
  | escapeCode hc => exact ⟨_, _, rfl, Slice.afterBracket_of_closed hc rest⟩
  | whole hds hrest hpoint =>
      obtain ⟨hne, hdigits⟩ := hds
      cases text with
      | nil => exact absurd rfl hne
      | cons c more =>
          refine ⟨c, more, rfl, ?_⟩
          rw [Slice.next_of_isDigit (hdigits c List.mem_cons_self)]
          exact Slice.number_of_whole
            (fun d hd => hdigits d (List.mem_cons_of_mem c hd)) hrest hpoint
  | @decimal ds fraction _ hds hfraction hrest =>
      obtain ⟨hne, hdigits⟩ := hds
      cases ds with
      | nil => exact absurd rfl hne
      | cons c more =>
          refine ⟨c, _, rfl, ?_⟩
          rw [Slice.next_of_isDigit (hdigits c List.mem_cons_self)]
          exact Slice.number_of_decimal
            (fun d hd => hdigits d (List.mem_cons_of_mem c hd)) hfraction hrest
  | pair hfirst hjoined =>
      obtain ⟨c, tail, rfl, hc, htail⟩ := hfirst
      refine ⟨c, _, rfl, ?_⟩
      rw [Slice.next_of_isWordStart hc]
      exact Slice.word_of_joined htail hjoined
  | word hw hrest halone =>
      obtain ⟨c, tail, rfl, hc, htail⟩ := hw
      refine ⟨c, tail, rfl, ?_⟩
      rw [Slice.next_of_isWordStart hc]
      exact Slice.word_of_alone htail hrest halone
  | openText | openCharacter | emptyCharacter | badCharacter | openEscape
    | badEscape
  | unexpected => exact absurd rfl (hsound _)

/-- The slices of a text that starts as a rule says. -/
theorem Cut.slices_append {text rest : List Char} {piece : Piece}
    (h : Cut text rest piece) (hsound : ∀ fault, piece ≠ .malformed fault)
    (span : Span) :
    slices span (text ++ rest) =
      (⟨span, text, piece⟩
        :: (slices (Placed.stop ⟨span, text, piece⟩) rest).1,
        (slices (Placed.stop ⟨span, text, piece⟩) rest).2) := by
  obtain ⟨c, more, rfl, hnext⟩ := h.next_eq hsound
  have hfirst : Placed.first span c (more ++ rest)
      = ⟨span, c :: more, piece⟩ := by
    rw [Placed.first, hnext]
    simp
  rw [List.cons_append, slices_cons, hfirst, hnext, List.drop_left]

-- =============================================================== spelling

/-- What a token says, its place aside. -/
structure Content where
  kind : Kind
  lexeme : String
  literal : Option Value
deriving DecidableEq

/-- What the token says. -/
def content (t : Token) : Content := ⟨t.kind, t.lexeme, t.literal⟩

/-- The text is made of tokens with these contents, and of blanks and
comments. -/
inductive Spelled : List Char → List Content → Prop
  | done : Spelled [] []
  | skip {text rest : List Char} {piece : Piece} {contents : List Content}
      (h : Cut text rest piece) (hpiece : piece = .blank ∨ piece = .comment)
      (hrest : Spelled rest contents) : Spelled (text ++ rest) contents
  | token {text rest : List Char} {kind : Kind} {literal : Option Value}
      {contents : List Content}
      (h : Cut text rest (.token kind literal))
      (hrest : Spelled rest contents) :
      Spelled (text ++ rest) (⟨kind, String.ofList text, literal⟩ :: contents)

namespace Spelled

variable {cs : List Char} {contents : List Content}

/-- Step by step the scanner finds the tokens that the text spells. -/
theorem slices (h : Spelled cs contents) (span : Span) :
    (∀ p ∈ (slices span cs).1, p.role ≠ .malformed) ∧
      ((slices span cs).1.filterMap Placed.token?).map content = contents := by
  induction h generalizing span with
  | done =>
      rw [Token.slices]
      exact ⟨List.forall_mem_nil _, rfl⟩
  | skip h hpiece _ ih =>
      obtain ⟨hsound, hcontents⟩ := ih (Placed.stop ⟨span, _, _⟩)
      obtain rfl | rfl := hpiece
      all_goals
        rw [h.slices_append (by simp) span]
        exact ⟨List.forall_mem_cons.2 ⟨by simp [Placed.role], hsound⟩,
          hcontents⟩
  | token h _ ih =>
      obtain ⟨hsound, hcontents⟩ := ih (Placed.stop ⟨span, _, _⟩)
      rw [h.slices_append (by simp) span]
      refine ⟨List.forall_mem_cons.2 ⟨by simp [Placed.role], hsound⟩, ?_⟩
      rw [← hcontents]
      rfl

/-- A text that spells tokens scans to them. -/
theorem scan (h : Spelled cs contents) :
    ∃ ts span, Token.scan (String.ofList cs) = .ok (ts ++ [endOfText span]) ∧
      ts.map content = contents := by
  obtain ⟨hsound, hcontents⟩ := h.slices Span.start
  obtain ⟨-, hscan⟩ | ⟨herrors, -⟩ := scan_cases (String.ofList cs)
  · rw [String.toList_ofList] at hscan
    exact ⟨_, _, hscan, hcontents⟩
  · rw [String.toList_ofList] at herrors
    refine absurd (List.filterMap_eq_nil_iff.2 ?_) herrors
    intro p hp
    exact p.error?_eq_none_iff.2 (hsound p hp)

end Spelled

end BisayaPlus.Token
