/-
What one call of the scanner with a cursor does.

Each rule of the lexical grammar (`Cut`) is followed through the machine
once, from the first character of a slice to what the slice gives to the
answer. `scanToken_runs` puts them together: where the text ahead of the
cursor is cut by a rule, one call passes the slice and adds its token or
its error, and nothing in it crashes.
-/
import BisayaPlus.Proofs.Lines
import BisayaPlus.Proofs.Rescan
import BisayaPlus.Proofs.ScannerSteps

namespace BisayaPlus.Token

-- ========================================================= ends of slices

namespace Placed

variable {p : Placed}

theorem stop_of_line (h : '\n' ∉ p.text) :
    p.stop = p.span.right p.text.length := by
  unfold stop
  split
  · rfl
  · exact Span.past_of_not_mem _ h

theorem stop_of_quote (h : p.text.head? = some '\'') :
    p.stop = p.span.right p.text.length :=
  if_pos h

theorem stop_of_not_quote (h : p.text.head? ≠ some '\'') :
    p.stop = p.span.past p.text :=
  if_neg h

end Placed

/-- At the end the zero character is looked at, and it is not of the class
either. -/
theorem Stops.headD {p : Char → Bool} {rest : List Char} (h : Stops p rest)
    (hzero : p '\x00' = false) : p (rest.headD '\x00') = false := by
  cases rest with
  | nil => exact hzero
  | cons c rest => exact h c rfl

/-- Digits are on one line. -/
theorem Digits.feed_not_mem {ds : List Char} (h : Digits ds) : '\n' ∉ ds := by
  intro hmem
  exact absurd (h.2 _ hmem) (by decide)

/-- A word is on one line. -/
theorem IsWord.feed_not_mem {w : List Char} (h : IsWord w) : '\n' ∉ w := by
  intro hmem
  exact absurd (h.chars _ hmem) (by decide)

namespace Scanner

open Row

variable {row cs run rest text body ahead : List Char} {c d : Char} {i n : Nat}
  {p q : Span}
  {s s' : Scanner} {kind : Kind}

/-- The scanner is about to read a token: the cursor is in the row, behind
the start of its line, and the token starts there. -/
structure Ready (row : List Char) (s : Scanner) : Prop where
  start_eq : s.start = s.current
  place_eq : (⟨s.tokenLine, s.tokenColumn⟩ : Span) = s.place
  lineStart_le : s.lineStart ≤ s.current
  current_le : s.current ≤ row.length

/-- The scanner with what a slice gives to the answer. -/
def add (s : Scanner) (p : Placed) : Scanner :=
  { s with
    tokens := s.tokens ++ p.token?.toList
    errors := s.errors ++ p.error?.toList.map Error.diagnostic }

/-- The scanner behind a slice that starts at its cursor. -/
def behind (s : Scanner) (text : List Char) (piece : Piece) : Scanner :=
  let p : Placed := ⟨s.place, text, piece⟩
  (s.moved (s.current + text.length) p.stop).add p

/-- The lexeme is the text between the start of the piece and the cursor.
-/
theorem lexeme_runs (hs : Ready row s)
    (hrow : row.drop s.current = text ++ rest) :
    Runs (lexeme row) (s.moved (s.current + text.length) p) text
      (s.moved (s.current + text.length) p) := by
  have hslice :=
    slice_runs (s := s.moved (s.current + text.length) p) hrow hs.current_le
  refine Runs.bind rfl ?_
  show Runs (slice row s.start (s.current + text.length)) _ _ _
  rw [hs.start_eq]
  exact hslice

/-- A token is added behind its text. -/
theorem addToken_runs (text : List Char) (kind : Kind) (literal : Option Value)
    (hs : Ready row s) (hrow : row.drop s.current = text ++ rest)
    (hstop : Placed.stop ⟨s.place, text, .token kind literal⟩ = p) :
    Runs (addToken row kind literal) (s.moved (s.current + text.length) p) ()
      (s.behind text (.token kind literal)) := by
  refine (lexeme_runs hs hrow).bind ?_
  show Except.ok _ = Except.ok _
  simp only [behind, hstop, add, moved, hs.place_eq, Placed.token?,
    Placed.error?, Option.toList_some, Option.toList_none, List.map_nil,
    List.append_nil]

/-- An error is added behind the text that is malformed. -/
theorem report_runs (text : List Char) (fault : Fault) (hs : Ready row s)
    (hstop : Placed.stop ⟨s.place, text, .malformed fault⟩ = p) :
    Runs (report fault.message) (s.moved (s.current + text.length) p) ()
      (s.behind text (.malformed fault)) := by
  show Except.ok _ = Except.ok _
  simp only [behind, hstop, add, moved, hs.place_eq, Placed.token?,
    Placed.error?, Option.toList_some, Option.toList_none, List.map_cons,
    List.map_nil, List.append_nil, Error.diagnostic]

-- =============================================================== texts

theorem addText_of_ne (hyes : String.ofList body ≠ "OO")
    (hno : String.ofList body ≠ "DILI") :
    addText row body
      = addToken row .string (some (.text (String.ofList body))) := by
  unfold addText
  split
  next heq => exact absurd heq hyes
  next heq => exact absurd heq hno
  next => rfl

/-- A text is passed up to its quote, line feeds counted. -/
theorem passText_runs (hn : row.length < n) (hrow : row.drop i = body ++ rest)
    (hbody : '"' ∉ body) (hrest : Stops (· ≠ '"') rest) :
    Runs (passUntil row '"' (do if (← advance row) = '\n' then newline) n)
      (s.moved i p) ()
      (s.moved (i + body.length) (p.past body)) := by
  refine passUntil_runs (fun j r c cs h => ?_) hn hrow hbody hrest
  refine (advance_runs h).bind ?_
  by_cases hc : c = '\n'
  · rw [if_pos hc, Span.step, if_pos hc]
    rfl
  · rw [if_neg hc, Span.step, if_neg hc]
    exact .ret

/-- A text that is closed is what stands between the quotes. -/
theorem string_closed {literal : Option Value} (body : List Char)
    (hs : Ready row s) (hn : row.length < n) (hbody : '"' ∉ body)
    (hrow : row.drop s.current = '"' :: (body ++ ['"']) ++ rest)
    (hkind : addText row body = addToken row kind literal) :
    Runs (string row n) (s.moved (s.current + 1) (s.place.right 1)) ()
      (s.behind ('"' :: (body ++ ['"'])) (.token kind literal)) := by
  have hin : row.drop (s.current + 1) = body ++ '"' :: rest :=
    (drop_succ hrow).trans (List.append_assoc body ['"'] rest)
  have hquote := drop_add hin
  have hlength : s.current + ('"' :: (body ++ ['"'])).length
      = s.current + 1 + body.length + 1 := by
    simp only [List.length_cons, List.length_append, List.length_nil]
    omega
  have hpast : s.place.past ('"' :: (body ++ ['"']))
      = ((s.place.right 1).past body).right 1 := by
    show (s.place.step '"').past (body ++ ['"']) = _
    rw [Span.past_append]
    rfl
  have hslice (t : Scanner) :
      Runs (slice row (s.start + 1) (s.current + 1 + body.length)) t
        body t := by
    rw [hs.start_eq]
    exact slice_runs hin (lt_length hrow (List.cons_ne_nil _ _))
  have hadd := addToken_runs ('"' :: (body ++ ['"'])) kind literal hs hrow
    (Placed.stop_of_not_quote (by simp))
  rw [hlength, hpast, ← hkind] at hadd
  exact (passText_runs hn hin hbody (stops_cons rfl rest)).bind
    <| (atEnd_runs hquote).bind <| (advance_runs hquote).bind <| Runs.bind rfl
    <| (minus_runs (Nat.le_add_left 1 _)).bind <| (hslice _).bind hadd

/-- Without second quote the text is malformed. -/
theorem string_open (hs : Ready row s) (hn : row.length < n)
    (hbody : '"' ∉ body) (hrow : row.drop s.current = '"' :: body) :
    Runs (string row n) (s.moved (s.current + 1) (s.place.right 1)) ()
      (s.behind ('"' :: body) (.malformed .openText)) := by
  have hin : row.drop (s.current + 1) = body ++ [] := by
    rw [drop_succ hrow, List.append_nil]
  have hreport :=
    report_runs ('"' :: body) .openText hs (Placed.stop_of_not_quote (by simp))
  rw [List.length_cons, Nat.add_comm body.length, ← Nat.add_assoc] at hreport
  exact (passText_runs hn hin hbody (stops_nil _)).bind
    <| (atEnd_runs (drop_add hin)).bind hreport

-- ========================================================== characters

/-- The machine is at the end of a line before a line feed or at the end.
-/
theorem atLineEnd_yes (h : row.drop i = cs) (hend : EndsLine cs) :
    Runs (atLineEnd row) (s.moved i p) true (s.moved i p) := by
  refine (atEnd_runs h).bind ?_
  cases cs with
  | nil => exact .ret
  | cons c cs =>
      have hc : c = '\n' := by simpa using hend c rfl
      refine (peek_runs h).bind ?_
      rw [List.headD_cons, hc]
      exact .ret

/-- Before any other character it is not. -/
theorem atLineEnd_no (h : row.drop i = c :: cs) (hc : c ≠ '\n') :
    Runs (atLineEnd row) (s.moved i p) false (s.moved i p) := by
  refine (atEnd_runs h).bind ((peek_runs h).bind ?_)
  rw [List.headD_cons, decide_eq_false hc]
  exact .ret

/-- A closing quote on the same line is skipped to. -/
theorem skipToClosingQuote_closed (hrow : row.drop i = body ++ '\'' :: rest)
    (hquote : '\'' ∉ body) (hline : '\n' ∉ body) (hn : body.length < n) :
    Runs (skipToClosingQuote row n i) s ()
      { s with current := i + body.length + 1 } := by
  induction body generalizing i n with
  | nil =>
      cases n with
      | zero => cases hn
      | succ n =>
          rw [skipToClosingQuote, if_neg (not_end hrow)]
          exact (look_runs hrow).bind rfl
  | cons c body ih =>
      rw [List.mem_cons, not_or] at hquote hline
      cases n with
      | zero => cases hn
      | succ n =>
          rw [skipToClosingQuote, if_neg (not_end hrow)]
          refine (look_runs hrow).bind ?_
          rw [if_neg (Ne.symm hline.1), if_neg (Ne.symm hquote.1),
            List.length_cons, Nat.add_comm body.length, ← Nat.add_assoc]
          exact ih (drop_succ hrow) hquote.2 hline.2
            (Nat.lt_of_succ_lt_succ hn)

/-- Where there is none, nothing is skipped. -/
theorem skipToClosingQuote_open (hrow : row.drop i = cs)
    (hopen : ∀ junk more, cs = junk ++ '\'' :: more → '\n' ∈ junk)
    (hn : cs.length < n) :
    Runs (skipToClosingQuote row n i) s () s := by
  induction cs generalizing i n with
  | nil =>
      cases n with
      | zero => cases hn
      | succ n =>
          rw [skipToClosingQuote, if_pos (List.drop_eq_nil_iff.1 hrow)]
          exact .ret
  | cons c cs ih =>
      cases n with
      | zero => cases hn
      | succ n =>
          rw [skipToClosingQuote, if_neg (not_end hrow)]
          refine (look_runs hrow).bind ?_
          by_cases hline : c = '\n'
          · rw [if_pos hline]
            exact .ret
          · have hquote : c ≠ '\'' := by
              rintro rfl
              exact absurd (hopen [] cs rfl) (by simp)
            rw [if_neg hline, if_neg hquote]
            refine ih (drop_succ hrow) (fun junk more heq => ?_)
              (Nat.lt_of_succ_lt_succ hn)
            have hmem := hopen (c :: junk) more (congrArg (List.cons c) heq)
            obtain hmem | hmem := List.mem_cons.1 hmem
            · exact absurd hmem.symm hline
            · exact hmem

/-- A malformed character is skipped up to the closing quote, if the line
has one. -/
theorem skipToClosingQuote_runs (hn : row.length < n)
    (hrow : row.drop i = run ++ rest) (h : Skipped run rest) :
    Runs (skipToClosingQuote row n i) (s.moved i p) ()
      (s.moved (i + run.length) (p.right run.length)) := by
  cases h with
  | @closed junk _ hquote hline =>
      have hlt := length_lt hn hrow
      rw [List.length_append] at hlt
      rw [List.append_assoc] at hrow
      rw [← moved_right, List.length_append]
      exact skipToClosingQuote_closed hrow hquote hline (by simp at hlt; omega)
  | nothing hopen =>
      have hlt : rest.length < n :=
        length_lt hn (hrow.trans (List.append_nil rest).symm)
      exact skipToClosingQuote_open hrow hopen hlt

/-- A character that is closed gives a token. -/
theorem closeCharacter_closed (text : List Char) (hs : Ready row s)
    (hrow : row.drop s.current = text ++ '\'' :: rest)
    (hhead : text.head? = some '\'') :
    Runs (closeCharacter row n c)
      (s.moved (s.current + text.length) (s.place.right text.length)) ()
      (s.behind (text ++ ['\'']) (.token .character (some (.char c)))) := by
  have htext : row.drop s.current = (text ++ ['\'']) ++ rest := by
    rw [hrow, List.append_assoc]
    rfl
  have hadd :=
    addToken_runs (text ++ ['\'']) .character (some (.char c)) hs htext
      (Placed.stop_of_quote (by simp [hhead]))
  rw [List.length_append, ← Nat.add_assoc] at hadd
  exact (pass_yes (drop_add hrow)).bind hadd

/-- One that is not is malformed, up to a closing quote on its line. -/
theorem closeCharacter_open (text : List Char) (hs : Ready row s)
    (hn : row.length < n) (hrow : row.drop s.current = text ++ (run ++ rest))
    (hhead : text.head? = some '\'') (hopen : (run ++ rest).head? ≠ some '\'')
    (h : Skipped run rest) :
    Runs (closeCharacter row n c)
      (s.moved (s.current + text.length) (s.place.right text.length)) ()
      (s.behind (text ++ run) (.malformed .badCharacter)) := by
  have hreport := report_runs (text ++ run) .badCharacter hs
    (Placed.stop_of_quote (by simp [hhead]))
  have hahead := drop_add hrow
  rw [List.length_append, ← Nat.add_assoc, ← Span.right_right] at hreport
  exact (pass_no hahead hopen).bind <| Runs.bind rfl <|
    (skipToClosingQuote_runs hn hahead h).bind hreport

/-- A character that stands for itself. -/
theorem character_bare (hrow : row.drop i = c :: cs)
    (hc : c ∉ ['\'', '\\', '\n'])
    (hclose : Runs (closeCharacter row n c)
      (s.moved (i + 1) (p.right 1)) () s') :
    Runs (character row n) (s.moved i p) () s' := by
  simp only [List.mem_cons, List.not_mem_nil, or_false, not_or] at hc
  obtain ⟨hquote, hescape, hline⟩ := hc
  refine (atLineEnd_no hrow hline).bind ((advance_runs hrow).bind ?_)
  rw [if_neg hquote, unescaped, if_neg hescape]
  exact Runs.ret.bind hclose

/-- A character behind a backslash. -/
theorem character_escaped (hrow : row.drop i = '\\' :: c :: cs)
    (hclose : Runs (closeCharacter row n (Slice.unescape c))
      (s.moved (i + 2) (p.right 2)) () s') :
    Runs (character row n) (s.moved i p) () s' := by
  have hnext := drop_succ hrow
  have hread : Runs (unescaped row '\\') (s.moved (i + 1) (p.right 1))
      (Slice.unescape c) (s.moved (i + 2) (p.right 2)) := by
    refine (atEnd_runs hnext).bind ?_
    exact (advance_runs hnext).bind .ret
  exact (atLineEnd_no hrow (by decide)).bind
    ((advance_runs hrow).bind (hread.bind hclose))

/-- A backslash with nothing behind it. -/
theorem character_last (hrow : row.drop i = ['\\'])
    (hclose : Runs (closeCharacter row n '\\')
      (s.moved (i + 1) (p.right 1)) () s') :
    Runs (character row n) (s.moved i p) () s' := by
  have hread : Runs (unescaped row '\\') (s.moved (i + 1) (p.right 1)) '\\'
      (s.moved (i + 1) (p.right 1)) := (atEnd_runs (drop_succ hrow)).bind .ret
  exact (atLineEnd_no hrow (by decide)).bind
    ((advance_runs hrow).bind (hread.bind hclose))

/-- An apostrophe at the end of its line is malformed. -/
theorem character_open (hs : Ready row s)
    (hrow : row.drop s.current = '\'' :: rest) (hrest : EndsLine rest) :
    Runs (character row n) (s.moved (s.current + 1) (s.place.right 1)) ()
      (s.behind ['\''] (.malformed .openCharacter)) :=
  (atLineEnd_yes (drop_succ hrow) hrest).bind
    (report_runs ['\''] .openCharacter hs (Placed.stop_of_quote rfl))

/-- So are two with nothing between them. -/
theorem character_empty (hs : Ready row s)
    (hrow : row.drop s.current = '\'' :: '\'' :: rest) :
    Runs (character row n) (s.moved (s.current + 1) (s.place.right 1)) ()
      (s.behind ['\'', '\''] (.malformed .emptyCharacter)) := by
  have hnext := drop_succ hrow
  exact (atLineEnd_no hnext (by decide)).bind <| (advance_runs hnext).bind
    (report_runs ['\'', '\''] .emptyCharacter hs (Placed.stop_of_quote rfl))

/-- What is taken for the character is passed, and then the quote must come. -/
theorem character_body (h : CharacterBody text ahead)
    (hrow : row.drop i = text ++ ahead) :
    ∃ c, ∀ s',
      Runs (closeCharacter row n c) (s.moved (i + text.length)
        (p.right text.length)) () s' →
      Runs (character row n) (s.moved i p) () s' := by
  cases h with
  | bare hc => exact ⟨_, fun _ => character_bare hrow hc⟩
  | escape => exact ⟨_, fun _ => character_escaped hrow⟩
  | last => exact ⟨_, fun _ => character_last hrow⟩

/-- So is a character that no apostrophe follows. -/
theorem character_bad (hs : Ready row s) (hn : row.length < n)
    (hrow : row.drop s.current = '\'' :: (text ++ (run ++ rest)))
    (htext : CharacterBody text (run ++ rest))
    (hopen : (run ++ rest).head? ≠ some '\'') (h : Skipped run rest) :
    Runs (character row n) (s.moved (s.current + 1) (s.place.right 1)) ()
      (s.behind ('\'' :: (text ++ run)) (.malformed .badCharacter)) := by
  obtain ⟨c, hread⟩ :=
    character_body (n := n) (s := s) (p := s.place.right 1) htext
      (drop_succ hrow)
  apply hread
  rw [Span.right_right, Nat.add_assoc, Nat.add_comm 1,
    ← List.length_cons (a := '\'')]
  exact closeCharacter_open ('\'' :: text) hs hn hrow rfl hopen h

-- ======================================================== escape codes

/-- A bracket that is closed behind one character gives a token. -/
theorem escapeCode_closed (hs : Ready row s)
    (hrow : row.drop s.current = '[' :: c :: ']' :: rest) (hc : c ≠ '\n') :
    Runs (escapeCode row) (s.moved (s.current + 1) (s.place.right 1)) ()
      (s.behind ['[', c, ']'] (.token .escapeCode (some (.char c)))) := by
  have hnext := drop_succ hrow
  have hline : '\n' ∉ ['[', c, ']'] := by simp [Ne.symm hc]
  exact (atLineEnd_no hnext hc).bind <| (advance_runs hnext).bind <|
    (pass_yes (drop_succ hnext)).bind
      (addToken_runs ['[', c, ']'] _ _ hs hrow (Placed.stop_of_line hline))

/-- A bracket at the end of its line is malformed. -/
theorem escapeCode_open (hs : Ready row s)
    (hrow : row.drop s.current = '[' :: rest) (hrest : EndsLine rest) :
    Runs (escapeCode row) (s.moved (s.current + 1) (s.place.right 1)) ()
      (s.behind ['['] (.malformed .openEscape)) :=
  (atLineEnd_yes (drop_succ hrow) hrest).bind
    (report_runs ['['] .openEscape hs (Placed.stop_of_line (by simp)))

/-- So is one that is not closed behind one character. -/
theorem escapeCode_bad (hs : Ready row s)
    (hrow : row.drop s.current = '[' :: c :: rest) (hc : c ≠ '\n')
    (hrest : rest.head? ≠ some ']') :
    Runs (escapeCode row) (s.moved (s.current + 1) (s.place.right 1)) ()
      (s.behind ['[', c] (.malformed .badEscape)) := by
  have hnext := drop_succ hrow
  have hline : '\n' ∉ ['[', c] := by simp [Ne.symm hc]
  exact (atLineEnd_no hnext hc).bind <| (advance_runs hnext).bind <|
    (pass_no (drop_succ hnext) hrest).bind
      (report_runs ['[', c] .badEscape hs (Placed.stop_of_line hline))

-- ============================================================= numbers

/-- A numeral gives the token of the number it is read as. -/
theorem addNumber_runs {x : Float} (hs : Ready row s)
    (hrow : row.drop s.current = text ++ rest)
    (hread : Number.read? text = some x)
    (hstop : Placed.stop ⟨s.place, text, .token .number (some (.number x))⟩
      = p) :
    Runs (addNumber row text) (s.moved (s.current + text.length) p) ()
      (s.behind text (.token .number (some (.number x)))) := by
  rw [addNumber, hread]
  exact addToken_runs text _ _ hs hrow hstop

/-- A point belongs to a number only if a digit follows. -/
theorem fraction_none (hrow : row.drop i = rest)
    (hpoint : ∀ more, rest = '.' :: more → Stops Char.isDigit more) :
    Runs (fraction row n) (s.moved i p) () (s.moved i p) := by
  have hat : Runs (atFraction row) (s.moved i p) false (s.moved i p) := by
    refine (peek_runs hrow).bind ?_
    cases rest with
    | nil => exact .ret
    | cons c rest =>
        by_cases hc : c = '.'
        · have hdigit := (hpoint rest (by rw [hc])).headD rfl
          rw [List.headD_cons, if_pos hc, ← hdigit]
          exact (peekNext_runs hrow).bind .ret
        · rw [List.headD_cons, if_neg hc]
          exact .ret
  exact hat.bind .ret

/-- A point with digits behind it belongs to the number. -/
theorem fraction_some (hn : row.length < n)
    (hrow : row.drop i = '.' :: (run ++ rest)) (hrun : Digits run)
    (hrest : Stops Char.isDigit rest) :
    Runs (fraction row n) (s.moved i p) ()
      (s.moved (i + ('.' :: run).length) (p.right ('.' :: run).length)) := by
  have hat : Runs (atFraction row) (s.moved i p) true (s.moved i p) := by
    refine (peek_runs hrow).bind ?_
    have hdigit : ((run ++ rest).headD '\x00').isDigit = true := by
      cases run with
      | nil => exact absurd rfl hrun.1
      | cons d run => exact hrun.2 d List.mem_cons_self
    rw [List.headD_cons, if_pos rfl, ← hdigit]
    exact (peekNext_runs hrow).bind .ret
  have hpass :=
    passWhile_runs (s := s) (p := p.right 1) rfl hn (drop_succ hrow)
      hrun.2 hrest
  rw [List.length_cons, Nat.add_comm run.length, ← Nat.add_assoc,
    ← Span.right_right]
  exact hat.bind ((advance_runs hrow).bind hpass)

/-- Digits with no point behind them. -/
theorem number_whole (hs : Ready row s) (hn : row.length < n)
    (hrow : row.drop s.current = text ++ rest) (htext : Digits text)
    (hrest : Stops Char.isDigit rest)
    (hpoint : ∀ more, rest = '.' :: more → Stops Char.isDigit more) :
    Runs (number row n) (s.moved (s.current + 1) (s.place.right 1)) ()
      (s.behind text
        (.token .number (some (.number (Number.ofDecimal text []))))) := by
  refine (passWhile_tail rfl hn hrow htext.1 htext.2 hrest).bind ?_
  refine (fraction_none (drop_add hrow) hpoint).bind ?_
  exact (lexeme_runs hs hrow).bind
    (addNumber_runs hs hrow htext.read?_eq
      (Placed.stop_of_line htext.feed_not_mem))

/-- Digits with a point and digits behind them. -/
theorem number_decimal (hs : Ready row s) (hn : row.length < n)
    (hrow : row.drop s.current = (text ++ '.' :: run) ++ rest)
    (htext : Digits text) (hrun : Digits run)
    (hrest : Stops Char.isDigit rest) :
    Runs (number row n) (s.moved (s.current + 1) (s.place.right 1)) ()
      (s.behind (text ++ '.' :: run)
        (.token .number (some (.number (Number.ofDecimal text run))))) := by
  have hline : '\n' ∉ text ++ '.' :: run := by
    simp [htext.feed_not_mem, hrun.feed_not_mem]
  have hwhole : row.drop s.current = text ++ '.' :: (run ++ rest) := by
    rw [hrow, List.append_assoc]
    rfl
  have hadd := (lexeme_runs hs hrow).bind
    (addNumber_runs hs hrow (htext.read?_point hrun)
      (Placed.stop_of_line hline))
  rw [List.length_append, ← Nat.add_assoc, ← Span.right_right] at hadd
  refine (passWhile_tail rfl hn hwhole htext.1 htext.2
    (stops_cons rfl _)).bind ?_
  exact (fraction_some hn (drop_add hwhole) hrun hrest).bind hadd

-- =============================================================== words

section

variable {first gap second : List Char}

/-- The second word of a pair is found behind the gap. -/
theorem secondWord_joined (hn : row.length < n)
    (h : Joined first gap second rest kind)
    (hrow : row.drop i = gap ++ (second ++ rest)) :
    Runs (secondWord row first n) (s.moved i p) (some kind)
      (s.moved (i + (gap ++ second).length)
        (p.right (gap ++ second).length)) := by
  have hsecond := drop_add hrow
  have hgap := List.length_pos_iff.2 h.gap_ne
  have hword := List.length_pos_iff.2 h.second_ne
  have hin :=
    lt_length hsecond (List.append_ne_nil_of_left_ne_nil h.second_ne rest)
  have hprobe :=
    probeWhile_runs (s := s.moved i p) hrow h.gap_blank h.second_stops
      (length_lt hn hrow)
  refine Runs.bind rfl (hprobe.bind ?_)
  rw [current_moved, if_neg (show i + gap.length ≠ i by omega)]
  refine (probeWhile_runs hsecond h.second_word h.ends
    (length_lt hn hsecond)).bind ?_
  rw [if_neg (show i + gap.length ≠ i + gap.length + second.length by omega)]
  refine (slice_runs hsecond (Nat.le_of_lt hin)).bind ?_
  rw [h.known, ← moved_right, List.length_append, ← Nat.add_assoc]
  exact Runs.bind rfl .ret

/-- Where no second word makes up a pair, none is found and the cursor
stays. -/
theorem secondWord_alone (hn : row.length < n)
    (hopens : startsPair (String.ofList first) = true)
    (hrow : row.drop i = rest)
    (halone : ∀ gap second more kind, rest = gap ++ (second ++ more) →
      ¬ Joined first gap second more kind) :
    Runs (secondWord row first n) (s.moved i p) none (s.moved i p) := by
  obtain ⟨behind, hbehind, hstops⟩ :=
    takeWhile_stops (fun c => c == ' ' || c == '\t') rest
  have hblank : ∀ c ∈ rest.takeWhile (fun c => c == ' ' || c == '\t'),
      (c == ' ' || c == '\t') = true := by
    intro c hc
    have hblank := List.mem_takeWhile_imp hc
    exact hblank
  generalize rest.takeWhile (fun c => c == ' ' || c == '\t')
    = gap at hbehind hblank
  subst hbehind
  obtain ⟨more, hmore, hends⟩ := takeWhile_stops Slice.isWordChar behind
  have hword : ∀ c ∈ behind.takeWhile Slice.isWordChar,
      Slice.isWordChar c = true :=
    fun c hc => List.mem_takeWhile_imp hc
  generalize behind.takeWhile Slice.isWordChar = second at hmore hword
  subst hmore
  have hsecond := drop_add hrow
  refine Runs.bind rfl
    ((probeWhile_runs hrow hblank hstops (length_lt hn hrow)).bind ?_)
  rw [current_moved]
  by_cases hgap : gap = []
  · rw [if_pos (by rw [hgap]; rfl)]
    exact .ret
  have hgap' := List.length_pos_iff.2 hgap
  rw [if_neg (show i + gap.length ≠ i by omega)]
  refine (probeWhile_runs hsecond hword hends (length_lt hn hsecond)).bind ?_
  by_cases hne : second = []
  · rw [if_pos (by rw [hne]; rfl)]
    exact .ret
  have hne' := List.length_pos_iff.2 hne
  rw [if_neg (show i + gap.length ≠ i + gap.length + second.length by omega)]
  have hin := lt_length hsecond (List.append_ne_nil_of_left_ne_nil hne more)
  refine (slice_runs hsecond (Nat.le_of_lt hin)).bind ?_
  cases hknown :
    keyword? (String.ofList first ++ " " ++ String.ofList second) with
  | none => exact .ret
  | some kind =>
      exact absurd ⟨hopens, hgap, hblank, hne, hword, hends, hknown⟩
        (halone gap second more kind rfl)

/-- A word is passed, and then a pair is looked for if it may open one. -/
theorem word_runs (pair : Option Kind) (hs : Ready row s) (hn : row.length < n)
    (hrow : row.drop s.current = first ++ ahead) (hfirst : IsWord first)
    (hahead : Stops Slice.isWordChar ahead)
    (hpair : Runs (pairKind row first n)
      (s.moved (s.current + first.length) (s.place.right first.length)) pair
      (s.moved (s.current + text.length) (s.place.right text.length)))
    (hadd : Runs (addToken row
      (pair.getD ((keyword? (String.ofList first)).getD .identifier)) none)
      (s.moved (s.current + text.length) (s.place.right text.length)) () s') :
    Runs (word row n) (s.moved (s.current + 1) (s.place.right 1)) () s' := by
  have hne : first ≠ [] := by
    obtain ⟨c, tail, rfl, -⟩ := hfirst
    exact List.cons_ne_nil c tail
  refine (passWhile_tail rfl hn hrow hne hfirst.chars hahead).bind ?_
  exact (lexeme_runs hs hrow).bind (hpair.bind hadd)

/-- A pair gives the token of its keyword. -/
theorem word_joined (hs : Ready row s) (hn : row.length < n)
    (hrow : row.drop s.current = (first ++ (gap ++ second)) ++ rest)
    (hfirst : IsWord first) (h : Joined first gap second rest kind) :
    Runs (word row n) (s.moved (s.current + 1) (s.place.right 1)) ()
      (s.behind (first ++ (gap ++ second)) (.token kind none)) := by
  have hrow' : row.drop s.current = first ++ (gap ++ (second ++ rest)) := by
    rw [hrow, List.append_assoc, List.append_assoc]
  have hline : '\n' ∉ first ++ (gap ++ second) := by
    rw [List.mem_append, not_or]
    exact ⟨hfirst.feed_not_mem, h.feed_not_mem⟩
  refine word_runs (some kind) hs hn hrow' hfirst (h.gap_stops _) ?_
    (addToken_runs _ kind none hs hrow (Placed.stop_of_line hline))
  rw [pairKind, if_pos h.opens, List.length_append, ← Nat.add_assoc,
    ← Span.right_right]
  exact secondWord_joined hn h (drop_add hrow')

/-- A word that makes up no pair gives a token of its own. -/
theorem word_alone (hs : Ready row s) (hn : row.length < n)
    (hrow : row.drop s.current = text ++ rest) (htext : IsWord text)
    (hrest : Stops Slice.isWordChar rest)
    (halone : ∀ gap second more kind, rest = gap ++ (second ++ more) →
      ¬ Joined text gap second more kind) :
    Runs (word row n) (s.moved (s.current + 1) (s.place.right 1)) ()
      (s.behind text
        (.token ((keyword? (String.ofList text)).getD .identifier) none)) := by
  refine word_runs none hs hn hrow htext hrest ?_
    (addToken_runs text _ none hs hrow
      (Placed.stop_of_line htext.feed_not_mem))
  rw [pairKind]
  split
  next hopens => exact secondWord_alone hn hopens (drop_add hrow) halone
  next => exact .ret

end

-- ======================================================= skipped slices

/-- A slice that gives nothing to the answer only moves the cursor. -/
theorem behind_skipped {piece : Piece} (h : piece = .blank ∨ piece = .comment)
    (hstop : Placed.stop ⟨s.place, text, piece⟩ = p) :
    s.behind text piece = s.moved (s.current + text.length) p := by
  obtain rfl | rfl := h
  · simp [behind, hstop, add, moved, Placed.token?, Placed.error?]
  · simp [behind, hstop, add, moved, Placed.token?, Placed.error?]

/-- A blank is passed and gives nothing. -/
theorem scanRest_blank (hc : c ∈ blanks) :
    Runs (scanRest row n c) (s.moved (s.current + 1) (s.place.right 1)) ()
      (s.behind [c] .blank) := by
  simp only [blanks, List.mem_cons, List.not_mem_nil, or_false] at hc
  rcases hc with rfl | rfl | rfl | rfl
  all_goals rw [behind_skipped (.inl rfl) rfl]; rfl

/-- So is a comment, up to the end of its line. -/
theorem scanRest_comment (hn : row.length < n)
    (hrow : row.drop s.current = '-' :: '-' :: (body ++ rest))
    (hbody : '\n' ∉ body) (hrest : EndsLine rest) :
    Runs (scanRest row n '-') (s.moved (s.current + 1) (s.place.right 1)) ()
      (s.behind ('-' :: '-' :: body) .comment) := by
  have hnext := drop_succ hrow
  have hstop : Placed.stop ⟨s.place, '-' :: '-' :: body, .comment⟩ =
      (s.place.right 2).right body.length := by
    rw [Placed.stop_of_line (by simp [hbody]), Span.right_right,
      Nat.add_comm 2]
    rfl
  have hlength : s.current + ('-' :: '-' :: body).length
      = s.current + 1 + 1 + body.length := by
    simp only [List.length_cons]
    omega
  have hpass := passUntil_runs (s := s) (p := s.place.right 2)
    (fun j r c cs h => (advance_runs h).bind .ret) hn (drop_succ hnext)
    hbody hrest
  rw [foldl_right] at hpass
  rw [behind_skipped (.inr rfl) hstop, hlength]
  exact (pass_yes hnext).bind hpass

-- =============================================================== tokens

theorem scanRest_of_isDigit (hc : c.isDigit = true) :
    scanRest row n c = number row n := by
  fun_cases scanRest row n c
  case case24 => rfl
  case case25 hdigit _ | case26 hdigit _ => exact absurd hc hdigit
  all_goals exact absurd hc (by decide)

theorem scanRest_of_isWordStart (hc : Slice.isWordStart c = true) :
    scanRest row n c = word row n := by
  have hdigit := Slice.isDigit_of_isWordStart hc
  fun_cases scanRest row n c
  case case24 hdigit' => exact absurd hdigit' (by simp [hdigit])
  case case25 => rfl
  case case26 hword => exact absurd hc hword
  all_goals exact absurd hc (by decide)

/-- A character that opens nothing is reported. -/
theorem scanRest_of_unexpected (hc : c ∉ blanks ++ ['"', '\'', '['])
    (hsign : ∀ kind, ([c], kind) ∉ signs) (hdigit : c.isDigit = false)
    (hword : Slice.isWordStart c = false) :
    scanRest row n c = report (Fault.unexpected c).message := by
  have hlone : [c] ∉ signs.map Prod.fst := by
    intro hmem
    obtain ⟨⟨text, kind⟩, hmem, rfl⟩ := List.mem_map.1 hmem
    exact hsign kind hmem
  fun_cases scanRest row n c
  case case24 hdigit' => exact absurd hdigit' (by simp [hdigit])
  case case25 hword' => exact absurd hword' (by simp [hword])
  case case26 => rfl
  case case1 | case2 | case3 | case4 | case21 | case22 | case23 =>
    exact absurd (by decide) hc
  all_goals exact absurd (by decide) hlone

/-- The first character of a slice is passed before the rest is read. -/
theorem scanToken_of_rest (hs : Ready row s)
    (hrow : row.drop s.current = c :: cs)
    (h : Runs (scanRest row n c) (s.moved (s.current + 1) (s.place.right 1))
      () s') :
    Runs (scanToken row n) s () s' := by
  have hadvance := advance_runs (s := s) (p := s.place) hrow
  rw [moved_self hs.lineStart_le] at hadvance
  exact hadvance.bind h

/-- A sign is read where no longer opening stands. -/
theorem scanToken_sign (hs : Ready row s)
    (hrow : row.drop s.current = text ++ rest) (hsign : (text, kind) ∈ signs)
    (hrest : ∀ d, rest.head? = some d → text ++ [d] ∉ wider) :
    Runs (scanToken row n) s () (s.behind text (.token kind none)) := by
  have hlines : ∀ sign ∈ signs, '\n' ∉ sign.1 := by decide
  have hstop : ∀ d, text ++ [d] ∈ wider → rest.head? ≠ some d :=
    fun d hwider hd => hrest d hd hwider
  have hadd :=
    addToken_runs text kind none hs hrow (Placed.stop_of_line (hlines _ hsign))
  simp only [signs, List.mem_cons, List.not_mem_nil, or_false,
    Prod.mk.injEq] at hsign
  rcases hsign with ⟨rfl, rfl⟩ | ⟨rfl, rfl⟩ | ⟨rfl, rfl⟩ | ⟨rfl, rfl⟩
    | ⟨rfl, rfl⟩ | ⟨rfl, rfl⟩ | ⟨rfl, rfl⟩ | ⟨rfl, rfl⟩ | ⟨rfl, rfl⟩
    | ⟨rfl, rfl⟩ | ⟨rfl, rfl⟩ | ⟨rfl, rfl⟩ | ⟨rfl, rfl⟩ | ⟨rfl, rfl⟩
    | ⟨rfl, rfl⟩ | ⟨rfl, rfl⟩ | ⟨rfl, rfl⟩ | ⟨rfl, rfl⟩ | ⟨rfl, rfl⟩
    | ⟨rfl, rfl⟩
  all_goals apply scanToken_of_rest hs hrow
  all_goals have hnext := drop_succ hrow
  -- four signs start a longer opening; the others are read at sight
  all_goals first
    | exact hadd
    | exact (pass_yes hnext).bind hadd
    | exact (pass_no hnext (hstop _ (by decide))).bind hadd
    | exact (pass_no hnext (by simp)).bind ((pass_yes hnext).bind hadd)
    | exact (pass_no hnext (hstop _ (by decide))).bind
        ((pass_no hnext (hstop _ (by decide))).bind hadd)

/-- One token is asked for, and the machine passes one slice of the text. -/
theorem scanToken_runs {piece : Piece} (hs : Ready row s) (hn : row.length < n)
    (h : Cut text rest piece) (hrow : row.drop s.current = text ++ rest) :
    Runs (scanToken row n) s () (s.behind text piece) := by
  cases h with
  | blank hc => exact scanToken_of_rest hs hrow (scanRest_blank hc)
  | comment hbody hrest =>
      exact scanToken_of_rest hs hrow (scanRest_comment hn hrow hbody hrest)
  | sign hsign hrest => exact scanToken_sign hs hrow hsign hrest
  | yes =>
      exact scanToken_of_rest hs hrow
        (string_closed ['O', 'O'] hs hn (by simp) hrow rfl)
  | no =>
      exact scanToken_of_rest hs hrow
        (string_closed ['D', 'I', 'L', 'I'] hs hn (by simp) hrow rfl)
  | text hbody hyes hno =>
      exact scanToken_of_rest hs hrow
        (string_closed _ hs hn hbody hrow (addText_of_ne hyes hno))
  | openText hbody =>
      rw [List.append_nil] at hrow
      exact scanToken_of_rest hs hrow (string_open hs hn hbody hrow)
  | @character c _ hc =>
      exact scanToken_of_rest hs hrow <| character_bare (drop_succ hrow) hc
        (closeCharacter_closed ['\'', c] hs hrow rfl)
  | @escaped c _ =>
      exact scanToken_of_rest hs hrow <| character_escaped (drop_succ hrow)
        (closeCharacter_closed ['\'', '\\', c] hs hrow rfl)
  | openCharacter hrest =>
      exact scanToken_of_rest hs hrow (character_open hs hrow hrest)
  | emptyCharacter => exact scanToken_of_rest hs hrow (character_empty hs hrow)
  | badCharacter hused hopen hskipped =>
      rw [List.cons_append, List.append_assoc] at hrow
      exact scanToken_of_rest hs hrow
        (character_bad hs hn hrow hused hopen hskipped)
  | escapeCode hc =>
      exact scanToken_of_rest hs hrow (escapeCode_closed hs hrow hc)
  | openEscape hrest =>
      exact scanToken_of_rest hs hrow (escapeCode_open hs hrow hrest)
  | badEscape hc hrest =>
      exact scanToken_of_rest hs hrow (escapeCode_bad hs hrow hc hrest)
  | whole hds hrest hpoint =>
      have hnumber := number_whole hs hn hrow hds hrest hpoint
      cases text with
      | nil => exact absurd rfl hds.1
      | cons d ds =>
          rw [← scanRest_of_isDigit (hds.2 d List.mem_cons_self)] at hnumber
          exact scanToken_of_rest hs hrow hnumber
  | @decimal ds fraction _ hds hfraction hrest =>
      have hnumber := number_decimal hs hn hrow hds hfraction hrest
      cases ds with
      | nil => exact absurd rfl hds.1
      | cons d ds =>
          rw [← scanRest_of_isDigit (hds.2 d List.mem_cons_self)] at hnumber
          exact scanToken_of_rest hs hrow hnumber
  | pair hfirst hjoined =>
      have hword := word_joined hs hn hrow hfirst hjoined
      obtain ⟨c, tail, rfl, hc, -⟩ := hfirst
      rw [← scanRest_of_isWordStart hc] at hword
      exact scanToken_of_rest hs hrow hword
  | word hw hrest halone =>
      have hword := word_alone hs hn hrow hw hrest halone
      obtain ⟨c, tail, rfl, hc, -⟩ := hw
      rw [← scanRest_of_isWordStart hc] at hword
      exact scanToken_of_rest hs hrow hword
  | @unexpected c _ hc hsign hdigit hword =>
      have hline : '\n' ∉ [c] := by
        intro hmem
        rw [← List.mem_singleton.1 hmem] at hc
        exact hc (by decide)
      apply scanToken_of_rest hs hrow
      rw [scanRest_of_unexpected hc hsign hdigit hword]
      exact report_runs [c] _ hs (Placed.stop_of_line hline)

end Scanner

end BisayaPlus.Token
