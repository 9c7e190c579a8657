/-
The lexical grammar: what the first slice of a text can be.

`Cut text rest piece` says that a text made of `text` and then `rest` has
`text` as its first slice, and that the slice is `piece`. Each rule gives
the spelling of one sort of slice, and beside it what may not follow: a
slice ends where the text behind it cannot make it longer. The rules are
about spellings only; no cursor moves in them.

`Slice.next_cuts` is the one place where the scanner's step is opened.
What holds of every slice is read off the rules.
-/
import BisayaPlus.Token.Slice
import Mathlib.Data.List.TakeWhile

namespace BisayaPlus.Token

-- ============================================================= classes

/-- A text that does not start with a character of the class. -/
def Stops (p : Char → Bool) (rest : List Char) : Prop :=
  ∀ c, rest.head? = some c → p c = false

/-- A text that starts a new line or has ended. -/
def EndsLine (rest : List Char) : Prop :=
  Stops (· ≠ '\n') rest

/-- The characters that stand between tokens. -/
def blanks : List Char := [' ', '\r', '\t', '\n']

/-- The signs of the language. -/
def signs : List (List Char × Kind) :=
  [(['('], .leftParen), ([')'], .rightParen), (['{'], .leftBrace),
    (['}'], .rightBrace), ([','], .comma), ([':'], .colon),
    (['&'], .ampersand), (['$'], .dollar), (['+'], .plus), (['-'], .minus),
    (['*'], .star), (['/'], .slash), (['%'], .percent), (['='], .assign),
    (['=', '='], .equalEqual), (['<', '>'], .notEqual), (['<'], .less),
    (['<', '='], .lessEqual), (['>'], .greater), (['>', '='], .greaterEqual)]

/-- The openings that are longer than a sign they start with. -/
def wider : List (List Char) :=
  [['-', '-'], ['=', '='], ['<', '='], ['<', '>'], ['>', '=']]

/-- One or more decimal digits. -/
def Digits (ds : List Char) : Prop :=
  ds ≠ [] ∧ ∀ d ∈ ds, d.isDigit = true

/-- A letter or underscore, and then letters, digits and underscores. -/
def IsWord (w : List Char) : Prop :=
  ∃ c cs, w = c :: cs ∧ Slice.isWordStart c = true ∧ ∀ d ∈ cs,
    Slice.isWordChar d = true

/-- The words `first` and `second` make up a pair: spaces or tabs stand
between them, and `second` is complete. -/
structure Joined (first gap second rest : List Char) (kind : Kind) : Prop where
  opens : startsPair (String.ofList first) = true
  gap_ne : gap ≠ []
  gap_blank : ∀ c ∈ gap, (c == ' ' || c == '\t') = true
  second_ne : second ≠ []
  second_word : ∀ c ∈ second, Slice.isWordChar c = true
  ends : Stops Slice.isWordChar rest
  known : keyword? (String.ofList first ++ " " ++ String.ofList second)
    = some kind

/-- What stands behind an opening quote and is taken for the character. -/
inductive CharacterBody : List Char → List Char → Prop
  | bare {c : Char} {more : List Char} (hc : c ∉ ['\'', '\\', '\n']) :
      CharacterBody [c] more
  | escape {c : Char} {more : List Char} : CharacterBody ['\\', c] more
  /-- A backslash that ends the text. -/
  | last : CharacterBody ['\\'] []

/-- What a malformed character takes besides: all up to a closing quote
on the same line, and nothing if there is none. -/
inductive Skipped : List Char → List Char → Prop
  | closed {junk rest : List Char} (hquote : '\'' ∉ junk)
      (hline : '\n' ∉ junk) :
      Skipped (junk ++ ['\'']) rest
  | nothing {rest : List Char}
      (hopen : ∀ junk more, rest = junk ++ '\'' :: more → '\n' ∈ junk) :
      Skipped [] rest

-- =============================================================== rules

/-- The first slice of `text ++ rest` is `text`, and it is `piece`. -/
inductive Cut : List Char → List Char → Piece → Prop
  | blank {c : Char} {rest : List Char} (hc : c ∈ blanks) : Cut [c] rest .blank
  | comment {body rest : List Char} (hbody : '\n' ∉ body)
      (hrest : EndsLine rest) :
      Cut ('-' :: '-' :: body) rest .comment
  | sign {text rest : List Char} {kind : Kind} (hsign : (text, kind) ∈ signs)
      (hrest : ∀ c, rest.head? = some c → text ++ [c] ∉ wider) :
      Cut text rest (.token kind none)
  | yes {rest : List Char} : Cut ['"', 'O', 'O', '"'] rest
      (.token .oo (some (.truth true)))
  | no {rest : List Char} :
      Cut ['"', 'D', 'I', 'L', 'I', '"'] rest
        (.token .dili (some (.truth false)))
  | text {body rest : List Char} (hbody : '"' ∉ body)
      (hyes : String.ofList body ≠ "OO")
      (hno : String.ofList body ≠ "DILI") :
      Cut ('"' :: (body ++ ['"'])) rest
        (.token .string (some (.text (String.ofList body))))
  | openText {body : List Char} (hbody : '"' ∉ body) :
      Cut ('"' :: body) [] (.malformed .openText)
  | character {c : Char} {rest : List Char} (hc : c ∉ ['\'', '\\', '\n']) :
      Cut ['\'', c, '\''] rest (.token .character (some (.char c)))
  | escaped {c : Char} {rest : List Char} :
      Cut ['\'', '\\', c, '\''] rest
        (.token .character (some (.char (Slice.unescape c))))
  | openCharacter {rest : List Char} (hrest : EndsLine rest) :
      Cut ['\''] rest (.malformed .openCharacter)
  | emptyCharacter {rest : List Char} : Cut ['\'', '\''] rest
      (.malformed .emptyCharacter)
  | badCharacter {used skipped rest : List Char}
      (hused : CharacterBody used (skipped ++ rest))
      (hopen : (skipped ++ rest).head? ≠ some '\'')
      (hskipped : Skipped skipped rest) :
      Cut ('\'' :: (used ++ skipped)) rest (.malformed .badCharacter)
  | escapeCode {c : Char} {rest : List Char} (hc : c ≠ '\n') :
      Cut ['[', c, ']'] rest (.token .escapeCode (some (.char c)))
  | openEscape {rest : List Char} (hrest : EndsLine rest) :
      Cut ['['] rest (.malformed .openEscape)
  | badEscape {c : Char} {rest : List Char} (hc : c ≠ '\n')
      (hrest : rest.head? ≠ some ']') :
      Cut ['[', c] rest (.malformed .badEscape)
  | whole {ds rest : List Char} (hds : Digits ds)
      (hrest : Stops Char.isDigit rest)
      (hpoint : ∀ more, rest = '.' :: more → Stops Char.isDigit more) :
      Cut ds rest (.token .number (some (.number (Number.ofDecimal ds []))))
  | decimal {ds fraction rest : List Char} (hds : Digits ds)
      (hfraction : Digits fraction)
      (hrest : Stops Char.isDigit rest) :
      Cut (ds ++ '.' :: fraction) rest
        (.token .number (some (.number (Number.ofDecimal ds fraction))))
  | pair {first gap second rest : List Char} {kind : Kind}
      (hfirst : IsWord first)
      (hjoined : Joined first gap second rest kind) :
      Cut (first ++ (gap ++ second)) rest (.token kind none)
  | word {w rest : List Char} (hw : IsWord w)
      (hrest : Stops Slice.isWordChar rest)
      (halone : ∀ gap second more kind, rest = gap ++ (second ++ more) →
        ¬ Joined w gap second more kind) :
      Cut w rest (.token ((keyword? (String.ofList w)).getD .identifier) none)
  | unexpected {c : Char} {rest : List Char}
      (hc : c ∉ blanks ++ ['"', '\'', '['])
      (hsign : ∀ kind, ([c], kind) ∉ signs)
      (hdigit : c.isDigit = false) (hword : Slice.isWordStart c = false) :
      Cut [c] rest (.malformed (.unexpected c))

-- ============================================================ the step

/-- A run of characters of one class, and what stops it. -/
theorem takeWhile_stops (p : Char → Bool) (cs : List Char) :
    ∃ rest, cs = cs.takeWhile p ++ rest ∧ Stops p rest := by
  refine ⟨cs.dropWhile p, List.takeWhile_append_dropWhile.symm, ?_⟩
  intro c hc
  have hstop := List.head?_dropWhile_not p cs
  rw [hc] at hstop
  exact hstop

/-- A run that is stopped is the longest one. -/
theorem takeWhile_run {p : Char → Bool} {run rest : List Char}
    (hrun : ∀ c ∈ run, p c = true) (hrest : Stops p rest) :
    (run ++ rest).takeWhile p = run := by
  rw [List.takeWhile_append_of_pos hrun]
  cases rest with
  | nil => simp
  | cons c cs => simp [hrest c rfl]

/-- The gap of a pair ends where the second word starts, for no word starts
with a blank. -/
theorem Joined.second_stops {first gap second rest : List Char} {kind : Kind}
    (h : Joined first gap second rest kind) :
    Stops (fun c => c == ' ' || c == '\t') (second ++ rest) := by
  intro c hc
  cases second with
  | nil => exact absurd rfl h.second_ne
  | cons d second =>
      cases hc
      have hword := h.second_word c List.mem_cons_self
      refine Bool.eq_false_iff.2 fun hblank => ?_
      simp only [Bool.or_eq_true, beq_iff_eq] at hblank
      obtain rfl | rfl := hblank
      · exact absurd hword (by decide)
      · exact absurd hword (by decide)

/-- The slice is cut off the front of the text `c :: cs` by a rule. -/
def Slice.Cuts (s : Slice) (c : Char) (cs : List Char) : Prop :=
  ∃ more rest, cs = more ++ rest ∧ more.length = s.extra
    ∧ Cut (c :: more) rest s.piece

namespace Slice

/-- A sign of one character, where no longer opening stands. -/
theorem plain_cuts {c : Char} {cs : List Char} {kind : Kind}
    (hsign : ([c], kind) ∈ signs)
    (halone : ∀ d more, cs = d :: more → [c, d] ∉ wider) :
    (plain kind 0).Cuts c cs := by
  refine ⟨[], cs, rfl, rfl, .sign hsign ?_⟩
  intro d hd
  obtain ⟨more, hmore⟩ := List.head?_eq_some_iff.1 hd
  exact halone d more hmore

/-- A sign that no longer opening starts with, whatever follows. -/
theorem lone_cuts {c : Char} {cs : List Char} {kind : Kind}
    (hsign : ([c], kind) ∈ signs) (hc : c ∉ ['-', '=', '<', '>']) :
    (plain kind 0).Cuts c cs := by
  apply plain_cuts hsign
  intro d more _ hwider
  simp only [List.mem_cons, List.not_mem_nil, or_false, not_or] at hc
  simp [wider, hc] at hwider

/-- A sign of two characters. -/
theorem plain_two_cuts {c d : Char} {cs : List Char} {kind : Kind}
    (hsign : ([c, d], kind) ∈ signs) : (plain kind 1).Cuts c (d :: cs) := by
  refine ⟨[d], cs, rfl, rfl, .sign hsign ?_⟩
  intro e _ hwider
  simp [wider] at hwider

theorem afterQuote_cuts (cs : List Char) : (afterQuote cs).Cuts '"' cs := by
  obtain ⟨rest, hcs, hrest⟩ := takeWhile_stops (· ≠ '"') cs
  have hbody : '"' ∉ cs.takeWhile (· ≠ '"') := by
    intro hmem
    simpa using List.mem_takeWhile_imp hmem
  unfold afterQuote
  generalize hrun : cs.takeWhile (· ≠ '"') = body at hcs hbody ⊢
  dsimp only
  subst hcs
  cases rest with
  | nil =>
      rw [if_pos (by simp)]
      exact ⟨body, [], rfl, rfl, .openText hbody⟩
  | cons d rest =>
      obtain rfl : d = '"' := by simpa using hrest d rfl
      rw [if_neg (by simp)]
      have hsplit : body ++ '"' :: rest = (body ++ ['"']) ++ rest := by simp
      split
      next hyes =>
        obtain rfl : body = ['O', 'O'] := String.ofList_injective hyes
        exact ⟨_, rest, hsplit, rfl, .yes⟩
      next hno =>
        obtain rfl : body = ['D', 'I', 'L', 'I'] := String.ofList_injective hno
        exact ⟨_, rest, hsplit, rfl, .no⟩
      next hyes hno =>
        refine ⟨_, rest, hsplit, by simp [literal], ?_⟩
        exact .text hbody hyes hno

theorem toClosingQuote_skips (cs : List Char) :
    ∃ skipped rest, cs = skipped ++ rest ∧ skipped.length = toClosingQuote cs ∧
      Skipped skipped rest := by
  obtain ⟨rest, hcs, hrest⟩ :=
    takeWhile_stops (fun c => c ≠ '\'' && c ≠ '\n') cs
  have hin : ∀ c ∈ cs.takeWhile (fun c => c ≠ '\'' && c ≠ '\n'),
      c ≠ '\'' ∧ c ≠ '\n' := by
    intro c hc
    simpa using List.mem_takeWhile_imp hc
  unfold toClosingQuote
  generalize cs.takeWhile (fun c => c ≠ '\'' && c ≠ '\n') = junk at hcs hin ⊢
  subst hcs
  dsimp only
  rw [List.drop_left]
  split
  next tail =>
    refine ⟨junk ++ ['\''], tail, by simp, by simp, .closed ?_ ?_⟩
    · intro hmem
      exact (hin _ hmem).1 rfl
    · intro hmem
      exact (hin _ hmem).2 rfl
  next hne =>
    refine ⟨[], junk ++ rest, rfl, rfl, .nothing ?_⟩
    intro before behind heq
    -- a quote before the line's end would be in the run or stop it
    refine Decidable.byContradiction fun hline => ?_
    have hquote : '\'' ∉ junk := fun hmem => (hin _ hmem).1 rfl
    obtain ⟨extra, rfl, hextra⟩ | ⟨extra, rfl, hextra⟩ :=
      List.append_eq_append_iff.1 heq
    · cases extra with
      | nil => exact hne behind (by simpa using hextra)
      | cons d extra =>
          have hstop := hrest d (by rw [hextra]; rfl)
          obtain rfl | rfl : d = '\'' ∨ d = '\n' := by
            simp only [Bool.and_eq_false_iff, decide_eq_false_iff_not, ne_eq,
              Decidable.not_not] at hstop
            exact hstop
          · exact hne _ hextra
          · exact hline (by simp)
    · cases extra with
      | nil => exact hne behind (by simpa using hextra.symm)
      | cons d extra =>
          obtain ⟨rfl, -⟩ := List.cons.inj hextra
          exact hquote (by simp)

theorem closeCharacter_cuts {c : Char} {used cs : List Char}
    (hused : CharacterBody used cs) (hclosed : ∀ rest, cs = '\'' :: rest →
      Cut ('\'' :: (used ++ ['\''])) rest
      (.token .character (some (.char c)))) :
    (closeCharacter c used.length cs).Cuts '\'' (used ++ cs) := by
  unfold closeCharacter
  split
  next rest =>
    exact ⟨used ++ ['\''], rest, by simp, by simp [literal], hclosed rest rfl⟩
  next hopen =>
    obtain ⟨skipped, rest, rfl, hlength, hskipped⟩ := toClosingQuote_skips cs
    refine ⟨used ++ skipped, rest, by simp, by simp [hlength],
      .badCharacter hused ?_ hskipped⟩
    intro hhead
    obtain ⟨more, hmore⟩ := List.head?_eq_some_iff.1 hhead
    exact hopen more hmore

theorem afterApostrophe_cuts (cs : List Char) :
    (afterApostrophe cs).Cuts '\'' cs := by
  unfold afterApostrophe
  split
  next =>
    refine ⟨[], [], rfl, rfl, .openCharacter ?_⟩
    intro c hc
    cases hc
  next rest =>
    refine ⟨[], '\n' :: rest, rfl, rfl, .openCharacter ?_⟩
    intro c hc
    cases hc
    rfl
  next rest => exact ⟨['\''], rest, rfl, rfl, .emptyCharacter⟩
  next c cs => exact closeCharacter_cuts .escape fun _ _ => .escaped
  next c cs hline hquote hescape =>
    by_cases hc : c = '\\'
    · subst hc
      cases cs with
      | nil =>
          exact closeCharacter_cuts .last (by intro rest hrest; cases hrest)
      | cons d cs => exact absurd rfl (hescape d cs rfl)
    · have hbare : c ∉ ['\'', '\\', '\n'] := by
        simp only [List.mem_cons, List.not_mem_nil, or_false, not_or]
        exact ⟨hquote, hc, hline⟩
      exact closeCharacter_cuts (.bare hbare) fun _ _ => .character hbare

theorem afterBracket_cuts (cs : List Char) :
    (afterBracket cs).Cuts '[' cs := by
  unfold afterBracket
  split
  next =>
    refine ⟨[], [], rfl, rfl, .openEscape ?_⟩
    intro c hc
    cases hc
  next rest =>
    refine ⟨[], '\n' :: rest, rfl, rfl, .openEscape ?_⟩
    intro c hc
    cases hc
    rfl
  next c rest hline => exact ⟨[c, ']'], rest, rfl, rfl, .escapeCode hline⟩
  next hnil hline hclosed =>
    cases cs with
    | nil => exact absurd rfl hnil
    | cons c rest =>
        refine ⟨[c], rest, rfl, rfl, .badEscape ?_ ?_⟩
        · rintro rfl
          exact hline rest rfl
        · intro hhead
          obtain ⟨more, rfl⟩ := List.head?_eq_some_iff.1 hhead
          exact hclosed c more rfl

theorem number_cuts {c : Char} (hc : c.isDigit = true) (cs : List Char) :
    (number c cs).Cuts c cs := by
  obtain ⟨rest, hcs, hrest⟩ := takeWhile_stops Char.isDigit cs
  have hrun : ∀ d ∈ cs.takeWhile Char.isDigit, d.isDigit = true := fun d hd =>
    List.mem_takeWhile_imp hd
  unfold number
  generalize cs.takeWhile Char.isDigit = ds at hcs hrun ⊢
  subst hcs
  have hds : Digits (c :: ds) := by
    refine ⟨List.cons_ne_nil c ds, ?_⟩
    intro d hd
    obtain rfl | hd := List.mem_cons.1 hd
    · exact hc
    · exact hrun d hd
  dsimp only
  rw [List.drop_left]
  split
  next d more =>
    split
    next hd =>
      obtain ⟨rest, hmore, hend⟩ := takeWhile_stops Char.isDigit more
      have hfraction : Digits (d :: more.takeWhile Char.isDigit) := by
        refine ⟨List.cons_ne_nil _ _, ?_⟩
        intro e he
        obtain rfl | he := List.mem_cons.1 he
        · exact hd
        · exact List.mem_takeWhile_imp he
      refine ⟨ds ++ '.' :: d :: more.takeWhile Char.isDigit, rest, ?_, ?_,
        .decimal hds hfraction hend⟩
      · rw [List.append_assoc]
        exact congrArg (fun more => ds ++ '.' :: d :: more) hmore
      · simp only [literal, List.length_append, List.length_cons]
        omega
    next hd =>
      refine ⟨ds, '.' :: d :: more, rfl, rfl, .whole hds hrest ?_⟩
      intro behind hbehind e he
      cases hbehind
      cases he
      simpa using hd
  next hpoint =>
    refine ⟨ds, rest, rfl, rfl, .whole hds hrest ?_⟩
    intro more hmore d hd
    obtain ⟨behind, rfl⟩ := List.head?_eq_some_iff.1 hd
    exact absurd hmore (hpoint d behind)

/-- A second word is found exactly where the two words make up a pair. -/
theorem pair?_eq_some {first cs : List Char} {kind : Kind} {n : Nat}
    (hopens : startsPair (String.ofList first) = true)
    (h : pair? (String.ofList first) cs = some (kind, n)) :
    ∃ gap second rest, cs = gap ++ (second ++ rest)
      ∧ (gap ++ second).length = n ∧
      Joined first gap second rest kind := by
  obtain ⟨behind, hcs, hbehind⟩ :=
    takeWhile_stops (fun c => c == ' ' || c == '\t') cs
  have hgap : ∀ c ∈ cs.takeWhile (fun c => c == ' ' || c == '\t'),
      (c == ' ' || c == '\t') = true := by
    intro c hc
    have hblank := List.mem_takeWhile_imp hc
    exact hblank
  unfold pair? at h
  generalize cs.takeWhile (fun c => c == ' ' || c == '\t') = gap at hcs hgap h
  subst hcs
  dsimp only at h
  rw [List.drop_left] at h
  obtain ⟨rest, hsecond, hrest⟩ := takeWhile_stops isWordChar behind
  split at h
  next => cases h
  next hne =>
    simp only [Bool.or_eq_true, List.isEmpty_iff, not_or] at hne
    obtain ⟨kind', hkind, heq⟩ := Option.map_eq_some_iff.1 h
    cases heq
    refine ⟨gap, behind.takeWhile isWordChar, rest, ?_, List.length_append, ?_⟩
    · rw [← hsecond]
    · exact ⟨hopens, hne.1, hgap, hne.2, fun c hc => List.mem_takeWhile_imp hc,
        hrest, hkind⟩

theorem pair?_of_joined {first gap second rest : List Char} {kind : Kind}
    (h : Joined first gap second rest kind) :
    pair? (String.ofList first) (gap ++ (second ++ rest)) =
      some (kind, gap.length + second.length) := by
  have hne : ¬ (gap.isEmpty || second.isEmpty) = true := by
    simp only [Bool.or_eq_true, List.isEmpty_iff, not_or]
    exact ⟨h.gap_ne, h.second_ne⟩
  unfold pair?
  simp only [takeWhile_run h.gap_blank h.second_stops, List.drop_left,
    takeWhile_run h.second_word h.ends, if_neg hne, h.known, Option.map_some]

theorem word_cuts {c : Char} (hc : isWordStart c = true) (cs : List Char) :
    (word c cs).Cuts c cs := by
  obtain ⟨rest, hcs, hrest⟩ := takeWhile_stops isWordChar cs
  have hrun : ∀ d ∈ cs.takeWhile isWordChar, isWordChar d = true := fun d hd =>
    List.mem_takeWhile_imp hd
  unfold word
  generalize cs.takeWhile isWordChar = tail at hcs hrun ⊢
  subst hcs
  have hword : IsWord (c :: tail) := ⟨c, tail, rfl, hc, hrun⟩
  dsimp only
  rw [List.drop_left]
  split
  next kind n hpair =>
    obtain ⟨hopens, hpair⟩ := Option.ite_none_right_eq_some.1 hpair
    obtain ⟨gap, second, rest, rfl, rfl, hjoined⟩ := pair?_eq_some hopens hpair
    refine ⟨tail ++ (gap ++ second), rest, by simp, by simp [plain], ?_⟩
    exact .pair hword hjoined
  next hpair =>
    refine ⟨tail, rest, rfl, rfl, .word hword hrest ?_⟩
    rintro gap second more kind rfl hjoined
    rw [if_pos hjoined.opens, pair?_of_joined hjoined] at hpair
    cases hpair

theorem comment_cuts (cs : List Char) :
    Cuts ⟨.comment, (('-' :: cs).takeWhile (· ≠ '\n')).length⟩ '-'
      ('-' :: cs) := by
  obtain ⟨rest, hcs, hrest⟩ := takeWhile_stops (· ≠ '\n') cs
  have hbody : '\n' ∉ cs.takeWhile (· ≠ '\n') := by
    intro hmem
    simpa using List.mem_takeWhile_imp hmem
  refine ⟨'-' :: cs.takeWhile (· ≠ '\n'), rest, ?_, ?_, .comment hbody hrest⟩
  · exact congrArg (List.cons '-') hcs
  · rw [List.takeWhile_cons_of_pos (by decide)]

/-- The scanner's step follows the rules. -/
theorem next_cuts (c : Char) (cs : List Char) : (next c cs).Cuts c cs := by
  fun_cases next c cs
  case case1 | case2 | case3 | case4 =>
    exact ⟨[], cs, rfl, rfl, .blank (by decide)⟩
  case case5 | case6 | case7 | case8 | case9 | case10 | case11 | case12
    | case13 | case14 | case15 | case16 =>
    exact lone_cuts (by decide) (by decide)
  case case17 cs => exact comment_cuts cs
  case case18 hdash =>
    apply plain_cuts (by decide)
    intro d more hmore hwider
    obtain rfl : d = '-' := by simpa [wider] using hwider
    exact hdash more hmore
  case case20 hequals | case25 hequals =>
    apply plain_cuts (by decide)
    intro d more hmore hwider
    obtain rfl : d = '=' := by simpa [wider] using hwider
    exact hequals more hmore
  case case23 hequals hgreater =>
    apply plain_cuts (by decide)
    intro d more hmore hwider
    obtain rfl | rfl : d = '=' ∨ d = '>' := by simpa [wider] using hwider
    · exact hequals more hmore
    · exact hgreater more hmore
  case case19 | case21 | case22 | case24 => exact plain_two_cuts (by decide)
  case case26 => exact afterQuote_cuts cs
  case case27 => exact afterApostrophe_cuts cs
  case case28 => exact afterBracket_cuts cs
  case case29 hdigit => exact number_cuts hdigit cs
  case case30 hword => exact word_cuts hword cs
  case case31 hdigit hword =>
    refine ⟨[], cs, rfl, rfl, .unexpected ?_ ?_ (by simpa using hdigit)
      (by simpa using hword)⟩
    · simp_all [blanks]
    · simp_all [signs]

end Slice

end BisayaPlus.Token
