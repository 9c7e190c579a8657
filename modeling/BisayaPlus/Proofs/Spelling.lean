/-
How tokens are spelled.

`WellSpelled t` says what the lexeme and the literal of a token are for
its kind: numbers, texts, characters and names have many spellings, every
other kind is spelled by its words (`Kind.words`), with spaces or tabs
between the two words of a pair. The predicate is about the token alone;
it knows nothing of the text around it or of how the scanner finds it.

Every token of a text that scans is well-spelled, and a well-spelled token
is what its lexeme scans to (`scan_wellSpelled`), so nothing weaker and
nothing stronger could be said about one token. Numerals always have a
value: the machine has words for a numeral without one, and never says
them.
-/
import BisayaPlus.Proofs.ScannerRuns

namespace BisayaPlus.Token

-- ============================================================ spellings

/-- The words or the sign that spell a kind. The kinds with many spellings
have none here, and neither has the end. -/
def Kind.words : Kind → List String
  | leftParen => ["("]
  | rightParen => [")"]
  | leftBrace => ["\x7b"]
  | rightBrace => ["\x7d"]
  | comma => [","]
  | colon => [":"]
  | ampersand => ["&"]
  | dollar => ["$"]
  | plus => ["+"]
  | minus => ["-"]
  | star => ["*"]
  | slash => ["/"]
  | percent => ["%"]
  | assign => ["="]
  | equalEqual => ["=="]
  | notEqual => ["<>"]
  | less => ["<"]
  | lessEqual => ["<="]
  | greater => [">"]
  | greaterEqual => [">="]
  | sugod => ["SUGOD"]
  | katapusan => ["KATAPUSAN"]
  | mugna => ["MUGNA"]
  | pundok => ["PUNDOK"]
  | kung => ["KUNG"]
  | kungDili => ["KUNG", "DILI"]
  | kungWala => ["KUNG", "WALA"]
  | alangSa => ["ALANG", "SA"]
  | ug => ["UG"]
  | o => ["O"]
  | ipakita => ["IPAKITA"]
  | dawat => ["DAWAT"]
  | oo => ["OO"]
  | dili => ["DILI"]
  | numero => ["NUMERO"]
  | tipik => ["TIPIK"]
  | letra => ["LETRA"]
  | tinuod => ["TINUOD"]
  | number | string | character | escapeCode | identifier | eof => []

/-- The words with spaces or tabs between them. -/
def Spaced : List String → List Char → Prop
  | [], text => text = []
  | [word], text => text = word.toList
  | word :: words, text =>
      ∃ gap rest, gap ≠ [] ∧ (∀ c ∈ gap, c = ' ' ∨ c = '\t') ∧
        text = word.toList ++ (gap ++ rest) ∧ Spaced words rest

/-- Digits, and then a point and digits or nothing. -/
def Numeral (text : List Char) : Prop :=
  Digits text ∨ ∃ whole fraction, text = whole ++ '.' :: fraction
    ∧ Digits whole ∧ Digits fraction

/-- The text between double quotes. -/
def quoted (body : List Char) : List Char := '"' :: (body ++ ['"'])

/-- The characters that stand for another one behind a backslash. -/
def escapes : List (Char × Char) :=
  [('n', '\n'), ('t', '\t'), ('r', '\r'), ('0', '\x00')]

/-- The word alone, or the word in double quotes with the truth value. -/
def TruthSpelled (word : String) (b : Bool) (text : List Char)
    (literal : Option Value) : Prop :=
  text = word.toList ∧ literal = none ∨
    text = quoted word.toList ∧ literal = some (.truth b)

/-- The character stands for itself, or a backslash stands before it. -/
def CharacterSpelled (c : Char) (text : List Char) (literal : Option Value) :
    Prop :=
  c ∉ ['\'', '\\', '\n'] ∧ text = ['\'', c, '\''] ∧ literal = some (.char c) ∨
    text = ['\'', '\\', c, '\'']
      ∧ literal = some (.char ((escapes.lookup c).getD c))

/-- The text and the literal that tokens of the kind have. -/
def Spells (kind : Kind) (text : List Char) (literal : Option Value) : Prop :=
  match kind with
  | .number =>
      Numeral text ∧ ∃ x, Number.read? text = some x
        ∧ literal = some (.number x)
  | .string =>
      ∃ body, text = quoted body ∧ '"' ∉ body ∧ body ≠ "OO".toList
        ∧ body ≠ "DILI".toList ∧ literal = some (.text (String.ofList body))
  | .oo => TruthSpelled "OO" true text literal
  | .dili => TruthSpelled "DILI" false text literal
  | .character => ∃ c, CharacterSpelled c text literal
  | .escapeCode =>
      ∃ c, c ≠ '\n' ∧ text = ['[', c, ']'] ∧ literal = some (.char c)
  | .identifier =>
      IsWord text ∧ (∀ kind : Kind, kind.words ≠ [String.ofList text])
        ∧ literal = none
  | kind => Spaced kind.words text ∧ literal = none

/-- The lexeme and the literal of the token fit its kind. -/
def WellSpelled (t : Token) : Prop := Spells t.kind t.lexeme.toList t.literal

-- ========================================================== fixed kinds

variable {text rest : List Char} {kind : Kind} {literal : Option Value}

/-- What the words of a kind can be: a sign, a word or a pair. -/
inductive FixedWords (kind : Kind) : List String → Prop
  | sign {sign : String} (h : (sign.toList, kind) ∈ signs) :
      FixedWords kind [sign]
  | word {word : String} (hw : IsWord word.toList)
      (h : keyword? word = some kind) :
      FixedWords kind [word]
  | pair {a b : String} (hpair : (a, b) ∈ pairs)
      (h : keyword? (a ++ " " ++ b) = some kind) :
      FixedWords kind [a, b]

theorem fixedWords (h : kind.words ≠ []) : FixedWords kind kind.words := by
  have hword {c : Char} {cs : List Char} (hc : Slice.isWordStart c = true)
      (hcs : cs.all Slice.isWordChar = true) : IsWord (c :: cs) :=
    ⟨c, cs, rfl, hc, List.all_eq_true.1 hcs⟩
  cases kind
  case number | string | character | escapeCode | identifier | eof =>
    exact absurd rfl h
  case kungDili | kungWala | alangSa => exact .pair (by decide) rfl
  case sugod | katapusan | mugna | pundok | kung | ug | o | ipakita | dawat
    | oo | dili | numero | tipik | letra | tinuod =>
    exact .word (hword rfl rfl) rfl
  all_goals exact .sign (by decide)

theorem words_of_mem_signs :
    ∀ sign ∈ signs, sign.2.words = [String.ofList sign.1] := by decide

theorem words_of_mem_pairs {a b : String} (hpair : (a, b) ∈ pairs)
    (h : keyword? (a ++ " " ++ b) = some kind) : kind.words = [a, b] := by
  simp only [pairs, List.mem_cons, List.not_mem_nil, or_false,
    Prod.mk.injEq] at hpair
  rcases hpair with ⟨rfl, rfl⟩ | ⟨rfl, rfl⟩ | ⟨rfl, rfl⟩
  all_goals
    cases h
    rfl

/-- A word that is a keyword is the only word of its kind. -/
theorem words_of_keyword? (hw : IsWord text)
    (h : keyword? (String.ofList text) = some kind) :
    kind.words = [String.ofList text] := by
  have hspace : ' ' ∉ text := by
    intro hmem
    exact absurd (hw.chars _ hmem) (by decide)
  generalize hword : String.ofList text = word at h ⊢
  obtain rfl : text = word.toList := by rw [← hword, String.toList_ofList]
  unfold keyword? at h
  split at h
  case h_11 | h_12 | h_14 => exact absurd (by decide) hspace
  case h_19 => cases h
  all_goals
    cases h
    rfl

/-- A word that is no keyword is none of the words of a kind. -/
theorem words_ne_of_keyword? (hw : IsWord text)
    (h : keyword? (String.ofList text) = none) (kind : Kind) :
    kind.words ≠ [String.ofList text] := by
  intro hwords
  have hne : kind.words ≠ [] := by
    rw [hwords]
    exact List.cons_ne_nil _ _
  have hfixed := fixedWords hne
  rw [hwords] at hfixed
  cases hfixed with
  | sign hsign =>
      have hheads : ∀ sign ∈ signs, sign.1.head?.any Slice.isWordStart
          = false := by decide
      obtain ⟨c, tail, rfl, hc, -⟩ := hw
      have hhead := hheads _ hsign
      rw [String.toList_ofList, List.head?_cons, Option.any_some, hc] at hhead
      cases hhead
  | word _ hknown =>
      rw [h] at hknown
      cases hknown

/-- The words of a kind spell it without a literal. -/
theorem spells_of_words (hne : kind.words ≠ []) (h : Spaced kind.words text) :
    Spells kind text none := by
  cases kind
  case oo | dili => exact .inl ⟨h, rfl⟩
  case number | string | character | escapeCode | identifier | eof =>
    exact absurd rfl hne
  all_goals exact ⟨h, rfl⟩

theorem spells_of_word (h : kind.words = [String.ofList text]) :
    Spells kind text none := by
  apply spells_of_words
  · rw [h]
    exact List.cons_ne_nil _ _
  · rw [h]
    exact String.toList_ofList.symm

-- ============================================================ the rules

theorem unescape_eq (c : Char) :
    Slice.unescape c = (escapes.lookup c).getD c := by
  unfold Slice.unescape
  split
  case h_5 hn ht hr hzero =>
    have hnone : escapes.lookup c = none := by
      rw [List.lookup_eq_none_iff]
      simp only [escapes, List.forall_mem_cons, bne_iff_ne]
      exact ⟨hn, ht, hr, hzero, List.forall_mem_nil _⟩
    rw [hnone]
    rfl
  all_goals rfl

/-- What a rule cuts off as a token is spelled as its kind asks. -/
theorem Cut.spells (h : Cut text rest (.token kind literal)) :
    Spells kind text literal := by
  cases h with
  | sign hsign => exact spells_of_word (words_of_mem_signs _ hsign)
  | yes => exact .inr ⟨rfl, rfl⟩
  | no => exact .inr ⟨rfl, rfl⟩
  | @text body _ hbody hyes hno =>
      refine ⟨body, rfl, hbody, ?_, ?_, rfl⟩
      · rintro rfl
        exact hyes String.ofList_toList
      · rintro rfl
        exact hno String.ofList_toList
  | character hc => exact ⟨_, .inl ⟨hc, rfl, rfl⟩⟩
  | escaped => exact ⟨_, .inr ⟨rfl, by rw [unescape_eq]⟩⟩
  | escapeCode hc => exact ⟨_, hc, rfl, rfl⟩
  | whole hds => exact ⟨.inl hds, _, hds.read?_eq, rfl⟩
  | decimal hds hfraction =>
      exact ⟨.inr ⟨_, _, rfl, hds, hfraction⟩, _, hds.read?_point hfraction,
        rfl⟩
  | @pair first gap second _ _ _ hjoined =>
      have hwords := words_of_mem_pairs hjoined.mem_pairs hjoined.known
      have hgap : ∀ c ∈ gap, c = ' ' ∨ c = '\t' := by
        intro c hc
        simpa using hjoined.gap_blank c hc
      apply spells_of_words
      · rw [hwords]
        exact List.cons_ne_nil _ _
      · rw [hwords]
        refine ⟨gap, second, hjoined.gap_ne, hgap, ?_,
          String.toList_ofList.symm⟩
        rw [String.toList_ofList]
  | word hw =>
      cases hknown : keyword? (String.ofList text) with
      | none => exact ⟨hw, words_ne_of_keyword? hw hknown, rfl⟩
      | some kind => exact spells_of_word (words_of_keyword? hw hknown)

/-- At the end of the text no word is the first of a pair. -/
theorem not_joined_nil {w gap second more : List Char}
    (h : [] = gap ++ (second ++ more)) :
    ¬ Joined w gap second more kind := by
  intro hjoined
  exact hjoined.gap_ne (List.append_eq_nil_iff.1 h.symm).1

/-- The words of a kind are cut off as a token of it. -/
theorem cut_of_words (hne : kind.words ≠ []) (h : Spaced kind.words text) :
    Cut text [] (.token kind none) := by
  have hfixed := fixedWords hne
  generalize kind.words = words at hfixed h
  cases hfixed with
  | sign hsign =>
      obtain rfl := h
      refine .sign hsign ?_
      intro c hc
      cases hc
  | word hw hknown =>
      obtain rfl := h
      have hcut := Cut.word hw (stops_nil _) fun gap second more kind =>
        not_joined_nil
      rw [String.ofList_toList, hknown] at hcut
      exact hcut
  | pair hpair hknown =>
      obtain ⟨gap, second, hgap_ne, hgap, rfl, rfl⟩ := h
      have hjoined := joined_of_mem_pairs hpair hgap_ne
        (fun c hc => by simpa using hgap c hc) (stops_nil _)
      rw [hknown] at hjoined
      exact .pair (isWord_of_mem_pairs hpair).1 hjoined

/-- What is spelled as a kind asks is cut off as a token of it. -/
theorem Spells.cut (h : Spells kind text literal) (hkind : kind ≠ .eof) :
    Cut text [] (.token kind literal) := by
  cases kind
  case eof => exact absurd rfl hkind
  case number =>
      obtain ⟨hds | ⟨whole, fraction, rfl, hwhole, hfraction⟩, x,
        hread, rfl⟩ := h
      · rw [hds.read?_eq] at hread
        cases hread
        exact .whole hds (stops_nil _) (by simp)
      · rw [hwhole.read?_point hfraction] at hread
        cases hread
        exact .decimal hwhole hfraction (stops_nil _)
  case string =>
      obtain ⟨body, rfl, hbody, hyes, hno, rfl⟩ := h
      refine .text hbody ?_ ?_
      · rintro heq
        exact hyes (by rw [← heq, String.toList_ofList])
      · rintro heq
        exact hno (by rw [← heq, String.toList_ofList])
  case oo =>
      obtain ⟨htext, rfl⟩ | ⟨rfl, rfl⟩ := h
      · exact cut_of_words (List.cons_ne_nil _ _) htext
      · exact .yes
  case dili =>
      obtain ⟨htext, rfl⟩ | ⟨rfl, rfl⟩ := h
      · exact cut_of_words (List.cons_ne_nil _ _) htext
      · exact .no
  case character =>
      obtain ⟨c, ⟨hc, rfl, rfl⟩ | ⟨rfl, rfl⟩⟩ := h
      · exact .character hc
      · rw [← unescape_eq]
        exact .escaped
  case escapeCode =>
      obtain ⟨c, hc, rfl, rfl⟩ := h
      exact .escapeCode hc
  case identifier =>
      obtain ⟨hw, hwords, rfl⟩ := h
      have hcut := Cut.word hw (stops_nil _) fun gap second more kind =>
        not_joined_nil
      cases hknown : keyword? (String.ofList text) with
      | none =>
          rw [hknown] at hcut
          exact hcut
      | some kind => exact absurd (words_of_keyword? hw hknown) (hwords kind)
  all_goals
    obtain ⟨htext, rfl⟩ := h
    exact cut_of_words (List.cons_ne_nil _ _) htext

-- ============================================================== tokens

theorem wellSpelled_of_mem {source : String} {ts : List Token} {t : Token}
    (h : scan source = .ok ts) (ht : t ∈ ts) : WellSpelled t := by
  obtain ⟨-, hscan⟩ | ⟨-, hscan⟩ := scan_cases source
  swap
  · cases hscan.symm.trans h
  cases hscan.symm.trans h
  obtain ht | ht := List.mem_append.1 ht
  · obtain ⟨rest, hcut⟩ := lexical_of_mem ht
    exact hcut.spells
  · obtain rfl := List.mem_singleton.1 ht
    exact ⟨rfl, rfl⟩

/-- A text that spells a token scans to it, and then the end. -/
theorem scan_of_wellSpelled {t : Token} (h : WellSpelled t)
    (hkind : t.kind ≠ .eof) :
    ∃ span, scan t.lexeme = .ok [{ t with span := Span.start },
      endOfText span] := by
  have hslices := (h.cut hkind).slices_append (by simp) Span.start
  rw [List.append_nil] at hslices
  refine ⟨Placed.stop ⟨Span.start, t.lexeme.toList, .token t.kind t.literal⟩,
    ?_⟩
  rw [scan, hslices, slices]
  simp [Placed.error?, Placed.token?]

theorem Fault.head_message (fault : Fault) :
    fault.message.toList.head? ≠ some 'I' := by
  cases fault
  case unexpected c =>
    show (toString "Unexpected character '" ++ toString c
      ++ toString "'.").toList.head? ≠ some 'I'
    rw [String.toList_append, String.toList_append]
    exact fun h => absurd (Option.some.inj h) (by decide)
  all_goals exact fun h => absurd (Option.some.inj h) (by decide)

/-- No fault is worded like a numeral without a value. -/
theorem Fault.message_ne (fault : Fault) (text : String) :
    fault.message ≠ s!"Invalid number '{text}'." := by
  intro heq
  apply fault.head_message
  rw [heq, String.toList_append, String.toList_append]
  rfl

/-- The tokens of a text that scans are well-spelled. A token whose lexeme
is the whole text is well-spelled exactly if the text scans to it alone,
and the scanner with a cursor never complains about a numeral. -/
theorem scan_wellSpelled (source : String) :
    (∀ ts, scan source = .ok ts → ∀ t ∈ ts, WellSpelled t) ∧
    (∀ t, t.lexeme = source → t.kind ≠ .eof →
      (WellSpelled t ↔
        ∃ span, scan source = .ok [{ t with span := Span.start },
          endOfText span])) ∧
    ∀ extra errors calls,
      Scanner.tokenize (source.length + 1 + extra) source = .ok (.error errors,
        calls) →
      ∀ e ∈ errors, ∀ text : String, e.message
        ≠ s!"Invalid number '{text}'." := by
  refine ⟨fun ts h t ht => wellSpelled_of_mem h ht, ?_, ?_⟩
  · rintro t rfl hkind
    constructor
    · intro h
      exact scan_of_wellSpelled h hkind
    · rintro ⟨span, hscan⟩
      exact wellSpelled_of_mem (t := { t with span := Span.start }) hscan
        List.mem_cons_self
  · intro extra errors calls hrun e he text
    rw [Scanner.tokenize_eq (by omega)] at hrun
    obtain ⟨-, hscan⟩ | ⟨-, hscan⟩ := scan_cases source
    · rw [hscan] at hrun
      cases hrun
    · rw [hscan] at hrun
      cases hrun
      obtain ⟨error, -, rfl⟩ := List.mem_map.1 he
      exact error.fault.message_ne text

end BisayaPlus.Token
