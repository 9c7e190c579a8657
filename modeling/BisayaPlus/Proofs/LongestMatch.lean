/-
A token is the longest that the text has at its place.

`Unextended t rest` says in what ways the text `rest` behind a token may
not go on: no word character behind a word, no digit behind a number, no
character that would make a longer sign, no second word behind the first
of a pair. And no spelling of a token that the text starts with is longer
(`longest`). Pairs are left out there, for the second word has to be
complete: `KUNG DILIS` starts with the spelling of a pair and yet is two
words. What holds for pairs is said by `pair`.

The ends of tokens are in the rules already. That they make the token the
longest one is shown by following the other spelling: either it is cut
off whatever comes behind it, and then it is the token itself
(`Cut.text_unique`), or it is a number or a word, and these end where
their characters do.
-/
import BisayaPlus.Proofs.Spelling

namespace BisayaPlus.Token

variable {text rest spelled behind : List Char} {kind kind' : Kind}
  {literal literal' : Option Value}

-- ======================================================== ends of tokens

/-- The text behind a token cannot make it longer. -/
structure Unextended (t : Token) (rest : List Char) : Prop where
  /-- A name, a keyword or a pair ends where its characters do. -/
  word : t.lexeme.toList.head?.any Slice.isWordStart = true →
    Stops Slice.isWordChar rest
  digit : t.kind = .number → Stops Char.isDigit rest
  /-- A number without a point is not followed by one and a digit. -/
  point : t.kind = .number → '.' ∉ t.lexeme.toList →
    ∀ more, rest = '.' :: more → Stops Char.isDigit more
  sign : ∀ c, rest.head? = some c →
    (t.lexeme, c) ∉ [("<", '='), ("<", '>'), (">", '='), ("=", '='),
      ("-", '-')]
  /-- The first word of a pair is not followed by the second, complete and
  after spaces or tabs. -/
  pair : ∀ second gap more, (t.lexeme, second) ∈ pairs → gap ≠ [] →
    (∀ c ∈ gap, c = ' ' ∨ c = '\t') → rest = gap ++ (second.toList ++ more) →
    ¬ Stops Slice.isWordChar more
  longest : ∀ t' : Token, WellSpelled t' → t'.kind.words.length ≤ 1 →
    t'.lexeme.toList <+: t.lexeme.toList ++ rest →
      t'.lexeme.length ≤ t.lexeme.length

/-- A numeral starts with a digit. -/
theorem Numeral.head (h : Numeral text) :
    text.head?.any Char.isDigit = true := by
  obtain hds | ⟨ds, fraction, rfl, hds, -⟩ := h
  all_goals
    obtain ⟨d, ds, rfl⟩ := List.exists_cons_of_ne_nil hds.1
    exact hds.2 d List.mem_cons_self

/-- A token that starts with a digit is a number, and ends where its digits
do. -/
theorem Cut.number_cases (h : Cut text rest (.token kind literal))
    (hhead : text.head?.any Char.isDigit = true) :
    Stops Char.isDigit rest ∧
      (Digits text ∧ (∀ more, rest = '.' :: more → Stops Char.isDigit more) ∨
        ∃ ds fraction, text = ds ++ '.' :: fraction ∧ Digits ds
        ∧ Digits fraction) := by
  cases h with
  | whole hds hrest hpoint => exact ⟨hrest, .inl ⟨hds, hpoint⟩⟩
  | decimal hds hfraction hrest =>
      exact ⟨hrest, .inr ⟨_, _, rfl, hds, hfraction⟩⟩
  | sign hsign =>
      have hsigns : ∀ s ∈ signs, s.1.head?.any Char.isDigit = false := by
        decide
      rw [hsigns _ hsign] at hhead
      cases hhead
  | pair hw | word hw =>
      obtain ⟨c, tail, rfl, hc, -⟩ := hw
      have hdigit : c.isDigit = true := hhead
      rw [Slice.isDigit_of_isWordStart hc] at hdigit
      cases hdigit
  | yes | no | text | character | escaped | escapeCode => cases hhead

/-- A token that starts like a word is one, or a pair, and ends where its
characters do. -/
theorem Cut.word_cases (h : Cut text rest (.token kind literal))
    (hhead : text.head?.any Slice.isWordStart = true) :
    Stops Slice.isWordChar rest ∧
      (IsWord text ∨ ∃ first gap second, text = first ++ (gap ++ second)
        ∧ IsWord first ∧
        Joined first gap second rest kind) := by
  cases h with
  | word hw hrest => exact ⟨hrest, .inl hw⟩
  | pair hfirst hjoined =>
      exact ⟨hjoined.ends, .inr ⟨_, _, _, rfl, hfirst, hjoined⟩⟩
  | sign hsign =>
      have hsigns : ∀ s ∈ signs, s.1.head?.any Slice.isWordStart = false := by
        decide
      rw [hsigns _ hsign] at hhead
      cases hhead
  | whole hds | decimal hds =>
      obtain ⟨d, ds, rfl⟩ := List.exists_cons_of_ne_nil hds.1
      have hdigit := Slice.isDigit_of_isWordStart hhead
      rw [hds.2 d List.mem_cons_self] at hdigit
      cases hdigit
  | yes | no | text | character | escaped | escapeCode => cases hhead

/-- A token that is a sign is not the start of a longer opening. -/
theorem Cut.sign_cases (h : Cut text rest (.token kind literal))
    (hsign : text ∈ signs.map Prod.fst) {c : Char} (hc : rest.head? = some c) :
    text ++ [c] ∉ wider := by
  have hsigns : ∀ sign ∈ signs.map Prod.fst,
      sign.head?.any (fun c => Slice.isWordChar c || c ∈ ['"', '\'', '['])
        = false := by decide
  have hhead := hsigns _ hsign
  cases h with
  | sign _ hrest => exact hrest c hc
  | whole hds | decimal hds =>
      obtain ⟨d, ds, rfl, hd⟩ := hds.head
      simp [hd] at hhead
  | pair hw | word hw =>
      obtain ⟨d, tail, rfl, hd⟩ := hw.head
      simp [hd] at hhead
  | yes | no | text | character | escaped | escapeCode => cases hhead

-- ====================================================== longer spellings

/-- A text is cut in one way only. -/
theorem Cut.text_unique {piece piece' : Piece} (h : Cut text rest piece)
    (h' : Cut spelled behind piece')
    (hsound : ∀ fault, piece ≠ .malformed fault)
    (hsound' : ∀ fault, piece' ≠ .malformed fault)
    (heq : spelled ++ behind = text ++ rest) :
    spelled = text := by
  obtain ⟨c, more, rfl, hnext⟩ := h.next_eq hsound
  obtain ⟨c', more', rfl, hnext'⟩ := h'.next_eq hsound'
  rw [List.cons_append, List.cons_append] at heq
  obtain ⟨rfl, hmore⟩ := List.cons.inj heq
  rw [hmore, hnext] at hnext'
  have hlength : more.length = more'.length := congrArg Slice.extra hnext'
  rw [List.append_inj_left hmore hlength.symm]

/-- Characters of a class that a text starts with are in its first run of
them. -/
theorem length_le_takeWhile {p : Char → Bool} {run cs : List Char}
    (hrun : ∀ c ∈ run, p c = true) (hstarts : run <+: cs) :
    run.length ≤ (cs.takeWhile p).length := by
  obtain ⟨more, rfl⟩ := hstarts
  rw [List.takeWhile_append_of_pos hrun, List.length_append]
  exact Nat.le_add_right _ _

/-- A token that starts with a digit takes all the digits there are. -/
theorem digits_le (h : Cut text rest (.token kind literal))
    (hspelled : Digits spelled) (hstarts : spelled <+: text ++ rest)
    (hhead : text.head?.any Char.isDigit = true) :
    spelled.length ≤ text.length := by
  have hrun := length_le_takeWhile hspelled.2 hstarts
  obtain ⟨hrest, ⟨htext, -⟩ | ⟨ds, fraction, rfl, hds, -⟩⟩ :=
    h.number_cases hhead
  · rwa [takeWhile_run htext.2 hrest] at hrun
  · rw [List.append_assoc, List.cons_append, hds.takeWhile_point] at hrun
    rw [List.length_append]
    omega

/-- It takes the point, too, if digits follow it. -/
theorem decimal_le {ds fraction : List Char}
    (h : Cut text rest (.token kind literal)) (hds : Digits ds)
    (hfraction : Digits fraction)
    (hstarts : ds ++ '.' :: fraction <+: text ++ rest)
    (hhead : text.head?.any Char.isDigit = true) :
    (ds ++ '.' :: fraction).length ≤ text.length := by
  obtain ⟨more, hmore⟩ := hstarts
  rw [List.append_assoc, List.cons_append] at hmore
  have hwhole : (text ++ rest).takeWhile Char.isDigit = ds := by
    rw [← hmore, hds.takeWhile_point]
  obtain ⟨hrest, ⟨htext, hpoint⟩ | ⟨ds', fraction', rfl, hds', hfraction'⟩⟩ :=
    h.number_cases hhead
  · -- the point and a digit would belong to the token
    rw [takeWhile_run htext.2 hrest] at hwhole
    subst hwhole
    have hstop := hpoint _ (List.append_cancel_left hmore).symm
    obtain ⟨d, tail, rfl⟩ := List.exists_cons_of_ne_nil hfraction.1
    have hdigit := hstop d rfl
    rw [hfraction.2 d List.mem_cons_self] at hdigit
    cases hdigit
  · rw [List.append_assoc, List.cons_append] at hwhole hmore
    rw [hds'.takeWhile_point] at hwhole
    subst hwhole
    obtain ⟨-, htail⟩ := List.cons.inj (List.append_cancel_left hmore)
    have hrun := length_le_takeWhile hfraction.2 ⟨more, htail⟩
    rw [takeWhile_run hfraction'.2 hrest] at hrun
    simp only [List.length_append, List.length_cons]
    omega

/-- A token that starts a word takes the whole word. -/
theorem word_le (h : Cut text rest (.token kind literal))
    (hspelled : IsWord spelled) (hstarts : spelled <+: text ++ rest)
    (hhead : text.head?.any Slice.isWordStart = true) :
    spelled.length ≤ text.length := by
  have hrun := length_le_takeWhile hspelled.chars hstarts
  obtain ⟨hrest, htext | ⟨first, gap, second, rfl, hfirst, hjoined⟩⟩ :=
    h.word_cases hhead
  · rwa [takeWhile_run htext.chars hrest] at hrun
  · rw [List.append_assoc, List.append_assoc,
      takeWhile_run hfirst.chars (hjoined.gap_stops _)] at hrun
    rw [List.length_append]
    omega

/-- No spelling of a token that the text starts with is longer than the
token that is cut off, pairs aside. -/
theorem Cut.length_le (h : Cut text rest (.token kind literal))
    (h' : Cut spelled [] (.token kind' literal'))
    (hwords : kind'.words.length ≤ 1) (hstarts : spelled <+: text ++ rest) :
    spelled.length ≤ text.length := by
  have hne : text ≠ [] := by
    obtain ⟨c, more, rfl, -⟩ := h.head_token
    exact List.cons_ne_nil c more
  have hhead (p : Char → Bool) (hp : spelled.head?.any p = true) :
      text.head?.any p = true := by
    obtain ⟨c, more, rfl, -⟩ := h'.head_token
    obtain ⟨d, tail, rfl⟩ := List.exists_cons_of_ne_nil hne
    obtain ⟨rfl, -⟩ := List.cons_prefix_cons.1 hstarts
    exact hp
  -- what is cut off whatever comes behind it is the token itself
  have hsame (hany : ∀ behind, Cut spelled behind (.token kind' literal')) :
      spelled.length ≤ text.length := by
    obtain ⟨behind, hbehind⟩ := hstarts
    rw [h.text_unique (hany behind) (by simp) (by simp) hbehind]
  cases h' with
  | sign hsign =>
      by_cases hone : spelled.length ≤ 1
      · exact Nat.le_trans hone (List.length_pos_iff.2 hne)
      · have hwide : ∀ sign ∈ signs, 1 < sign.1.length → ∀ longer ∈ wider,
            sign.1.length + 1 ≠ longer.length := by decide
        refine hsame fun behind => .sign hsign fun c _ hmem => ?_
        exact hwide _ hsign (by simpa using hone) _ hmem (by simp)
  | yes => exact hsame fun _ => .yes
  | no => exact hsame fun _ => .no
  | text hbody hyes hno => exact hsame fun _ => .text hbody hyes hno
  | character hc => exact hsame fun _ => .character hc
  | escaped => exact hsame fun _ => .escaped
  | escapeCode hc => exact hsame fun _ => .escapeCode hc
  | whole hds =>
      exact digits_le h hds hstarts (hhead _ (Numeral.head (.inl hds)))
  | decimal hds hfraction =>
      refine decimal_le h hds hfraction hstarts (hhead _ (Numeral.head ?_))
      exact .inr ⟨_, _, rfl, hds, hfraction⟩
  | pair _ hjoined =>
      rw [words_of_mem_pairs hjoined.mem_pairs hjoined.known] at hwords
      exact absurd hwords (by simp)
  | word hw =>
      refine word_le h hw hstarts (hhead _ ?_)
      obtain ⟨c, tail, rfl, hc, -⟩ := hw
      exact hc

-- ============================================================== tokens

/-- What a rule cuts off is not the beginning of a longer token. -/
theorem unextended_of_cut {t : Token}
    (h : Cut t.lexeme.toList rest (.token t.kind t.literal)) :
    Unextended t rest := by
  have hnumber (hkind : t.kind = .number) :
      t.lexeme.toList.head?.any Char.isDigit = true := by
    have hspells := h.spells
    rw [hkind] at hspells
    exact hspells.1.head
  refine ⟨?_, ?_, ?_, ?_, ?_, ?_⟩
  · intro hhead
    exact (h.word_cases hhead).1
  · intro hkind
    exact (h.number_cases (hnumber hkind)).1
  · intro hkind hnone
    obtain ⟨-, ⟨-, hpoint⟩ | ⟨ds, fraction, htext, -, -⟩⟩ :=
      h.number_cases (hnumber hkind)
    · exact hpoint
    · rw [htext] at hnone
      exact absurd (by simp) hnone
  · intro c hc hmem
    have hwider : ∀ pair ∈ [("<", '='), ("<", '>'), (">", '='), ("=", '='),
        ("-", '-')], pair.1.toList ∈ signs.map Prod.fst
        ∧ pair.1.toList ++ [pair.2] ∈ wider := by decide
    obtain ⟨hsign, hmore⟩ := hwider _ hmem
    exact h.sign_cases hsign hc hmore
  · intro second gap more hpair hne hgap hrest hstops
    obtain ⟨-, halone⟩ := h.of_isWord (isWord_of_mem_pairs hpair).1
    apply halone gap second.toList more _ hrest
    exact joined_of_mem_pairs hpair hne
      (fun c hc => by simpa using hgap c hc) hstops
  · intro t' ht' hwords hstarts
    rw [← String.length_toList, ← String.length_toList]
    by_cases hkind : t'.kind = .eof
    · have hspells : Spells .eof t'.lexeme.toList t'.literal := hkind ▸ ht'
      have hnil : t'.lexeme.toList = [] := hspells.1
      rw [hnil]
      exact Nat.zero_le _
    · exact h.length_le (ht'.cut hkind) hwords hstarts

theorem unextended_endOfText (span : Span) :
    Unextended (endOfText span) [] := by
  refine ⟨?_, ?_, ?_, ?_, ?_, ?_⟩
  · intro hhead
    cases hhead
  · intro hkind
    cases hkind
  · intro hkind
    cases hkind
  · intro c hc
    cases hc
  · intro second gap more _ hne _ hrest
    exact absurd (List.append_eq_nil_iff.1 hrest.symm).1 hne
  · intro t' _ _ hstarts
    have hnil : t'.lexeme.toList = [] := List.prefix_nil.1 hstarts
    rw [← String.length_toList, hnil]
    exact Nat.zero_le _

/-- Where a text scans, each token has its offset, its lexeme stands there,
and the text behind the lexeme cannot make the token longer. -/
theorem scan_unextended {source : String} {ts : List Token}
    (h : scan source = .ok ts) :
    (offsets 0 (slices Span.start source.toList).1).length = ts.length ∧
    ∀ (i k : Nat) (t : Token),
      (offsets 0 (slices Span.start source.toList).1)[i]? = some k →
      ts[i]? = some t →
      ∃ rest, source.toList.drop k = t.lexeme.toList ++ rest
        ∧ Unextended t rest := by
  obtain ⟨-, hscan⟩ | ⟨-, hscan⟩ := scan_cases source
  swap
  · cases hscan.symm.trans h
  cases hscan.symm.trans h
  have hsource := flatMap_slices Span.start source.toList
  generalize hps : (slices Span.start source.toList).1 = ps at hsource
  refine ⟨?_, ?_⟩
  · rw [length_offsets, List.length_append]
    rfl
  · intro i k t hk ht
    obtain ⟨before, after, rfl, rfl, -, hafter⟩ := offsets_split hk ht
    have hdrop : source.toList.drop (0 + (before.flatMap Placed.text).length) =
        after.flatMap Placed.text := by
      rw [← hsource, List.flatMap_append, Nat.zero_add, List.drop_left]
    rw [hdrop]
    obtain ⟨p, more, rfl, htoken⟩ | ⟨rfl, rfl⟩ := hafter
    · have hcut := Placed.cut_token (slices_cut hps) htoken
      refine ⟨more.flatMap Placed.text, ?_, unextended_of_cut hcut⟩
      rw [(Placed.of_token? htoken).1, List.flatMap_cons]
    · exact ⟨[], rfl, unextended_endOfText _⟩

/-- Behind `KUNG` comes a word that only starts with `DILI`, and behind the
sign a number with a point. -/
theorem scan_unextended_almostPair :
    scan "KUNG\tDILIS<1.50" = .ok
      [⟨.kung, "KUNG", none, ⟨1, 0⟩⟩, ⟨.identifier, "DILIS", none, ⟨1, 5⟩⟩,
        ⟨.less, "<", none, ⟨1, 10⟩⟩,
        ⟨.number, "1.50", some (.number (Number.ofDecimal ['1'] ['5', '0'])),
          ⟨1, 11⟩⟩, endOfText ⟨1, 15⟩] ∧
    (offsets 0 (slices Span.start "KUNG\tDILIS<1.50".toList).1)[0]? = some 0 ∧
    ∃ rest, "KUNG\tDILIS<1.50".toList.drop 0 = "KUNG".toList ++ rest ∧
      Unextended ⟨.kung, "KUNG", none, ⟨1, 0⟩⟩ rest := by
  have hscan : scan "KUNG\tDILIS<1.50" = .ok
      [⟨.kung, "KUNG", none, ⟨1, 0⟩⟩, ⟨.identifier, "DILIS", none, ⟨1, 5⟩⟩,
        ⟨.less, "<", none, ⟨1, 10⟩⟩,
        ⟨.number, "1.50", some (.number (Number.ofDecimal ['1'] ['5', '0'])),
          ⟨1, 11⟩⟩, endOfText ⟨1, 15⟩] := by decide +kernel
  have hoffset :
      (offsets 0 (slices Span.start "KUNG\tDILIS<1.50".toList).1)[0]?
      = some 0 := by
    decide +kernel
  exact ⟨hscan, hoffset, (scan_unextended hscan).2 0 0 _ hoffset rfl⟩

end BisayaPlus.Token
