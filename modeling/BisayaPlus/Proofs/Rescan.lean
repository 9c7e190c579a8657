/-
Scanning the lexemes of a text again.

The lexemes of a text that scans, joined by single spaces, are a text
too. Every lexeme but a word is read again in front of a space, and so is
every word that opens no pair. `KUNG` and `ALANG` are read again unless
the next lexeme is the second word of a pair: then the two, which stood on
different lines of the text or had more than spaces between them, have
become one keyword.

`fused` says what the joined text scans to: the same contents, with each
such pair of neighbours made one. The statement about all texts is then
about `fused` alone, and about how many pairs there are.
-/
import BisayaPlus.Proofs.Positions
import BisayaPlus.Proofs.Rules
import Mathlib.Data.List.Chain

namespace BisayaPlus.Token

-- =============================================================== pairs

/-- The pairs of words that are one keyword when spaces stand between
them. -/
def pairs : List (String × String) :=
  [("KUNG", "DILI"), ("KUNG", "WALA"), ("ALANG", "SA")]

/-- Keywords of two words are pairs. -/
theorem mem_pairs_of_keyword? {first second : String} {kind : Kind}
    (hopens : startsPair first = true)
    (h : keyword? (first ++ " " ++ second) = some kind) :
    (first, second) ∈ pairs := by
  simp only [startsPair, Bool.or_eq_true, beq_iff_eq] at hopens
  unfold keyword? at h
  split at h
  case h_19 => cases h
  all_goals
    rename_i heq
    have hlist := congrArg String.toList heq
    obtain rfl | rfl := hopens
    all_goals simp at hlist
  -- three keywords are left, and the second word of each is known
  all_goals
    rw [← @String.ofList_toList second, hlist]
    decide

/-- Words that are joined are a pair. -/
theorem Joined.mem_pairs {first gap second rest : List Char} {kind : Kind}
    (h : Joined first gap second rest kind) :
    (String.ofList first, String.ofList second) ∈ pairs :=
  mem_pairs_of_keyword? h.opens h.known

/-- Both parts of a pair are words. -/
theorem isWord_of_mem_pairs {a b : String} (h : (a, b) ∈ pairs) :
    IsWord a.toList ∧ IsWord b.toList := by
  simp only [pairs, List.mem_cons, List.not_mem_nil, or_false,
    Prod.mk.injEq] at h
  obtain ⟨rfl, rfl⟩ | ⟨rfl, rfl⟩ | ⟨rfl, rfl⟩ := h
  all_goals
    exact ⟨⟨_, _, rfl, rfl, List.all_eq_true.1 rfl⟩,
      ⟨_, _, rfl, rfl, List.all_eq_true.1 rfl⟩⟩

/-- The words of a pair are joined over any gap of blanks. -/
theorem joined_of_mem_pairs {a b : String} (h : (a, b) ∈ pairs)
    {gap rest : List Char} (hne : gap ≠ [])
    (hgap : ∀ c ∈ gap, (c == ' ' || c == '\t') = true)
    (hrest : Stops Slice.isWordChar rest) :
    Joined a.toList gap b.toList rest
      ((keyword? (a ++ " " ++ b)).getD .identifier) := by
  simp only [pairs, List.mem_cons, List.not_mem_nil, or_false,
    Prod.mk.injEq] at h
  obtain ⟨rfl, rfl⟩ | ⟨rfl, rfl⟩ | ⟨rfl, rfl⟩ := h
  all_goals
    exact ⟨by decide, hne, hgap, by decide, List.all_eq_true.1 rfl, hrest,
      by decide⟩

-- ========================================================= before spaces

/-- A text that has ended or starts with a space. -/
def Apart (rest : List Char) : Prop :=
  Stops (· ≠ ' ') rest

/-- What stands apart goes on with no class that has no space in it. -/
theorem Apart.stops {rest : List Char} (h : Apart rest) {p : Char → Bool}
    (hp : p ' ' = false) :
    Stops p rest := by
  intro c hc
  obtain rfl : c = ' ' := by simpa using h c hc
  exact hp

theorem apart_nil : Apart [] := nofun

theorem apart_space (rest : List Char) : Apart (' ' :: rest) := by
  intro c hc
  cases hc
  rfl

/-- A token is the same where a space follows or nothing, unless it is the
first word of a pair there. -/
theorem Cut.apart {text rest behind : List Char} {kind : Kind}
    {literal : Option Value} (h : Cut text rest (.token kind literal))
    (hbehind : Apart behind)
    (halone : ∀ gap second more kind, behind = gap ++ (second ++ more) →
      ¬ Joined text gap second more kind) :
    Cut text behind (.token kind literal) := by
  cases h with
  | sign hsign =>
      refine .sign hsign ?_
      intro c hc
      obtain rfl : c = ' ' := by simpa using hbehind c hc
      have hwider : ∀ s ∈ signs, s.1 ++ [' '] ∉ wider := by decide
      exact hwider _ hsign
  | yes => exact .yes
  | no => exact .no
  | text hbody hyes hno => exact .text hbody hyes hno
  | character hc => exact .character hc
  | escaped => exact .escaped
  | escapeCode hc => exact .escapeCode hc
  | whole hds =>
      refine .whole hds (hbehind.stops rfl) ?_
      rintro more rfl
      exact absurd (hbehind '.' rfl) (by decide)
  | decimal hds hfraction => exact .decimal hds hfraction (hbehind.stops rfl)
  | pair hfirst hjoined =>
      exact .pair hfirst { hjoined with ends := hbehind.stops rfl }
  | word hw => exact .word hw (hbehind.stops rfl) halone

/-- A token does not start with a blank. -/
theorem Cut.head_token {text rest : List Char} {kind : Kind}
    {literal : Option Value} (h : Cut text rest (.token kind literal)) :
    ∃ c more, text = c :: more ∧ (c == ' ' || c == '\t') = false := by
  obtain ⟨c, more, rfl, hnext⟩ := h.next_eq nofun
  refine ⟨c, more, rfl, ?_⟩
  rw [Bool.eq_false_iff]
  intro hblank
  simp only [Bool.or_eq_true, beq_iff_eq] at hblank
  obtain rfl | rfl := hblank
  · cases hnext
  · cases hnext

/-- A word is made of its characters. -/
theorem IsWord.chars {w : List Char} (h : IsWord w) :
    ∀ c ∈ w, Slice.isWordChar c = true := by
  obtain ⟨c, cs, hw, hc⟩ := h.head
  obtain ⟨d, ds, rfl, -, hds⟩ := h
  obtain ⟨rfl, rfl⟩ := List.cons.inj hw
  exact List.forall_mem_cons.2 ⟨hc, hds⟩

/-- The second word of a pair starts none. -/
theorem startsPair_second : ∀ p ∈ pairs, startsPair p.2 = false := by decide

/-- The second word of a pair starts with a letter that starts no other
sort of token. -/
theorem head_second {first second : List Char}
    (h : (String.ofList first, String.ofList second) ∈ pairs) :
    ∃ c more, second = c :: more ∧ c ∈ ['D', 'W', 'S'] := by
  simp only [pairs, List.mem_cons, List.not_mem_nil, or_false,
    Prod.mk.injEq] at h
  obtain ⟨-, h⟩ | ⟨-, h⟩ | ⟨-, h⟩ := h
  · exact ⟨_, _, String.ofList_injective h, by decide⟩
  · exact ⟨_, _, String.ofList_injective h, by decide⟩
  · exact ⟨_, _, String.ofList_injective h, by decide⟩

/-- Where a token is followed by a space or nothing, a second word of a
pair that starts there is the whole token. -/
theorem Cut.eq_second {text rest tail first second more : List Char}
    {kind : Kind} {literal : Option Value}
    (h : Cut text rest (.token kind literal)) (htail : Apart tail)
    (hpair : (String.ofList first, String.ofList second) ∈ pairs)
    (hsecond : ∀ c ∈ second, Slice.isWordChar c = true)
    (hmore : Stops Slice.isWordChar more)
    (heq : text ++ tail = second ++ more) : text = second := by
  obtain ⟨c, cs, hcs, hc⟩ := head_second hpair
  have hhead : ∀ d ds, text = d :: ds → d ∈ ['D', 'W', 'S'] := by
    rintro d ds rfl
    rw [hcs] at heq
    rw [(List.cons.inj heq).1]
    exact hc
  -- the run of word characters at the start is the second word
  have hrun : ∀ w behind, text ++ tail = w ++ behind →
      (∀ d ∈ w, Slice.isWordChar d = true) → Stops Slice.isWordChar behind →
      w = second := by
    intro w behind hw hchars hbehind
    rw [← takeWhile_run hchars hbehind, ← hw, heq, takeWhile_run hsecond hmore]
  cases h with
  | sign hsign =>
      have hne : ∀ s ∈ signs, s.1 ≠ [] := by decide
      have hsigns : ∀ s ∈ signs, s.1.head?.any ['D', 'W', 'S'].contains
          = false := by decide
      obtain ⟨d, ds, rfl⟩ := List.exists_cons_of_ne_nil (hne _ hsign)
      have hletter : ['D', 'W', 'S'].contains d = false := hsigns _ hsign
      rw [List.contains_iff_mem.2 (hhead d ds rfl)] at hletter
      cases hletter
  | yes | no | text | character | escaped | escapeCode =>
      exact absurd (hhead _ _ rfl) (by decide)
  | whole hds | decimal hds =>
      have hletter : ∀ d ∈ ['D', 'W', 'S'], ¬d.isDigit = true :=
        List.any_eq_false.1 rfl
      obtain ⟨hne, hdigits⟩ := hds
      obtain ⟨d, ds, rfl⟩ := List.exists_cons_of_ne_nil hne
      exact absurd (hdigits d List.mem_cons_self) (hletter d (hhead d _ rfl))
  | @pair word gap' second' _ _ hfirst hjoined =>
      -- the token is a pair itself, and no pair's second word opens one
      have hsplit : (word ++ (gap' ++ second')) ++ tail
          = word ++ (gap' ++ (second' ++ tail)) := by
        simp
      obtain rfl := hrun word _ hsplit hfirst.chars (hjoined.gap_stops _)
      exact absurd hjoined.opens (by rw [startsPair_second _ hpair]; decide)
  | word hw => exact hrun text tail rfl hw.chars (htail.stops rfl)

/-- The words that a space makes a pair are neighbours that are one. -/
theorem Joined.mem_pairs_of_space
    {first gap second more text rest tail : List Char} {k kind : Kind}
    {literal : Option Value} (h : Joined first gap second more k)
    (htext : Cut text rest (.token kind literal)) (htail : Apart tail)
    (heq : ' ' :: (text ++ tail) = gap ++ (second ++ more)) :
    (String.ofList first, String.ofList text) ∈ pairs := by
  obtain ⟨c, cs, hcs, hc⟩ := htext.head_token
  cases gap with
  | nil => exact absurd rfl h.gap_ne
  | cons d gap =>
      obtain ⟨rfl, hrest⟩ := List.cons.inj heq
      cases gap with
      | nil =>
          rw [htext.eq_second htail h.mem_pairs h.second_word h.ends hrest]
          exact h.mem_pairs
      | cons e gap =>
          -- a second blank of the gap would start the token
          rw [hcs] at hrest
          obtain ⟨rfl, -⟩ := List.cons.inj hrest
          have hblank :=
            h.gap_blank c (List.mem_cons_of_mem _ List.mem_cons_self)
          rw [hc] at hblank
          cases hblank

-- ============================================================== joining

/-- The contents with each pair of words made one keyword. -/
def fused : List Content → List Content
  | a :: b :: rest =>
      if (a.lexeme, b.lexeme) ∈ pairs then
        ⟨(keyword? (a.lexeme ++ " " ++ b.lexeme)).getD .identifier,
          a.lexeme ++ " " ++ b.lexeme, none⟩ :: fused rest
      else a :: fused (b :: rest)
  | contents => contents

/-- The content of a token that some text has. -/
def Lexical (x : Content) : Prop :=
  ∃ rest, Cut x.lexeme.toList rest (.token x.kind x.literal)

/-- The texts of the contents with single spaces between them. -/
def spaced (contents : List Content) : List Char :=
  [' '].intercalate (contents.map (·.lexeme.toList))

theorem spaced_singleton (a : Content) : spaced [a] = a.lexeme.toList := by
  simp [spaced]

theorem spaced_cons_cons (a b : Content)
    (rest : List Content) :
    spaced (a :: b :: rest)
      = a.lexeme.toList ++ ' ' :: spaced (b :: rest) := by
  simp [spaced, List.intercalate]

theorem toList_intercalate (contents : List Content) :
    (" ".intercalate (contents.map (·.lexeme))).toList = spaced contents := by
  rw [String.toList_intercalate, spaced, List.map_map]
  rfl

/-- A space in front adds no token. -/
theorem Spelled.space {cs : List Char} {contents : List Content}
    (h : Spelled cs contents) : Spelled (' ' :: cs) contents :=
  .skip (.blank (by decide)) (.inl rfl) h

/-- Behind a text there is a space, or what the last one has behind it. -/
theorem spaced_cons (a : Content)
    (rest : List Content) {tail : List Char} (htail : Apart tail) :
    ∃ behind, spaced (a :: rest) ++ tail = a.lexeme.toList ++ behind
      ∧ Apart behind ∧
      ∀ contents, Spelled (spaced rest ++ tail) contents →
        Spelled behind contents := by
  cases rest with
  | nil => exact ⟨tail, by rw [spaced_singleton], htail, fun _ h => h⟩
  | cons b rest =>
      refine ⟨' ' :: (spaced (b :: rest) ++ tail), ?_, apart_space _,
        fun _ h => h.space⟩
      rw [spaced_cons_cons, List.append_assoc]
      rfl

/-- Two words of a pair with a space between them spell its keyword. -/
theorem cut_of_mem_pairs {a b : String} (h : (a, b) ∈ pairs) {rest : List Char}
    (hrest : Apart rest) :
    Cut (a.toList ++ ([' '] ++ b.toList)) rest
      (.token ((keyword? (a ++ " " ++ b)).getD .identifier) none) :=
  .pair (isWord_of_mem_pairs h).1
    (joined_of_mem_pairs h (List.cons_ne_nil _ _) (List.all_eq_true.1 rfl)
      (hrest.stops rfl))

/-- A lexeme in front adds its token. -/
theorem Spelled.lexeme {text : String} {kind : Kind} {literal : Option Value}
    {rest : List Char} {contents : List Content}
    (h : Cut text.toList rest (.token kind literal))
    (hrest : Spelled rest contents) :
    Spelled (text.toList ++ rest) (⟨kind, text, literal⟩ :: contents) := by
  have htoken := Spelled.token h hrest
  rw [String.ofList_toList] at htoken
  exact htoken

/-- A token is read again in front of what follows it in the joined text,
if that makes no pair with it. -/
theorem Spelled.token_again {a : Content} (ha : Lexical a)
    {behind : List Char} (hbehind : Apart behind)
    (halone : ∀ gap second more kind, behind = gap ++ (second ++ more) →
      ¬ Joined a.lexeme.toList gap second more kind)
    {contents : List Content} (h : Spelled behind contents) :
    Spelled (a.lexeme.toList ++ behind) (a :: contents) := by
  obtain ⟨rest, ha⟩ := ha
  exact .lexeme (ha.apart hbehind halone) h

/-- The joined texts spell the contents with each pair made one. -/
theorem spelled_fused {contents : List Content}
    (h : ∀ x ∈ contents, Lexical x) {tail : List Char}
    (htail : tail = [] ∨ tail = [' ']) :
    Spelled (spaced contents ++ tail) (fused contents) := by
  have hapart : Apart tail := by
    obtain rfl | rfl := htail
    · exact apart_nil
    · exact apart_space []
  have hdone : Spelled tail [] := by
    obtain rfl | rfl := htail
    · exact .done
    · exact Spelled.done.space
  fun_induction fused contents with
  | case1 a b rest hpair ih =>
      have hrest := ih fun x hx =>
        h x (List.mem_cons_of_mem _ (List.mem_cons_of_mem _ hx))
      obtain ⟨behind, htext, hbehind, hspelled⟩ := spaced_cons b rest hapart
      have htoken :=
        Spelled.token (cut_of_mem_pairs hpair hbehind) (hspelled _ hrest)
      have heq : spaced (a :: b :: rest) ++ tail =
          (a.lexeme.toList ++ ([' '] ++ b.lexeme.toList)) ++ behind := by
        rw [spaced_cons_cons, List.append_assoc, List.cons_append, htext]
        simp
      have hlexeme :
          String.ofList (a.lexeme.toList ++ ([' '] ++ b.lexeme.toList))
          = a.lexeme ++ " " ++ b.lexeme := by
        apply String.toList_injective
        simp
      rw [hlexeme] at htoken
      rw [heq]
      exact htoken
  | case2 a b rest hpair ih =>
      have hrest := ih fun x hx => h x (List.mem_cons_of_mem _ hx)
      have ha := h a List.mem_cons_self
      obtain ⟨rest', hb⟩ := h b (List.mem_cons_of_mem _ List.mem_cons_self)
      obtain ⟨behind, htext, hbehind, -⟩ := spaced_cons b rest hapart
      rw [spaced_cons_cons, List.append_assoc, List.cons_append]
      refine .token_again ha (apart_space _) ?_ hrest.space
      intro gap second more kind heq hjoined
      rw [htext] at heq
      have hmem := hjoined.mem_pairs_of_space hb hbehind heq
      rw [String.ofList_toList, String.ofList_toList] at hmem
      exact hpair hmem
  | case3 contents hshort =>
      match contents, hshort with
      | [], _ => exact hdone
      | [a], _ =>
          rw [spaced_singleton]
          refine .token_again (h a List.mem_cons_self) hapart ?_ hdone
          -- there is no room for a second word
          intro gap second more kind heq hjoined
          have hlength := congrArg List.length heq
          have hgap := List.length_pos_iff.2 hjoined.gap_ne
          have hsecond := List.length_pos_iff.2 hjoined.second_ne
          simp only [List.length_append] at hlength
          obtain rfl | rfl := htail
          all_goals
            simp only [List.length_nil, List.length_singleton] at hlength
            omega
      | a :: b :: rest, hshort => exact absurd rfl (hshort a b rest)

-- ========================================================== fewer tokens

/-- No two neighbours are a pair. -/
def Unpaired (contents : List Content) : Prop :=
  contents.IsChain fun a b => (a.lexeme, b.lexeme) ∉ pairs

/-- Joining words makes no more tokens. -/
theorem length_fused_le (contents : List Content) :
    (fused contents).length ≤ contents.length := by
  fun_induction fused contents with
  | case1 a b rest hpair ih =>
      simp only [List.length_cons]
      omega
  | case2 a b rest hpair ih =>
      simp only [List.length_cons] at ih ⊢
      omega
  | case3 contents hshort => exact Nat.le_refl _

/-- Without pairs nothing is joined. -/
theorem fused_of_unpaired {contents : List Content} (h : Unpaired contents) :
    fused contents = contents := by
  fun_induction fused contents with
  | case1 a b rest hpair ih =>
      exact absurd hpair (List.isChain_cons_cons.1 h).1
  | case2 a b rest hpair ih => rw [ih (List.isChain_cons_cons.1 h).2]
  | case3 contents hshort => rfl

/-- With a pair, something is. -/
theorem length_fused_lt {contents : List Content} (h : ¬ Unpaired contents) :
    (fused contents).length < contents.length := by
  fun_induction fused contents with
  | case1 a b rest hpair ih =>
      have hle := length_fused_le rest
      simp only [List.length_cons]
      omega
  | case2 a b rest hpair ih =>
      have hrest := ih fun hrest => h (List.isChain_cons_cons.2 ⟨hpair, hrest⟩)
      simp only [List.length_cons] at hrest ⊢
      omega
  | case3 contents hshort =>
      refine absurd ?_ h
      match contents, hshort with
      | [], _ => exact .nil
      | [a], _ => exact .singleton a
      | a :: b :: rest, hshort => exact absurd rfl (hshort a b rest)

/-- Tokens stay as they are if no two of them make up a pair. -/
theorem fused_eq_self_iff {contents : List Content} :
    fused contents = contents ↔ Unpaired contents := by
  constructor
  · intro heq
    by_contra h
    have hlt := length_fused_lt h
    rw [heq] at hlt
    omega
  · exact fused_of_unpaired

/-- The end makes no pair with what stands before it. -/
theorem unpaired_concat {contents : List Content} {last : Content}
    (hlast : last.lexeme = "") :
    Unpaired (contents ++ [last]) ↔ Unpaired contents := by
  unfold Unpaired
  rw [List.isChain_append]
  constructor
  · exact And.left
  · intro h
    refine ⟨h, .singleton last, ?_⟩
    rintro a - b hb
    cases hb
    rw [hlast]
    simp [pairs]

-- ================================================================ gaps

/-- A word is cut off only where it ends, and where it opens no pair. -/
theorem Cut.of_isWord {w rest : List Char} {piece : Piece}
    (h : Cut w rest piece) (hw : IsWord w) :
    Stops Slice.isWordChar rest ∧ ∀ gap second more kind,
      rest = gap ++ (second ++ more) →
      ¬ Joined w gap second more kind := by
  have hchars := hw.chars
  obtain ⟨c, cs, htext, hc, -⟩ := hw
  cases h with
  | word _ hrest halone => exact ⟨hrest, halone⟩
  | blank hmem =>
      have hblanks : ∀ d ∈ blanks, ¬Slice.isWordStart d = true :=
        List.any_eq_false.1 rfl
      cases htext
      exact absurd hc (hblanks c hmem)
  | sign hsign =>
      have hsigns : ∀ s ∈ signs, s.1.head?.all Slice.isWordStart = false := by
        decide
      have hnone := hsigns _ hsign
      rw [htext] at hnone
      rw [show (c :: cs).head?.all Slice.isWordStart = Slice.isWordStart c
        from rfl, hc] at hnone
      cases hnone
  | whole hds | decimal hds =>
      obtain ⟨d, ds, rfl⟩ := List.exists_cons_of_ne_nil hds.1
      obtain ⟨rfl, -⟩ := List.cons.inj htext
      have hdigit := hds.2 d List.mem_cons_self
      rw [Slice.isDigit_of_isWordStart hc] at hdigit
      cases hdigit
  | pair _ hjoined =>
      -- the gap of a pair has a blank
      obtain ⟨d, gap, rfl⟩ := List.exists_cons_of_ne_nil hjoined.gap_ne
      have hblank := hjoined.gap_stops [] d rfl
      rw [hchars d (by simp)] at hblank
      cases hblank
  | unexpected _ _ _ hword =>
      cases htext
      rw [hword] at hc
      cases hc
  | comment | yes | no | text | openText | character | escaped | openCharacter
    | emptyCharacter
  | badCharacter | escapeCode | openEscape | badEscape =>
      cases htext
      exact absurd hc (by decide)

/-- A slice between tokens is a space, a tab, or more than that. -/
theorem Placed.gap_cases {g : Placed} {rest : List Char}
    (h : Cut g.text rest g.piece) (hsound : g.role ≠ .malformed)
    (hgap : g.token? = none) :
    (∃ c, g.text = [c] ∧ (c == ' ' || c == '\t') = true) ∨
      g.text = ['\n'] ∨ g.text = ['\r'] ∨ g.role = .comment := by
  obtain ⟨-, c, hc, htext⟩ | ⟨hpiece, -⟩ | ⟨hblank, hcomment, -⟩ := h.sorts
  · simp only [blanks, List.mem_cons, List.not_mem_nil, or_false] at hc
    obtain rfl | rfl | rfl | rfl := hc
    · exact .inl ⟨_, htext, rfl⟩
    · exact .inr (.inr (.inl htext))
    · exact .inl ⟨_, htext, rfl⟩
    · exact .inr (.inl htext)
  · exact .inr (.inr (.inr (by simp [role, hpiece])))
  · cases hpiece : g.piece with
    | blank => exact absurd hpiece hblank
    | comment => exact absurd hpiece hcomment
    | token kind literal => simp [token?, hpiece] at hgap
    | malformed fault => exact absurd hpiece (piece_ne_malformed hsound fault)

/-- The words of a pair that are tokens of their own have more than spaces
and tabs between them. -/
theorem exists_break {cs : List Char} {before gap after : List Placed}
    {p q : Placed} {a b : Token}
    (hps : (slices Span.start cs).1 = before ++ p :: (gap ++ q :: after))
    (hsound : ∀ g ∈ gap, g.role ≠ .malformed)
    (hgap : ∀ g ∈ gap, g.token? = none) (ha : p.token? = some a)
    (hb : q.token? = some b) (hpair : (a.lexeme, b.lexeme) ∈ pairs) :
    ∃ g ∈ gap, g.text = ['\n'] ∨ g.text = ['\r'] ∨ g.role = .comment := by
  by_contra hnone
  -- then the gap is made of spaces and tabs
  have hblank : ∀ c ∈ gap.flatMap Placed.text,
      (c == ' ' || c == '\t') = true := by
    intro c hc
    obtain ⟨g, hg, hc⟩ := List.mem_flatMap.1 hc
    have hmem : g ∈ (slices Span.start cs).1 := by simp [hps, hg]
    obtain ⟨rest, hcut⟩ := exists_cut_of_mem hmem
    obtain ⟨d, htext, hd⟩ | hbreak :=
      Placed.gap_cases hcut (hsound g hg) (hgap g hg)
    · rw [htext, List.mem_singleton] at hc
      rw [hc]
      exact hd
    · exact absurd ⟨g, hg, hbreak⟩ hnone
  have hfirst := slices_cut hps
  have hps' : (slices Span.start cs).1
      = (before ++ p :: gap) ++ q :: after := by
    rw [hps]
    simp
  have hsecond := slices_cut hps'
  obtain ⟨hword, hword'⟩ := isWord_of_mem_pairs hpair
  rw [(Placed.of_token? ha).1] at hword
  rw [(Placed.of_token? hb).1] at hword'
  rw [List.flatMap_append, List.flatMap_cons] at hfirst
  obtain ⟨hstops, halone⟩ := hfirst.of_isWord hword
  by_cases hne : gap.flatMap Placed.text = []
  · -- with no gap the second word goes on with the first
    obtain ⟨c, cs, hc, hchar⟩ := hword'.head
    rw [hne, hc] at hstops
    have hstop := hstops c rfl
    rw [hchar] at hstop
    cases hstop
  · have hjoined :=
      joined_of_mem_pairs hpair hne hblank (hsecond.of_isWord hword').1
    rw [(Placed.of_token? ha).1, (Placed.of_token? hb).1] at hjoined
    exact halone _ _ _ _ rfl hjoined

-- =============================================================== texts

/-- The token of a slice is cut off where the slice is. -/
theorem Placed.cut_token {p : Placed} {t : Token} {rest : List Char}
    (h : Cut p.text rest p.piece) (ht : p.token? = some t) :
    Cut t.lexeme.toList rest (.token t.kind t.literal) := by
  unfold Placed.token? at ht
  split at ht
  next kind literal hpiece =>
    cases ht
    rw [hpiece] at h
    rw [String.toList_ofList]
    exact h
  next => cases ht

/-- The contents of the tokens of a text are those of slices that the
rules cut off. -/
theorem lexical_of_mem {span : Span} {cs : List Char} {t : Token}
    (h : t ∈ (slices span cs).1.filterMap Placed.token?) :
    Lexical t.content := by
  obtain ⟨p, hp, ht⟩ := List.mem_filterMap.1 h
  obtain ⟨rest, hcut⟩ := exists_cut_of_mem hp
  exact ⟨rest, Placed.cut_token hcut ht⟩

/-- The lexemes of a text, joined by spaces, with the end token's or
without it. -/
theorem intercalate_lexemes (ts : List Token) (eof : Token)
    (heof : eof.lexeme = "") :
    ∀ lexemes ∈ [(ts ++ [eof]).map (·.lexeme), ts.map (·.lexeme)],
      ∃ tail, (tail = [] ∨ tail = [' ']) ∧
        " ".intercalate lexemes
          = String.ofList (spaced (ts.map content) ++ tail) := by
  have hjoined : (" ".intercalate (ts.map (·.lexeme))).toList
      = spaced (ts.map content) := by
    rw [← toList_intercalate, List.map_map]
    rfl
  intro lexemes hmem
  simp only [List.mem_cons, List.not_mem_nil, or_false] at hmem
  obtain rfl | rfl := hmem
  · by_cases hne : ts = []
    · subst hne
      exact ⟨[], .inl rfl, by simp [heof, spaced]⟩
    · refine ⟨[' '], .inr rfl, ?_⟩
      apply String.toList_injective
      rw [List.map_append,
        String.intercalate_append_of_ne_nil (by simpa using hne) (by simp)]
      simp [heof, hjoined]
  · refine ⟨[], .inl rfl, ?_⟩
    rw [List.append_nil, ← hjoined, String.ofList_toList]

/-- The lexemes of a text that scans, joined by spaces, scan again. They
give the same contents exactly if no two neighbours are a pair, and fewer
tokens otherwise; and such neighbours have a line feed, a carriage return
or a comment between them. -/
theorem scan_lexemes {source : String} {ts : List Token}
    (h : scan source = .ok ts) :
    (∀ lexemes ∈ [ts.map (·.lexeme), ts.dropLast.map (·.lexeme)],
      ∃ us, scan (" ".intercalate lexemes) = .ok us ∧
        (us.map content = ts.map content ↔ Unpaired (ts.map content)) ∧
        (¬ Unpaired (ts.map content) → us.length < ts.length)) ∧
    ∀ (before gap after : List Placed) (p q : Placed) (a b : Token),
      (slices Span.start source.toList).1 = before ++ p :: (gap ++ q
        :: after) →
      p.token? = some a → (∀ g ∈ gap, g.token? = none) → q.token? = some b →
      (a.lexeme, b.lexeme) ∈ pairs →
      ∃ g ∈ gap, g.text = ['\n'] ∨ g.text = ['\r'] ∨ g.role = .comment := by
  obtain ⟨hsound, hscan⟩ | ⟨-, hscan⟩ := scan_cases source
  swap
  · cases hscan.symm.trans h
  cases hscan.symm.trans h
  constructor
  · rw [List.dropLast_concat]
    have hlexical :
        ∀ x ∈ ((slices Span.start source.toList).1.filterMap
          Placed.token?).map content, Lexical x := by
      intro x hx
      obtain ⟨t, ht, rfl⟩ := List.mem_map.1 hx
      exact lexical_of_mem ht
    generalize (slices Span.start source.toList).1.filterMap Placed.token?
      = ts at hlexical
    generalize Placed.held Span.start (slices Span.start source.toList).1
      = stop
    intro lexemes hmem
    obtain ⟨tail, htail, hjoined⟩ :=
      intercalate_lexemes ts (endOfText stop) rfl lexemes hmem
    obtain ⟨us, span, hus, hcontents⟩ := (spelled_fused hlexical htail).scan
    have hunpaired :
        Unpaired ((ts ++ [endOfText stop]).map content)
          ↔ Unpaired (ts.map content) := by
      rw [List.map_append]
      exact unpaired_concat rfl
    refine ⟨us ++ [endOfText span], hjoined ▸ hus, ?_, ?_⟩
    · -- the two end tokens say the same
      rw [hunpaired, ← fused_eq_self_iff, ← hcontents, List.map_append,
        List.map_append]
      exact List.append_left_inj _
    · rw [hunpaired]
      intro hpaired
      have hlt := length_fused_lt hpaired
      rw [← hcontents, List.length_map, List.length_map] at hlt
      simp only [List.length_append, List.length_singleton]
      omega
  · intro before gap after p q a b hps ha hgap hb hpair
    refine exists_break hps ?_ hgap ha hb hpair
    intro g hg
    exact hsound g (by simp [hps, hg])

/-- Two words on two lines, which a space makes one keyword. -/
theorem scan_lexemes_twoLines :
    scan "KUNG\nDILI 'a'" = .ok
      [⟨.kung, "KUNG", none, ⟨1, 0⟩⟩, ⟨.dili, "DILI", none, ⟨2, 0⟩⟩,
        ⟨.character, "'a'", some (.char 'a'), ⟨2, 5⟩⟩, endOfText ⟨2, 8⟩] ∧
    ∃ us, scan "KUNG DILI 'a' " = .ok us ∧ us.length < 4 := by
  have hscan : scan "KUNG\nDILI 'a'" = .ok
      [⟨.kung, "KUNG", none, ⟨1, 0⟩⟩, ⟨.dili, "DILI", none, ⟨2, 0⟩⟩,
        ⟨.character, "'a'", some (.char 'a'), ⟨2, 5⟩⟩,
        endOfText ⟨2, 8⟩] := by decide +kernel
  refine ⟨hscan, ?_⟩
  obtain ⟨us, hus, -, hfewer⟩ := (scan_lexemes hscan).1 _ List.mem_cons_self
  refine ⟨us, hus, hfewer ?_⟩
  intro hunpaired
  exact (List.isChain_cons_cons.1 hunpaired).1 (by decide)

end BisayaPlus.Token
