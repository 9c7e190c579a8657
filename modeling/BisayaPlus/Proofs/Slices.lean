/-
A text is cut into slices without loss.

The slices of a text, put together again, are the text: nothing is left
out, nothing is taken twice. Each of them plays exactly one role. It is a
blank, a comment, the text of a token or a malformed piece, and the role
can be told from its characters for the first two (`IsBlank`,
`IsComment`) and from what it gives to the answer for the others.

The induction over a text follows `slices`: a statement about every slice
is first proved of the slice that `Slice.next` cuts off (`Proofs/Lexicon.lean`)
and then carried along the text behind it.
-/
import BisayaPlus.Proofs.Lexicon
import BisayaPlus.Token.Scan
import Mathlib.Data.List.Basic

namespace BisayaPlus.Token

-- =============================================================== roles

/-- What a slice is for. -/
inductive Role where
  | blank
  | comment
  | token
  | malformed
deriving DecidableEq

/-- A single space, tab, carriage return or line feed. -/
def IsBlank (text : List Char) : Prop :=
  ∃ c ∈ blanks, text = [c]

/-- Two dashes and all that follows them on their line. -/
def IsComment (text rest : List Char) : Prop :=
  ∃ body, text = '-' :: '-' :: body ∧ '\n' ∉ body ∧ EndsLine rest

/-- The characters of a slice that gives nothing to the answer. -/
def skipped : List Char → Bool
  | [c] => c ∈ blanks
  | '-' :: '-' :: _ => true
  | _ => false

namespace Placed

/-- The role of a slice. -/
def role (p : Placed) : Role :=
  match p.piece with
  | .blank => .blank
  | .comment => .comment
  | .token _ _ => .token
  | .malformed _ => .malformed

/-- The slice, with `rest` behind it, does what the role asks: a token has
the slice for its lexeme, and token and error carry the place where the
slice starts. -/
def Plays (p : Placed) (rest : List Char) : Role → Prop
  | .blank => IsBlank p.text
  | .comment => IsComment p.text rest
  | .token =>
      ∃ t, p.token? = some t ∧ t.lexeme.toList = p.text ∧ t.span = p.span
  | .malformed => ∃ fault, p.error? = some ⟨fault, p.span⟩

end Placed

theorem IsBlank.skipped {text : List Char} (h : IsBlank text) :
    skipped text = true := by
  obtain ⟨c, hc, rfl⟩ := h
  exact decide_eq_true hc

theorem IsComment.skipped {text rest : List Char} (h : IsComment text rest) :
    skipped text = true := by
  obtain ⟨body, rfl, -, -⟩ := h
  rfl

theorem IsBlank.not_comment {text rest : List Char} (h : IsBlank text) :
    ¬ IsComment text rest := by
  obtain ⟨c, -, rfl⟩ := h
  rintro ⟨body, hbody, -, -⟩
  cases hbody

/-- The first character tells most slices from blanks and comments. -/
theorem skipped_of_head {c : Char} (hc : c ∉ blanks) (hdash : c ≠ '-')
    (cs : List Char) :
    skipped (c :: cs) = false := by
  cases cs with
  | nil => exact decide_eq_false hc
  | cons d cs => simp [skipped, hdash]

theorem skipped_of_wordChar {c : Char} (hc : Slice.isWordChar c = true)
    (cs : List Char) :
    skipped (c :: cs) = false := by
  apply skipped_of_head
  · intro hmem
    simp only [blanks, List.mem_cons, List.not_mem_nil, or_false] at hmem
    obtain rfl | rfl | rfl | rfl := hmem
    all_goals exact absurd hc (by decide)
  · rintro rfl
    exact absurd hc (by decide)

theorem IsWord.head {w : List Char} (h : IsWord w) :
    ∃ c cs, w = c :: cs ∧ Slice.isWordChar c = true := by
  obtain ⟨c, cs, rfl, hc, -⟩ := h
  refine ⟨c, cs, rfl, ?_⟩
  simp only [Slice.isWordStart, Slice.isWordChar, Char.isAlphanum,
    Bool.or_eq_true] at hc ⊢
  exact hc.imp_left .inl

theorem Digits.head {ds : List Char} (h : Digits ds) :
    ∃ c cs, ds = c :: cs ∧ Slice.isWordChar c = true := by
  cases ds with
  | nil => exact absurd rfl h.1
  | cons d ds =>
      refine ⟨d, ds, rfl, ?_⟩
      simp [Slice.isWordChar, Char.isAlphanum, h.2 d List.mem_cons_self]

/-- Every slice is a blank, a comment, or can be told from both. -/
theorem Cut.sorts {text rest : List Char} {piece : Piece}
    (h : Cut text rest piece) :
    (piece = .blank ∧ IsBlank text)
      ∨ (piece = .comment ∧ IsComment text rest) ∨
      (piece ≠ .blank ∧ piece ≠ .comment ∧ skipped text = false) := by
  cases h with
  | blank hc => exact .inl ⟨rfl, _, hc, rfl⟩
  | comment hbody hrest => exact .inr (.inl ⟨rfl, _, rfl, hbody, hrest⟩)
  | sign hsign hrest =>
      have hsigns : ∀ s ∈ signs, skipped s.1 = false := by decide
      exact .inr (.inr ⟨nofun, nofun, hsigns _ hsign⟩)
  | whole hds | decimal hds =>
      obtain ⟨c, cs, rfl, hc⟩ := hds.head
      exact .inr (.inr ⟨nofun, nofun, skipped_of_wordChar hc _⟩)
  | pair hw | word hw =>
      obtain ⟨c, cs, rfl, hc⟩ := hw.head
      exact .inr (.inr ⟨nofun, nofun, skipped_of_wordChar hc _⟩)
  | unexpected hc hsign =>
      refine .inr (.inr ⟨nofun, nofun, skipped_of_head ?_ ?_ []⟩)
      · intro hmem
        exact hc (List.mem_append_left _ hmem)
      · rintro rfl
        exact hsign .minus (by decide)
  | _ =>
      exact .inr (.inr ⟨nofun, nofun,
        skipped_of_head (by decide) (by decide) _⟩)

namespace Placed

/-- A slice plays its own role and no other. -/
theorem plays_iff {p : Placed} {rest : List Char} (h : Cut p.text rest p.piece)
    (role : Role) :
    p.Plays rest role ↔ role = p.role := by
  obtain ⟨hpiece, hblank⟩ | ⟨hpiece, hcomment⟩
    | ⟨hblank, hcomment, hskipped⟩ := h.sorts
  · cases role <;> simp [Plays, Placed.role, token?, error?, hpiece, hblank,
      hblank.not_comment]
  · have hnot : ¬ IsBlank p.text := fun hblank => hblank.not_comment hcomment
    cases role <;> simp [Plays, Placed.role, token?, error?, hpiece,
      hcomment, hnot]
  · have hnot : ¬ IsBlank p.text := fun hblank => by
      simp [hblank.skipped] at hskipped
    have hnot' : ¬ IsComment p.text rest := fun hcomment => by
      simp [hcomment.skipped] at hskipped
    cases hpiece : p.piece with
    | blank => exact absurd hpiece hblank
    | comment => exact absurd hpiece hcomment
    | token kind literal =>
        cases role <;> simp [Plays, Placed.role, token?, error?, hpiece,
          hnot, hnot']
    | malformed fault =>
        cases role <;> simp [Plays, Placed.role, token?, error?, hpiece,
          hnot, hnot']

/-- A slice that is no mistake gives a token unless it is skipped. -/
theorem token?_lexeme {p : Placed} {rest : List Char}
    (h : Cut p.text rest p.piece) (hsound : p.role ≠ .malformed) :
    p.token?.map (·.lexeme.toList) = if skipped p.text then none
      else some p.text := by
  obtain ⟨hpiece, hblank⟩ | ⟨hpiece, hcomment⟩
    | ⟨hblank, hcomment, hskipped⟩ := h.sorts
  · simp [token?, hpiece, hblank.skipped]
  · simp [token?, hpiece, hcomment.skipped]
  · cases hpiece : p.piece with
    | blank => exact absurd hpiece hblank
    | comment => exact absurd hpiece hcomment
    | token kind literal => simp [token?, hpiece, hskipped]
    | malformed fault => exact absurd (by simp [Placed.role, hpiece]) hsound

/-- Exactly the malformed slices give an error, each at its own place. -/
theorem error?_span (p : Placed) :
    p.error?.map (·.span) = if p.role = .malformed then some p.span
      else none := by
  cases hpiece : p.piece <;> simp [error?, Placed.role, hpiece]

theorem error?_eq_none_iff (p : Placed) :
    p.error? = none ↔ p.role ≠ .malformed := by
  cases hpiece : p.piece <;> simp [error?, Placed.role, hpiece]

/-- The first slice of a text is cut off by a rule. -/
theorem first_cut (span : Span) (c : Char) (cs : List Char) :
    Cut (first span c cs).text (cs.drop (Slice.next c cs).extra)
      (first span c cs).piece := by
  obtain ⟨more, rest, hcs, hlength, hcut⟩ := Slice.next_cuts c cs
  have htake : cs.take (Slice.next c cs).extra = more := by
    rw [← hlength, hcs, List.take_left]
  have hdrop : cs.drop (Slice.next c cs).extra = rest := by
    rw [← hlength, hcs, List.drop_left]
  show Cut (c :: cs.take (Slice.next c cs).extra) _ _
  rw [htake, hdrop]
  exact hcut

/-- The place the scanner holds behind slices in a row, the first of which
it met at `span`. -/
def held (span : Span) : List Placed → Span
  | [] => span
  | p :: ps => held p.stop ps

end Placed

-- =============================================================== slices

theorem slices_cons (span : Span) (c : Char) (cs : List Char) :
    slices span (c :: cs) =
      (Placed.first span c cs ::
          (slices (Placed.first span c cs).stop
            (cs.drop (Slice.next c cs).extra)).1,
        (slices (Placed.first span c cs).stop
          (cs.drop (Slice.next c cs).extra)).2) := by
  rw [slices]

/-- Induction along a text, slice by slice. -/
@[elab_as_elim]
theorem slices_induction {motive : Span → List Char → Prop} (span : Span)
    (cs : List Char) (nil : ∀ span, motive span [])
    (cons : ∀ span c cs,
      motive (Placed.first span c cs).stop (cs.drop (Slice.next c cs).extra) →
      motive span (c :: cs)) :
    motive span cs := by
  induction hn : cs.length using Nat.strongRecOn generalizing span cs with
  | ind n ih =>
      cases cs with
      | nil => exact nil span
      | cons c cs =>
          apply cons
          apply ih (cs.drop (Slice.next c cs).extra).length
          · simp only [← hn, List.length_drop, List.length_cons]
            omega
          · rfl

/-- The slices make up the text. -/
theorem flatMap_slices (span : Span) (cs : List Char) :
    (slices span cs).1.flatMap Placed.text = cs := by
  induction span, cs using slices_induction with
  | nil span => rw [slices]; rfl
  | cons span c cs ih =>
      rw [slices_cons, List.flatMap_cons, ih]
      show c :: (cs.take _ ++ cs.drop _) = c :: cs
      rw [List.take_append_drop]

/-- The scanner ends at the place it holds behind the last slice. -/
theorem slices_stop (span : Span) (cs : List Char) :
    (slices span cs).2 = Placed.held span (slices span cs).1 := by
  induction span, cs using slices_induction with
  | nil span => rw [slices]; rfl
  | cons span c cs ih =>
      rw [slices_cons]
      exact ih

/-- Each slice is the first one of the text that is left, met at the place
the scanner holds there. -/
theorem slices_split {span : Span} {cs : List Char}
    {before after : List Placed} {p : Placed}
    (h : (slices span cs).1 = before ++ p :: after) :
    ∃ c rest, (p :: after).flatMap Placed.text = c :: rest ∧
      p = Placed.first (Placed.held span before) c rest := by
  induction span, cs using slices_induction generalizing before with
  | nil span =>
      rw [slices] at h
      cases before <;> cases h
  | cons span c cs ih =>
      rw [slices_cons] at h
      cases before with
      | nil =>
          obtain ⟨rfl, rfl⟩ := List.cons.inj h
          refine ⟨c, cs, ?_, rfl⟩
          rw [← flatMap_slices span (c :: cs), slices_cons]
      | cons q before =>
          obtain ⟨rfl, htail⟩ := List.cons.inj h
          exact ih htail

/-- Each slice is cut off by a rule in front of the slices behind it. -/
theorem slices_cut {span : Span} {cs : List Char} {before after : List Placed}
    {p : Placed} (h : (slices span cs).1 = before ++ p :: after) :
    Cut p.text (after.flatMap Placed.text) p.piece := by
  obtain ⟨c, rest, htext, rfl⟩ := slices_split h
  have hrest : after.flatMap Placed.text
      = rest.drop (Slice.next c rest).extra := by
    rw [List.flatMap_cons] at htext
    exact List.append_cancel_left
      (htext.trans (congrArg (List.cons c)
        (List.take_append_drop _ rest).symm))
  rw [hrest]
  exact Placed.first_cut _ c rest

theorem exists_cut_of_mem {span : Span} {cs : List Char} {p : Placed}
    (h : p ∈ (slices span cs).1) : ∃ rest, Cut p.text rest p.piece := by
  obtain ⟨before, after, hsplit⟩ := List.append_of_mem h
  exact ⟨_, slices_cut hsplit⟩

-- ============================================================= answers

/-- A text scans to tokens if no slice is malformed. -/
theorem scan_cases (source : String) :
    ((∀ p ∈ (slices Span.start source.toList).1, p.role ≠ .malformed) ∧
      scan source
      = .ok ((slices Span.start source.toList).1.filterMap Placed.token?
        ++ [endOfText (Placed.held Span.start
          (slices Span.start source.toList).1)])) ∨
    ((slices Span.start source.toList).1.filterMap Placed.error? ≠ [] ∧
      scan source = .error ((slices Span.start source.toList).1.filterMap
        Placed.error?)) := by
  unfold scan
  simp only [slices_stop]
  split
  next hempty =>
    refine .inl ⟨?_, rfl⟩
    rw [List.isEmpty_iff, List.filterMap_eq_nil_iff] at hempty
    intro p hp
    exact p.error?_eq_none_iff.1 (hempty p hp)
  next hempty =>
    refine .inr ⟨?_, rfl⟩
    simpa using hempty

/-- The lexemes are the slices that are left when blanks and comments are
taken away. -/
theorem lexemes_filterMap {ps : List Placed}
    (hcut : ∀ p ∈ ps, ∃ rest, Cut p.text rest p.piece)
    (hsound : ∀ p ∈ ps, p.role ≠ .malformed) :
    (ps.filterMap Placed.token?).map (·.lexeme.toList) =
      (ps.map Placed.text).filter fun text => !skipped text := by
  rw [List.map_filterMap, ← List.filterMap_eq_filter, List.filterMap_map]
  apply List.filterMap_congr
  intro p hp
  obtain ⟨rest, hrest⟩ := hcut p hp
  rw [Placed.token?_lexeme hrest (hsound p hp)]
  cases hskipped : skipped p.text <;> simp [Option.guard, hskipped]

/-- The errors stand where the malformed slices start, in their order. -/
theorem spans_filterMap (ps : List Placed) :
    (ps.filterMap Placed.error?).map (·.span) =
      (ps.filter fun p => p.role = .malformed).map Placed.span := by
  rw [List.map_filterMap, ← List.filterMap_eq_filter, List.map_filterMap]
  apply List.filterMap_congr
  intro p _
  rw [Placed.error?_span]
  by_cases hrole : p.role = .malformed <;> simp [Option.guard, hrole]

/-- The slices of a text make it up. Each is the first slice of what is
left, met at the place held there, and plays its role and no other. If
none is malformed, the text scans to their tokens and an end, and the
lexemes are what is left of the slices without blanks and comments;
otherwise it scans to one error for each malformed slice, in order. -/
theorem scan_lossless (source : String) :
    let ps := (slices Span.start source.toList).1
    ps.flatMap Placed.text = source.toList ∧
    (∀ before p after, ps = before ++ p :: after →
      (∃ c rest, (p :: after).flatMap Placed.text = c :: rest ∧
        p = Placed.first (Placed.held Span.start before) c rest) ∧
      p.text ≠ [] ∧
      ∀ role, p.Plays (after.flatMap Placed.text) role ↔ role = p.role) ∧
    match scan source with
    | .ok ts =>
        (∀ p ∈ ps, p.role ≠ .malformed) ∧
        ts = ps.filterMap Placed.token?
          ++ [endOfText (Placed.held Span.start ps)] ∧
        ts.dropLast.map (·.lexeme.toList)
          = (ps.map Placed.text).filter fun text => !skipped text
    | .error es =>
        es ≠ [] ∧ es = ps.filterMap Placed.error? ∧
        es.map (·.span)
          = (ps.filter fun p => p.role = .malformed).map Placed.span := by
  intro ps
  refine ⟨flatMap_slices _ _, ?_, ?_⟩
  · intro before p after hsplit
    obtain ⟨c, rest, htext, hfirst⟩ := slices_split hsplit
    refine ⟨⟨c, rest, htext, hfirst⟩, ?_, Placed.plays_iff (slices_cut hsplit)⟩
    rw [hfirst]
    exact List.cons_ne_nil _ _
  · obtain ⟨hsound, hscan⟩ | ⟨herrors, hscan⟩ := scan_cases source
    · rw [hscan]
      refine ⟨hsound, rfl, ?_⟩
      rw [List.dropLast_concat]
      exact lexemes_filterMap (fun p hp => exists_cut_of_mem hp) hsound
    · rw [hscan]
      exact ⟨herrors, rfl, spans_filterMap ps⟩

end BisayaPlus.Token
