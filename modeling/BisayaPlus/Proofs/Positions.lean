/-
Where tokens stand in their text.

`Span.behind cs` is the true place behind the characters `cs`: one line
for each line feed, and one column for each character after the last of
them. The scanner does not count from the start; it moves its place slice
by slice. The two agree as long as every line feed is seen by a slice
that counts it.

One slice does not: between single quotes a line feed may stand behind a
backslash, and it is passed over like any other character
(`quotedFeed`). The run lemma is therefore about lines and what is
missing from them: the line the scanner holds and the number of quoted
feeds behind it add up to the true line.
-/
import BisayaPlus.Proofs.Slices
import Mathlib.Data.List.Induction

namespace BisayaPlus

-- ============================================================== places

namespace Span

/-- The place behind a text that starts at the first line: its line feeds,
and the characters after the last one. -/
def behind (cs : List Char) : Span :=
  ⟨1 + cs.count '\n', (cs.reverse.takeWhile (· ≠ '\n')).length⟩

theorem past_append (s : Span) (cs ds : List Char) :
    s.past (cs ++ ds) = (s.past cs).past ds :=
  List.foldl_append

theorem start_past (cs : List Char) : start.past cs = behind cs := by
  induction cs using List.reverseRecOn with
  | nil => rfl
  | append_singleton cs c ih =>
      rw [past_append, ih]
      show (behind cs).step c = behind (cs ++ [c])
      by_cases hc : c = '\n'
      · subst hc
        simp [step, behind, Nat.add_assoc]
      · simp [step, behind, right, hc]

theorem line_past (s : Span) (cs : List Char) :
    (s.past cs).line = s.line + cs.count '\n' := by
  induction cs generalizing s with
  | nil => rfl
  | cons c cs ih =>
      show ((s.step c).past cs).line = _
      rw [ih]
      by_cases hc : c = '\n'
      · subst hc
        simp [step, Nat.add_assoc, Nat.add_comm 1]
      · simp [step, right, hc]

/-- On one line only the column moves. -/
theorem past_of_not_mem {cs : List Char} (s : Span) (h : '\n' ∉ cs) :
    s.past cs = s.right cs.length := by
  induction cs generalizing s with
  | nil => rfl
  | cons c cs ih =>
      rw [List.mem_cons, not_or] at h
      obtain ⟨hc, hcs⟩ := h
      show (s.step c).past cs = _
      rw [ih _ hcs]
      simp only [step, if_neg (Ne.symm hc), right, List.length_cons,
        Span.mk.injEq, true_and]
      omega

end Span

namespace Token

-- ========================================================== quoted feeds

/-- A line feed, escaped between single quotes. -/
def quotedFeed : List Char := ['\'', '\\', '\n', '\'']

/-- No other well-formed slice that a single quote opens has a line feed
in it. -/
theorem Cut.eq_quotedFeed {text rest : List Char} {piece : Piece}
    (h : Cut text rest piece) (hsound : ∀ fault, piece ≠ .malformed fault)
    (hhead : text.head? = some '\'') (hfeed : '\n' ∈ text) :
    text = quotedFeed := by
  have hword : ∀ c : Char, Slice.isWordChar c = true → c ≠ '\'' := by
    rintro c hc rfl
    exact absurd hc (by decide)
  cases h with
  | blank hc =>
      obtain rfl := Option.some.inj hhead
      exact absurd hc (by decide)
  | sign hsign =>
      have hsigns : ∀ s ∈ signs, s.1.head? ≠ some '\'' := by decide
      exact absurd hhead (hsigns _ hsign)
  | whole hds | decimal hds =>
      obtain ⟨c, cs, rfl, hc⟩ := hds.head
      exact absurd (Option.some.inj hhead) (hword c hc)
  | pair hw | word hw =>
      obtain ⟨c, cs, rfl, hc⟩ := hw.head
      exact absurd (Option.some.inj hhead) (hword c hc)
  | character hc =>
      simp only [List.mem_cons, List.not_mem_nil, or_false, not_or] at hc hfeed
      obtain hfeed | hfeed | hfeed := hfeed
      · exact absurd hfeed (by decide)
      · exact absurd hfeed.symm hc.2.2
      · exact absurd hfeed (by decide)
  | escaped =>
      simp only [List.mem_cons, List.not_mem_nil, or_false] at hfeed
      obtain hfeed | hfeed | rfl | hfeed := hfeed
      · exact absurd hfeed (by decide)
      · exact absurd hfeed (by decide)
      · rfl
      · exact absurd hfeed (by decide)
  | comment | yes | no | text | escapeCode => cases hhead
  | openText | openCharacter | emptyCharacter | badCharacter | openEscape
    | badEscape
  | unexpected => exact absurd rfl (hsound _)

namespace Placed

theorem piece_ne_malformed {p : Placed} (h : p.role ≠ .malformed)
    (fault : Fault) :
    p.piece ≠ .malformed fault := by
  intro hpiece
  exact h (by simp [role, hpiece])

theorem of_token? {p : Placed} {t : Token} (h : p.token? = some t) :
    t.lexeme.toList = p.text ∧ t.span = p.span := by
  unfold token? at h
  split at h
  next => cases h; exact ⟨String.toList_ofList, rfl⟩
  next => cases h

/-- Behind any slice but a quoted feed the scanner's place is the true one. -/
theorem stop_eq_past {p : Placed} {rest : List Char}
    (h : Cut p.text rest p.piece) (hsound : p.role ≠ .malformed)
    (hfeed : p.text ≠ quotedFeed) :
    p.stop = p.span.past p.text := by
  unfold stop
  split
  next hhead =>
    refine (Span.past_of_not_mem _ ?_).symm
    intro hmem
    exact hfeed (h.eq_quotedFeed (piece_ne_malformed hsound) hhead hmem)
  next => rfl

theorem line_stop {p : Placed} {rest : List Char} (h : Cut p.text rest p.piece)
    (hsound : p.role ≠ .malformed) :
    p.stop.line + [p.text].count quotedFeed
      = p.span.line + p.text.count '\n' := by
  by_cases hfeed : p.text = quotedFeed
  · have hstop : p.stop = p.span.right 4 := by
      unfold stop
      rw [hfeed]
      rfl
    rw [hstop, hfeed]
    rfl
  · have hcount : [p.text].count quotedFeed = 0 :=
      List.count_eq_zero.2 fun hmem => hfeed (List.mem_singleton.1 hmem).symm
    rw [stop_eq_past h hsound hfeed, Span.line_past, hcount, Nat.add_zero]

end Placed

-- ================================================================= runs

/-- Without quoted feeds the scanner holds the true place. -/
theorem held_eq_past {span : Span} {cs : List Char}
    {before after : List Placed} (h : (slices span cs).1 = before ++ after)
    (hsound : ∀ p ∈ before, p.role ≠ .malformed)
    (hfeed : quotedFeed ∉ before.map Placed.text) :
    Placed.held span before = span.past (before.flatMap Placed.text) := by
  induction span, cs using slices_induction generalizing before with
  | nil span =>
      rw [slices] at h
      obtain ⟨rfl, -⟩ := List.append_eq_nil_iff.1 h.symm
      rfl
  | cons span c cs ih =>
      cases before with
      | nil => rfl
      | cons p before =>
          rw [slices_cons] at h
          obtain ⟨rfl, htail⟩ := List.cons.inj h
          rw [List.map_cons, List.mem_cons, not_or] at hfeed
          obtain ⟨hhead, hfeed⟩ := hfeed
          have hstop := Placed.stop_eq_past (Placed.first_cut span c cs)
            (hsound _ List.mem_cons_self) (Ne.symm hhead)
          rw [List.flatMap_cons, Span.past_append]
          show Placed.held (Placed.first span c cs).stop before = _
          rw [ih htail (fun p hp => hsound p (List.mem_cons_of_mem _ hp))
            hfeed, hstop]
          rfl

/-- The line that is held and the quoted feeds behind it add up to the
true line. -/
theorem line_held {span : Span} {cs : List Char} {before after : List Placed}
    (h : (slices span cs).1 = before ++ after)
    (hsound : ∀ p ∈ before, p.role ≠ .malformed) :
    (Placed.held span before).line + (before.map Placed.text).count quotedFeed
      = span.line + (before.flatMap Placed.text).count '\n' := by
  induction span, cs using slices_induction generalizing before with
  | nil span =>
      rw [slices] at h
      obtain ⟨rfl, -⟩ := List.append_eq_nil_iff.1 h.symm
      rfl
  | cons span c cs ih =>
      cases before with
      | nil => rfl
      | cons p before =>
          rw [slices_cons] at h
          obtain ⟨rfl, htail⟩ := List.cons.inj h
          have hline := Placed.line_stop (Placed.first_cut span c cs)
            (hsound _ List.mem_cons_self)
          have hrun := ih htail fun p hp =>
            hsound p (List.mem_cons_of_mem _ hp)
          have hspan : (Placed.first span c cs).span = span := rfl
          have hcount : ((Placed.first span c cs).text
              :: before.map Placed.text).count quotedFeed
              = [(Placed.first span c cs).text].count quotedFeed
              + (before.map Placed.text).count quotedFeed := by
            rw [← List.count_append]
            rfl
          rw [hspan] at hline
          rw [List.map_cons, List.flatMap_cons, List.count_append, hcount]
          show (Placed.held (Placed.first span c cs).stop before).line + _ = _
          omega

/-- The scanner holds the true place exactly until the first quoted feed. -/
theorem held_eq_behind_iff {cs : List Char} {before after : List Placed}
    (h : (slices Span.start cs).1 = before ++ after)
    (hsound : ∀ p ∈ before, p.role ≠ .malformed) :
    Placed.held Span.start before = Span.behind (before.flatMap Placed.text) ↔
      quotedFeed ∉ before.map Placed.text := by
  constructor
  · intro heq
    have hline := line_held h hsound
    rw [heq] at hline
    simp only [Span.behind, Span.start] at hline
    exact List.count_eq_zero.1 (by omega)
  · intro hfeed
    rw [held_eq_past h hsound hfeed, Span.start_past]

/-- Quoted feeds can be counted among the lexemes. -/
theorem count_lexemes {ps : List Placed}
    (hcut : ∀ p ∈ ps, ∃ rest, Cut p.text rest p.piece)
    (hsound : ∀ p ∈ ps, p.role ≠ .malformed) :
    ((ps.filterMap Placed.token?).map (·.lexeme.toList)).count quotedFeed =
      (ps.map Placed.text).count quotedFeed := by
  rw [lexemes_filterMap hcut hsound, List.count_filter (by decide)]

-- ============================================================== offsets

/-- How many characters stand in front of each token slice, and in front
of the end, where `n` stand in front of the first slice. -/
def offsets (n : Nat) : List Placed → List Nat
  | [] => [n]
  | p :: ps =>
      if p.token?.isSome then n :: offsets (n + p.text.length) ps
      else offsets (n + p.text.length) ps

theorem length_offsets (n : Nat) (ps : List Placed) :
    (offsets n ps).length = (ps.filterMap Placed.token?).length + 1 := by
  induction ps generalizing n with
  | nil => rfl
  | cons p ps ih =>
      cases htoken : p.token? <;> simp [offsets, htoken, ih]

/-- The end stands behind all characters. -/
theorem getLast?_offsets (n : Nat) (ps : List Placed) :
    (offsets n ps).getLast? = some (n + (ps.flatMap Placed.text).length) := by
  induction ps generalizing n with
  | nil => rfl
  | cons p ps ih =>
      have hlast := ih (n + p.text.length)
      rw [List.flatMap_cons, List.length_append, ← Nat.add_assoc]
      unfold offsets
      split
      · rw [List.getLast?_cons, hlast]
        rfl
      · exact hlast

/-- The slices in front of a token are those of the tokens before it and
what is skipped between them. -/
theorem offsets_split {n i k : Nat} {ps : List Placed} {final t : Token}
    (hk : (offsets n ps)[i]? = some k)
    (ht : (ps.filterMap Placed.token? ++ [final])[i]? = some t) :
    ∃ before after, ps = before ++ after
      ∧ k = n + (before.flatMap Placed.text).length ∧
      (ps.filterMap Placed.token? ++ [final]).take i
        = before.filterMap Placed.token? ∧
      ((∃ p more, after = p :: more ∧ p.token? = some t)
        ∨ after = [] ∧ t = final) := by
  induction ps generalizing n i with
  | nil =>
      cases i with
      | zero =>
          cases hk
          cases ht
          exact ⟨[], [], rfl, rfl, rfl, .inr ⟨rfl, rfl⟩⟩
      | succ i => cases hk
  | cons p ps ih =>
      cases htoken : p.token? with
      | none =>
          simp only [offsets, htoken, List.filterMap_cons, Option.isSome_none,
            Bool.false_eq_true, if_false] at hk ht ⊢
          obtain ⟨before, after, rfl, rfl, htake, hafter⟩ := ih hk ht
          refine ⟨p :: before, after, rfl, ?_, ?_, hafter⟩
          · simp only [List.flatMap_cons, List.length_append]
            omega
          · simpa only [List.filterMap_cons, htoken] using htake
      | some u =>
          simp only [offsets, htoken, List.filterMap_cons, Option.isSome_some,
            if_true, List.cons_append] at hk ht ⊢
          cases i with
          | zero =>
              cases hk
              cases ht
              exact ⟨[], p :: ps, rfl, rfl, rfl, .inl ⟨p, ps, rfl, htoken⟩⟩
          | succ i =>
              obtain ⟨before, after, rfl, rfl, htake, hafter⟩ := ih hk ht
              refine ⟨p :: before, after, rfl, ?_, ?_, hafter⟩
              · simp only [List.flatMap_cons, List.length_append]
                omega
              · rw [List.take_succ_cons, htake, List.filterMap_cons, htoken]

-- ========================================================= true places

/-- A text that scans has one offset for each token, the end token's being
the length of the text. The token's lexeme stands there, and its line with
the quoted feeds before it is the true one. Its place is true exactly if
there are none. -/
theorem scan_spans {source : String} {ts : List Token}
    (h : scan source = .ok ts) :
    (offsets 0 (slices Span.start source.toList).1).length = ts.length ∧
    (offsets 0 (slices Span.start source.toList).1).getLast?
      = some source.toList.length ∧
    ∀ (i k : Nat) (t : Token),
      (offsets 0 (slices Span.start source.toList).1)[i]? = some k →
      ts[i]? = some t →
      t.lexeme.toList <+: source.toList.drop k ∧
      t.span.line + ((ts.take i).map (·.lexeme.toList)).count quotedFeed =
        (Span.behind (source.toList.take k)).line ∧
      (t.span = Span.behind (source.toList.take k) ↔
        quotedFeed ∉ (ts.take i).map (·.lexeme.toList)) := by
  obtain ⟨hsound, hscan⟩ | ⟨-, hscan⟩ := scan_cases source
  swap
  · cases hscan.symm.trans h
  cases hscan.symm.trans h
  have hsource := flatMap_slices Span.start source.toList
  have hcut : ∀ p ∈ (slices Span.start source.toList).1, ∃ rest,
      Cut p.text rest p.piece :=
    fun p hp => exists_cut_of_mem hp
  generalize hps : (slices Span.start source.toList).1
    = ps at hsound hsource hcut
  refine ⟨?_, ?_, ?_⟩
  · rw [length_offsets, List.length_append]
    rfl
  · rw [getLast?_offsets, hsource, Nat.zero_add]
  · intro i k t hk ht
    obtain ⟨before, after, rfl, rfl, hbefore, hafter⟩ := offsets_split hk ht
    rw [List.flatMap_append] at hsource
    have hsound' : ∀ p ∈ before, p.role ≠ .malformed :=
      fun p hp => hsound p (List.mem_append_left _ hp)
    have hcount :=
      count_lexemes (fun p hp => hcut p (List.mem_append_left _ hp)) hsound'
    -- the token stands at the place held behind the slices in front of it
    have hplace : t.lexeme.toList <+: after.flatMap Placed.text ∧
        t.span = Placed.held Span.start before := by
      obtain ⟨p, more, rfl, htoken⟩ | ⟨rfl, rfl⟩ := hafter
      · obtain ⟨hlexeme, hspan⟩ := Placed.of_token? htoken
        obtain ⟨c, rest, -, hfirst⟩ := slices_split hps
        rw [hlexeme, hspan]
        refine ⟨List.prefix_append _ _, ?_⟩
        rw [hfirst]
        rfl
      · exact ⟨List.nil_prefix, by rw [List.append_nil]; rfl⟩
    have hfeed : quotedFeed ∉ (before.filterMap
        Placed.token?).map (·.lexeme.toList)
        ↔ quotedFeed ∉ before.map Placed.text := by
      rw [← List.count_eq_zero, hcount, List.count_eq_zero]
    rw [Nat.zero_add, ← hsource, List.drop_left, List.take_left, hbefore,
      hcount, hplace.2]
    refine ⟨hplace.1, ?_, (held_eq_behind_iff hps hsound').trans hfeed.symm⟩
    exact line_held hps hsound'

/-- A text over the end of a line, and a token on the line after that. -/
theorem scan_spans_twoLines :
    scan "\"a\nb\" +\n x" = .ok
      [⟨.string, "\"a\nb\"", some (.text "a\nb"), ⟨1, 0⟩⟩,
        ⟨.plus, "+", none, ⟨2, 3⟩⟩,
        ⟨.identifier, "x", none, ⟨3, 1⟩⟩, endOfText ⟨3, 2⟩] ∧
    (offsets 0 (slices Span.start "\"a\nb\" +\n x".toList).1)[2]? = some 9 ∧
    (⟨3, 1⟩ : Span) = Span.behind ("\"a\nb\" +\n x".toList.take 9) := by
  have hscan : scan "\"a\nb\" +\n x" = .ok
      [⟨.string, "\"a\nb\"", some (.text "a\nb"), ⟨1, 0⟩⟩,
        ⟨.plus, "+", none, ⟨2, 3⟩⟩, ⟨.identifier, "x", none, ⟨3, 1⟩⟩,
        endOfText ⟨3, 2⟩] := by decide +kernel
  have hoffset : (offsets 0 (slices Span.start "\"a\nb\" +\n x".toList).1)[2]?
      = some 9 := by
    decide +kernel
  refine ⟨hscan, hoffset, ?_⟩
  exact ((scan_spans hscan).2.2 2 9 _ hoffset rfl).2.2.2 (by decide +kernel)

/-- A quoted feed moves all that follows it to the line before. -/
theorem scan_quotedFeed :
    (scan "'\\\n' x").toOption.map (·.map (·.span))
      = some [⟨1, 0⟩, ⟨1, 5⟩, ⟨1, 6⟩] ∧
    (offsets 0 (slices Span.start "'\\\n' x".toList).1).map
        (fun k => Span.behind ("'\\\n' x".toList.take k))
          = [⟨1, 0⟩, ⟨2, 2⟩, ⟨2, 3⟩] := by
  decide +kernel

end Token

end BisayaPlus
