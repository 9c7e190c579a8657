/-
A text is scanned line by line.

Behind a text that scans, a line feed starts afresh: no slice reaches
over it, because none of them ends only where the text does. A comment
stops at the line feed, a number and a word cannot have it, and the gap
inside a pair of words cannot either (`Cut.before_feed`). The slices of
such a text are therefore the same with a further line behind it, and
what comes after the line feed is scanned as a text of its own, further
down by the line that was reached (`slices_below`).
-/
import BisayaPlus.Proofs.Positions
import BisayaPlus.Proofs.Rules

namespace BisayaPlus

-- ============================================================ further down

/-- The place some lines further down. -/
def Span.below (n : Nat) (s : Span) : Span := ⟨s.line + n, s.column⟩

theorem Span.step_below (n : Nat) (s : Span) (c : Char) :
    (s.below n).step c = (s.step c).below n := by
  unfold step
  split
  · simp only [below, Span.mk.injEq, and_true]
    omega
  · rfl

theorem Span.past_below (n : Nat) (s : Span) (cs : List Char) :
    (s.below n).past cs = (s.past cs).below n := by
  induction cs generalizing s with
  | nil => rfl
  | cons c cs ih =>
      show ((s.below n).step c).past cs = _
      rw [step_below, ih]
      rfl

namespace Token

/-- The token some lines further down. -/
def below (n : Nat) (t : Token) : Token := { t with span := t.span.below n }

/-- The error some lines further down. -/
def Error.below (n : Nat) (e : Error) : Error :=
  { e with span := e.span.below n }

namespace Placed

/-- The slice some lines further down. -/
def below (n : Nat) (p : Placed) : Placed := { p with span := p.span.below n }

theorem stop_below (n : Nat) (p : Placed) :
    (p.below n).stop = p.stop.below n := by
  unfold stop
  show (if p.text.head? = some '\'' then (p.span.below n).right p.text.length
    else (p.span.below n).past p.text) = _
  split
  · rfl
  · exact p.span.past_below n p.text

theorem token?_below (n : Nat) (p : Placed) :
    (p.below n).token? = p.token?.map (Token.below n) := by
  cases hpiece : p.piece <;> simp [token?, below, hpiece, Token.below]

theorem error?_below (n : Nat) (p : Placed) :
    (p.below n).error? = p.error?.map (Error.below n) := by
  cases hpiece : p.piece <;> simp [error?, below, hpiece, Error.below]

end Placed

/-- The place where a text starts moves its slices and changes nothing
else. -/
theorem slices_below (n : Nat) (span : Span) (cs : List Char) :
    slices (span.below n) cs =
      ((slices span cs).1.map (Placed.below n),
        (slices span cs).2.below n) := by
  induction span, cs using slices_induction with
  | nil span =>
      rw [slices, slices]
      rfl
  | cons span c cs ih =>
      have hfirst : Placed.first (span.below n) c cs
          = (Placed.first span c cs).below n := rfl
      rw [slices_cons, slices_cons, hfirst, Placed.stop_below, ih]
      rfl

-- ========================================================= before a feed

theorem Stops.append_cons {p : Char → Bool} {rest : List Char} {d : Char}
    (h : Stops p rest) (hd : p d = false) (ds : List Char) :
    Stops p (rest ++ d :: ds) := by
  intro c hc
  cases rest with
  | nil =>
      cases hc
      exact hd
  | cons e rest => exact h c hc

theorem Stops.of_append {p : Char → Bool} {rest ds : List Char}
    (h : Stops p (rest ++ ds)) :
    Stops p rest := by
  intro c hc
  apply h c
  rw [List.head?_append, hc]
  rfl

/-- No word of a pair, and no gap between them, holds a line feed. -/
theorem Joined.feed_not_mem {first gap second rest : List Char} {kind : Kind}
    (h : Joined first gap second rest kind) : '\n' ∉ gap ++ second := by
  rw [List.mem_append, not_or]
  constructor
  · intro hmem
    exact absurd (h.gap_blank _ hmem) (by decide)
  · intro hmem
    exact absurd (h.second_word _ hmem) (by decide)

/-- A pair that a line feed follows somewhere is a pair without it. -/
theorem Joined.before_feed {first gap second more rest ds : List Char}
    {kind : Kind} (h : Joined first gap second more kind)
    (heq : rest ++ '\n' :: ds = gap ++ (second ++ more)) :
    ∃ more', rest = gap ++ (second ++ more')
      ∧ Joined first gap second more' kind := by
  rw [← List.append_assoc] at heq
  obtain ⟨extra, hpair, hmore⟩ | ⟨more', rfl, hmore⟩ :=
    List.append_eq_append_iff.1 heq
  · -- the pair would reach over the feed
    cases extra with
    | nil =>
        exact ⟨[], by simpa using hpair.symm,
          { h with ends := by simp [Stops] }⟩
    | cons d extra =>
        obtain ⟨rfl, -⟩ := List.cons.inj hmore
        refine absurd ?_ h.feed_not_mem
        rw [hpair]
        simp
  · refine ⟨more', by rw [List.append_assoc], { h with ends := ?_ }⟩
    have hends := h.ends
    rw [hmore] at hends
    exact hends.of_append

/-- A slice that is no mistake is the same with a further line behind. -/
theorem Cut.before_feed {text rest : List Char} {piece : Piece}
    (h : Cut text rest piece) (hsound : ∀ fault, piece ≠ .malformed fault)
    (ds : List Char) :
    Cut text (rest ++ '\n' :: ds) piece := by
  cases h with
  | blank hc => exact .blank hc
  | comment hbody hrest => exact .comment hbody (hrest.append_cons rfl ds)
  | sign hsign hrest =>
      refine .sign hsign ?_
      intro c hc
      cases rest with
      | nil =>
          cases hc
          have hwider : ∀ s ∈ signs, s.1 ++ ['\n'] ∉ wider := by decide
          exact hwider _ hsign
      | cons d rest => exact hrest c hc
  | yes => exact .yes
  | no => exact .no
  | text hbody hyes hno => exact .text hbody hyes hno
  | character hc => exact .character hc
  | escaped => exact .escaped
  | escapeCode hc => exact .escapeCode hc
  | whole hds hrest hpoint =>
      refine .whole hds (hrest.append_cons rfl ds) ?_
      intro more hmore
      cases rest with
      | nil => cases hmore
      | cons d rest =>
          obtain ⟨rfl, rfl⟩ := List.cons.inj hmore
          exact (hpoint rest rfl).append_cons rfl ds
  | decimal hds hfraction hrest =>
      exact .decimal hds hfraction (hrest.append_cons rfl ds)
  | pair hfirst hjoined =>
      exact .pair hfirst { hjoined with
        ends := hjoined.ends.append_cons rfl ds }
  | word hw hrest halone =>
      refine .word hw (hrest.append_cons rfl ds) ?_
      intro gap second more kind heq hjoined
      obtain ⟨more', hrest', hjoined'⟩ := hjoined.before_feed heq
      exact halone gap second more' kind hrest' hjoined'
  | openText | openCharacter | emptyCharacter | badCharacter | openEscape
    | badEscape
  | unexpected => exact absurd rfl (hsound _)

/-- The line feed behind a text, placed. -/
def feed (span : Span) : Placed := ⟨span, ['\n'], .blank⟩

/-- A further line leaves the slices of a text without mistake as they
are, and is scanned from the start of its own line. -/
theorem slices_append_feed {span : Span} {cs : List Char}
    (hsound : ∀ p ∈ (slices span cs).1, p.role ≠ .malformed) (ds : List Char) :
    slices span (cs ++ '\n' :: ds) =
      ((slices span cs).1 ++ feed (slices span cs).2 ::
          (slices (Span.start.below (slices span cs).2.line) ds).1,
        (slices (Span.start.below (slices span cs).2.line) ds).2) := by
  induction span, cs using slices_induction with
  | nil span =>
      have hfeed : Cut ['\n'] ds .blank := .blank (by decide)
      have hstop : (feed span).stop = Span.start.below span.line := by
        rw [Span.below, Nat.add_comm]
        rfl
      rw [slices, ← hstop]
      exact hfeed.slices_append (by simp) span
  | cons span c cs ih =>
      rw [slices_cons] at hsound
      obtain ⟨hfirst, hrest⟩ := List.forall_mem_cons.1 hsound
      have hpiece := Placed.piece_ne_malformed hfirst
      have hcut := (Placed.first_cut span c cs).before_feed hpiece ds
      have htext : c :: cs ++ '\n' :: ds =
          (Placed.first span c cs).text
          ++ (cs.drop (Slice.next c cs).extra ++ '\n' :: ds) := by
        rw [← List.append_assoc]
        show c :: cs ++ _ = c :: (cs.take _ ++ cs.drop _) ++ _
        rw [List.take_append_drop]
      rw [htext, hcut.slices_append hpiece span, slices_cons]
      have hplaced :
          Placed.mk span (Placed.first span c cs).text (Placed.first span c
            cs).piece = Placed.first span c cs := rfl
      rw [hplaced, ih hrest]
      rfl

-- =============================================================== texts

/-- What the slices of a text come to. -/
def answer (ps : List Placed) (stop : Span) :
    Except (List Error) (List Token) :=
  if (ps.filterMap Placed.error?).isEmpty then
    .ok (ps.filterMap Placed.token? ++ [endOfText stop])
  else .error (ps.filterMap Placed.error?)

theorem scan_eq_answer (source : String) :
    scan source =
      answer (slices Span.start source.toList).1
        (slices Span.start source.toList).2 := rfl

/-- The answer some lines further down, behind the tokens of a text that
scans. -/
theorem answer_append_below {ps : List Placed}
    (hsound : ∀ p ∈ ps, p.role ≠ .malformed) (n : Nat) (qs : List Placed)
    (stop : Span) :
    answer (ps ++ qs.map (Placed.below n)) (stop.below n) =
      match answer qs stop with
      | .ok us => .ok (ps.filterMap Placed.token? ++ us.map (below n))
      | .error es => .error (es.map (Error.below n)) := by
  have hnone : ps.filterMap Placed.error? = [] := by
    rw [List.filterMap_eq_nil_iff]
    intro p hp
    exact p.error?_eq_none_iff.2 (hsound p hp)
  have herrors : (ps ++ qs.map (Placed.below n)).filterMap Placed.error? =
      (qs.filterMap Placed.error?).map (Error.below n) := by
    rw [List.filterMap_append, hnone, List.nil_append, List.filterMap_map,
      List.map_filterMap]
    exact List.filterMap_congr fun q _ => q.error?_below n
  have htokens : (ps ++ qs.map (Placed.below n)).filterMap Placed.token? =
      ps.filterMap Placed.token?
        ++ (qs.filterMap Placed.token?).map (below n) := by
    rw [List.filterMap_append, List.filterMap_map, List.map_filterMap]
    exact congrArg _ (List.filterMap_congr fun q _ => q.token?_below n)
  unfold answer
  rw [herrors, htokens, List.isEmpty_map]
  split
  next => simp [endOfText, below]
  next => rfl

/-- A text that scans can be followed by any further lines: they scan, or
fail to, as they do alone, and stand further down by the line of the first
text's end. -/
theorem scan_append_lines {first : String} {ts : List Token}
    (h : scan first = .ok ts) (second : String) :
    ∃ eof, ts.getLast? = some eof ∧ eof.kind = .eof ∧
      scan (first ++ "\n" ++ second) =
        match scan second with
        | .ok us => .ok (ts.dropLast ++ us.map (below eof.span.line))
        | .error es => .error (es.map (Error.below eof.span.line)) := by
  obtain ⟨hsound, hscan⟩ | ⟨-, hscan⟩ := scan_cases first
  swap
  · cases hscan.symm.trans h
  cases hscan.symm.trans h
  rw [← slices_stop]
  refine ⟨_, List.getLast?_concat, rfl, ?_⟩
  have htext : (first ++ "\n" ++ second).toList
      = first.toList ++ '\n' :: second.toList := by
    simp
  rw [List.dropLast_concat, scan_eq_answer second, scan_eq_answer, htext,
    slices_append_feed hsound]
  generalize (slices Span.start first.toList).1 = ps at hsound
  generalize (slices Span.start first.toList).2 = stop
  -- the feed gives nothing to the answer
  have hfeed : ∀ p ∈ ps ++ [feed stop], p.role ≠ .malformed := by
    intro p hp
    obtain hp | hp := List.mem_append.1 hp
    · exact hsound p hp
    · rw [List.mem_singleton.1 hp]
      simp [feed, Placed.role]
  have hbelow :=
    answer_append_below hfeed stop.line (slices Span.start second.toList).1
      (slices Span.start second.toList).2
  have htokens : (ps ++ [feed stop]).filterMap Placed.token?
      = ps.filterMap Placed.token? := by
    rw [List.filterMap_append]
    exact List.append_nil _
  rw [htokens, List.append_assoc] at hbelow
  rw [slices_below]
  exact hbelow

/-- Words on two lines are no pair, and a mistake on the second line
stands there. -/
theorem scan_append_lines_twoWords :
    scan "KUNG " = .ok [⟨.kung, "KUNG", none, ⟨1, 0⟩⟩, endOfText ⟨1, 5⟩] ∧
      scan ("KUNG " ++ "\n" ++ "WALA ?")
        = .error [⟨.unexpected '?', ⟨2, 5⟩⟩] := by
  have hfirst : scan "KUNG " = .ok [⟨.kung, "KUNG", none, ⟨1, 0⟩⟩,
      endOfText ⟨1, 5⟩] := by
    decide +kernel
  have hsecond : scan "WALA ?" = .error [⟨.unexpected '?', ⟨1, 5⟩⟩] := by
    decide +kernel
  obtain ⟨eof, heof, -, hscan⟩ := scan_append_lines hfirst "WALA ?"
  cases heof
  rw [hsecond] at hscan
  exact ⟨hfirst, hscan⟩

end Token

end BisayaPlus
