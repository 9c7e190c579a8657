/-
Every run of the scanner with a cursor ends, with the answer of `scan`.

Between two calls the machine stands at the start of a slice (`Stands`):
the text ahead of it is what is left to scan, its line and column are the
place that `slices` holds there, and the line starts before the cursor. A
call leads from there to the next slice, so the run passes the slices of
the text, one call each, and the length of the text bounds the calls.
-/
import BisayaPlus.Proofs.ScannerSlices

namespace BisayaPlus

/-- A text takes the column no further than its length. -/
theorem Span.column_past_le (s : Span) (cs : List Char) :
    (s.past cs).column ≤ s.column + cs.length := by
  induction cs generalizing s with
  | nil => exact Nat.le_refl _
  | cons c cs ih =>
      have hstep : (s.step c).column ≤ s.column + 1 := by
        rw [step]
        split
        · exact Nat.zero_le _
        · exact Nat.le_refl _
      calc ((s.step c).past cs).column
        _ ≤ (s.step c).column + cs.length := ih _
        _ ≤ s.column + 1 + cs.length := Nat.add_le_add_right hstep _
        _ = s.column + (c :: cs).length := by rw [List.length_cons]; omega

namespace Token

/-- A slice takes the column no further than its length. -/
theorem Placed.column_stop_le (p : Placed) :
    p.stop.column ≤ p.span.column + p.text.length := by
  unfold Placed.stop
  split
  · exact Nat.le_refl _
  · exact Span.column_past_le _ _

namespace Scanner

open Row

variable {row cs rest : List Char} {i n : Nat} {p : Span} {s s' : Scanner}

-- ===================================================== between slices

theorem toList_append_filterMap {α β : Type} (f : α → Option β) (a : α)
    (l : List α) :
    (f a).toList ++ l.filterMap f = (a :: l).filterMap f := by
  cases h : f a <;> simp [h]

/-- The calls that pass slices in a row, the first of them at `i`. -/
def calls (i : Nat) : List Placed → List Call
  | [] => []
  | p :: ps =>
      ⟨i - p.span.column, i, i, i + p.text.length⟩
        :: calls (i + p.text.length) ps

/-- The place of the cursor is the one it was moved to, unless the line
would start before the row. -/
theorem place_moved (h : p.column ≤ i) : (s.moved i p).place = p := by
  simp only [place, moved, Nat.sub_sub_self h]

/-- The scanner stands between two slices: `cs` is ahead of it, `span` is its
place, and the line starts before the cursor. -/
structure Stands (row : List Char) (s : Scanner) (span : Span)
    (cs : List Char) : Prop where
  ahead : row.drop s.current = cs
  place_eq : s.place = span
  lineStart_le : s.lineStart ≤ s.current
  current_le : s.current ≤ row.length

/-- The scanner as `begin` leaves it. -/
def begun (s : Scanner) : Scanner :=
  { s with
    start := s.current, tokenLine := s.line,
    tokenColumn := s.current - s.lineStart }

/-- The scanner when it has passed a slice. -/
def after (s : Scanner) (p : Placed) : Scanner :=
  (s.begun.moved (s.current + p.text.length) p.stop).add p

theorem begin_runs (h : s.lineStart ≤ s.current) : Runs begin s () s.begun :=
  Runs.bind rfl ((minus_runs h).bind rfl)

theorem finish_runs (h : s.lineStart ≤ s.current) :
    Runs finish s () { s with tokens := s.tokens ++ [endOfText s.place] } :=
  Runs.bind rfl ((minus_runs h).bind rfl)

namespace Stands

variable {k : Nat} {slice : Placed} {span : Span}

/-- A machine that starts a piece is ready to read it. -/
theorem ready (h : Stands row s span cs) : Ready row s.begun :=
  ⟨rfl, rfl, h.lineStart_le, h.current_le⟩

/-- The machine is at its end where no slice is left. -/
theorem atEnd_runs (h : Stands row s span cs) :
    Runs (atEnd row) s cs.isEmpty s := by
  have hend := Scanner.atEnd_runs (s := s) (p := s.place) h.ahead
  rw [moved_self h.lineStart_le] at hend
  exact hend

/-- Behind a slice the scanner stands again. -/
theorem after (h : Stands row s slice.span (slice.text ++ rest)) :
    Stands row (s.after slice) slice.stop rest := by
  have hcolumn : slice.stop.column ≤ s.current + slice.text.length := by
    have hspan := congrArg Span.column h.place_eq
    simp only [place] at hspan
    have hstop := slice.column_stop_le
    omega
  have hlength := congrArg List.length h.ahead
  rw [List.length_drop, List.length_append] at hlength
  have hin := h.current_le
  refine ⟨drop_add h.ahead, place_moved (s := s.begun) hcolumn,
    Nat.sub_le _ _, ?_⟩
  show s.current + slice.text.length ≤ row.length
  omega

/-- A slice is passed by one call. -/
theorem scanTokens_cons {ps : List Placed}
    (h : Stands row s slice.span (slice.text ++ rest)) (hn : row.length < n)
    (hne : slice.text ≠ []) (hcut : Cut slice.text rest slice.piece)
    (hlater : Runs (scanTokens row n k) (s.after slice)
      (calls (s.after slice).current ps) s') :
    Runs (scanTokens row n (k + 1)) s (calls s.current (slice :: ps)) s' := by
  have hmore : (slice.text ++ rest).isEmpty = false := by
    rw [List.isEmpty_eq_false_iff]
    exact List.append_ne_nil_of_left_ne_nil hne rest
  have hend := h.atEnd_runs
  rw [hmore] at hend
  have hstep := scanToken_runs h.ready hn hcut h.ahead
  have hbehind : s.begun.behind slice.text slice.piece = s.after slice := by
    have hplace : s.begun.place = slice.span := h.place_eq
    rw [behind, hplace]
    rfl
  have hstart : s.current - slice.span.column = s.lineStart := by
    rw [← h.place_eq]
    exact Nat.sub_sub_self h.lineStart_le
  rw [hbehind] at hstep
  rw [calls, hstart]
  exact hend.bind <| (begin_runs h.lineStart_le).bind <| Runs.bind rfl
    <| hstep.bind <| Runs.bind rfl <| hlater.bind .ret

/-- The whole run: the machine passes the slices of the text that is ahead,
one call for each, and adds what they give to the answer. -/
theorem scanTokens_runs (h : Stands row s span cs) (hn : row.length < n)
    (hk : cs.length < k) :
    ∃ s', Runs (scanTokens row n k) s (calls s.current (slices span cs).1) s' ∧
      s'.tokens = s.tokens ++
        ((slices span cs).1.filterMap Placed.token?
          ++ [endOfText (slices span cs).2]) ∧
      s'.errors = s.errors ++
        ((slices span cs).1.filterMap Placed.error?).map Error.diagnostic := by
  induction span, cs using slices_induction generalizing s k with
  | nil span =>
      cases k with
      | zero => cases hk
      | succ k =>
          rw [slices]
          refine ⟨_, h.atEnd_runs.bind
            ((finish_runs h.lineStart_le).bind .ret), ?_, ?_⟩
          · rw [h.place_eq]
            rfl
          · exact (List.append_nil _).symm
  | cons span c cs ih =>
      cases k with
      | zero => cases hk
      | succ k =>
          have hcut := Placed.first_cut span c cs
          have hsplit :
              c :: cs = (Placed.first span c cs).text
                ++ cs.drop (Slice.next c cs).extra :=
            congrArg (List.cons c) (List.take_append_drop _ cs).symm
          have hshorter : (cs.drop (Slice.next c cs).extra).length < k := by
            rw [List.length_drop]
            rw [List.length_cons] at hk
            omega
          rw [hsplit] at h
          obtain ⟨s', hrun, htokens, herrors⟩ := ih h.after hshorter
          rw [slices_cons]
          refine ⟨s', h.scanTokens_cons hn (List.cons_ne_nil _ _) hcut hrun,
            ?_, ?_⟩
          · have hadded : (s.after (Placed.first span c cs)).tokens =
                s.tokens ++ (Placed.first span c cs).token?.toList := rfl
            rw [htokens, hadded, ← toList_append_filterMap, List.append_assoc,
              List.append_assoc]
          · have hadded : (s.after (Placed.first span c cs)).errors
                = s.errors ++ (Placed.first span c cs).error?.toList.map
                  Error.diagnostic := rfl
            rw [herrors, hadded, ← toList_append_filterMap, List.map_append,
              List.append_assoc]

end Stands

/-- The machine starts before the whole text. -/
theorem stands_initial (row : List Char) : Stands row initial Span.start row :=
  ⟨rfl, rfl, Nat.le_refl _, Nat.zero_le _⟩

/-- With loops of more turns than there are characters the machine has an
answer, and it is that of `scan`. -/
theorem tokenize_eq {source : String} (hn : source.length < n) :
    tokenize n source = .ok ((scan source).mapError (·.map Error.diagnostic),
      calls 0 (slices Span.start source.toList).1) := by
  rw [← String.length_toList] at hn
  obtain ⟨s', hrun, htokens, herrors⟩ :=
    (stands_initial source.toList).scanTokens_runs hn hn
  rw [tokenize, hrun]
  show Except.ok (_, _) = _
  rw [herrors, htokens, scan]
  generalize slices Span.start source.toList = found
  obtain ⟨ps, stop⟩ := found
  dsimp only
  cases ps.filterMap Placed.error? with
  | nil => rfl
  | cons e es => rfl

-- ================================================================ calls

/-- The bounds that a call keeps in a row of `n` characters: the line starts
before the token, the token before the cursor, and the cursor moves on but
stays in the row. -/
structure InRow (n : Nat) (call : Call) : Prop where
  lineStart_le : call.lineStart ≤ call.start
  start_le : call.start ≤ call.current
  moves : call.current < call.stop
  stop_le : call.stop ≤ n

/-- Every call stays in the row and moves on. -/
theorem inRow_of_mem_calls {ps : List Placed} {call : Call}
    (hps : ∀ p ∈ ps, p.text ≠ []) (h : call ∈ calls i ps) :
    InRow (i + (ps.flatMap Placed.text).length) call := by
  induction ps generalizing i with
  | nil => cases h
  | cons p ps ih =>
      have hpos := List.length_pos_iff.2 (hps p List.mem_cons_self)
      rw [List.flatMap_cons, List.length_append, ← Nat.add_assoc]
      obtain rfl | h := List.mem_cons.1 h
      · exact ⟨Nat.sub_le _ _, Nat.le_refl _, Nat.lt_add_of_pos_right hpos,
          Nat.le_add_right _ _⟩
      · exact ih (fun q hq => hps q (List.mem_cons_of_mem p hq)) h

/-- The calls pass the slices, one each. -/
theorem text_calls {ps : List Placed}
    (hrow : row.drop i = ps.flatMap Placed.text) :
    (calls i ps).map (Call.text row) = ps.map Placed.text := by
  induction ps generalizing i with
  | nil => rfl
  | cons p ps ih =>
      rw [List.flatMap_cons] at hrow
      rw [calls, List.map_cons, List.map_cons, ih (drop_add hrow)]
      exact congrArg (· :: ps.map Placed.text) (take_drop hrow)

/-- No slice is empty. -/
theorem text_ne_nil_of_mem {span : Span} {slice : Placed}
    (h : slice ∈ (slices span cs).1) :
    slice.text ≠ [] := by
  obtain ⟨before, later, hsplit⟩ := List.append_of_mem h
  obtain ⟨c, rest, -, rfl⟩ := slices_split hsplit
  exact List.cons_ne_nil _ _

/-- The scanner with a cursor is total. Whatever the text, and however many
turns more than its length a loop may take, the run has an answer: no look
beside the row, no piece outside it, no difference below zero. The answer
is that of `scan`, and its errors, if it has any, are not an empty list.
Each call keeps the bounds of the row, and the calls pass the slices of
the text, one each. -/
theorem tokenize_total (source : String) (extra : Nat) :
    ∃ answer calls, tokenize (source.length + 1 + extra) source
      = .ok (answer, calls) ∧
      answer = (scan source).mapError (·.map Error.diagnostic) ∧
      (∀ errors, answer = .error errors → errors ≠ []) ∧
      (∀ call ∈ calls, InRow source.length call) ∧
      calls.map (Call.text source.toList) =
        (slices Span.start source.toList).1.map Placed.text := by
  have hslices := flatMap_slices Span.start source.toList
  refine ⟨_, _, tokenize_eq (by omega), rfl, ?_, ?_, text_calls hslices.symm⟩
  · intro errors herrors
    obtain ⟨-, hscan⟩ | ⟨hne, hscan⟩ := scan_cases source
    · rw [hscan] at herrors
      cases herrors
    · rw [hscan] at herrors
      cases herrors
      exact fun hnil => hne (List.map_eq_nil_iff.1 hnil)
  · intro call hcall
    have hin := inRow_of_mem_calls (fun p hp => text_ne_nil_of_mem hp) hcall
    rw [hslices, Nat.zero_add, String.length_toList] at hin
    exact hin

-- as many turns as characters are too few where every character is a call
example : tokenize 2 "  " = .error .turns := by with_unfolding_all rfl

end Scanner

end Token

end BisayaPlus
