/-
The brackets of a program survive every recovery.

No walk along the tokens takes `KATAPUSAN`, and recovery does not skip it
(`Walk.spares`). The items of a program end nowhere else but there and at
the end of the tokens. So they end exactly at the first `KATAPUSAN`, if
there is one, whatever was given up before it, and what is reported about
the brackets depends on nothing but its place: no error inside the items
is about the brackets (`Walk.inner`).
-/
import BisayaPlus.Proofs.Walk
import Mathlib.Data.List.TakeWhile

namespace BisayaPlus.Parse

variable {stop : Token}

-- ============================================================ recovery

/-- Skipping does not go past `KATAPUSAN`. -/
theorem skipFrom_spares (last : Token) (ts : List Token) :
    ∃ skipped, ts = skipped ++ skipFrom last ts ∧ ∀ t ∈ skipped,
      t.kind ≠ .katapusan := by
  induction ts generalizing last with
  | nil => exact ⟨[], rfl, List.forall_mem_nil _⟩
  | cons t ts ih =>
      rw [skipFrom]
      split
      next => exact ⟨[], rfl, List.forall_mem_nil _⟩
      next hgo =>
        obtain ⟨skipped, hts, hskipped⟩ := ih t
        refine ⟨t :: skipped, congrArg (List.cons t) hts,
          List.forall_mem_cons.2 ⟨?_, hskipped⟩⟩
        intro ht
        exact hgo (by simp [ht, isBoundary])

/-- Nor does recovery. -/
theorem recover_spares (ts : List Token) :
    ∃ skipped, ts = skipped ++ recover ts ∧ ∀ t ∈ skipped,
      t.kind ≠ .katapusan := by
  cases ts with
  | nil => exact ⟨[], rfl, List.forall_mem_nil _⟩
  | cons t ts =>
      rw [recover]
      split
      next => exact ⟨[], rfl, List.forall_mem_nil _⟩
      next ht =>
        obtain ⟨skipped, hts, hskipped⟩ := skipFrom_spares t ts
        exact ⟨t :: skipped, congrArg (List.cons t) hts,
          List.forall_mem_cons.2 ⟨ht, hskipped⟩⟩

-- =============================================================== walks

namespace Walk

variable {goal : Goal} {ts rest : List Token} {errors : List Error}

/-- A walk takes no `KATAPUSAN`. -/
theorem spares (h : Walk stop goal ts rest errors) :
    ∃ used, ts = used ++ rest ∧ ∀ t ∈ used, t.kind ≠ .katapusan := by
  induction h with
  | here | refuse | ended => exact ⟨[], rfl, List.forall_mem_nil _⟩
  | @take t us ht => exact ⟨[t], rfl, by simpa using ht⟩
  | andThen h h' ih ih' | giveUp h h' ih ih' | more h h' ih ih' =>
      obtain ⟨used, rfl, hused⟩ := ih
      obtain ⟨used', rfl, hused'⟩ := ih'
      refine ⟨used ++ used', by simp, ?_⟩
      intro t ht
      exact (List.mem_append.1 ht).elim (hused t) (hused' t)
  | @target t us vs e ht h hvs ih | @opened t us vs e ht h ih =>
      obtain ⟨used, rfl, hused⟩ := ih
      exact ⟨t :: used, rfl, List.forall_mem_cons.2 ⟨ht ▸ by decide, hused⟩⟩
  | read h hus ih => exact ih
  | @recovered t us vs e ht h ih =>
      obtain ⟨used, hts, hused⟩ := ih
      obtain ⟨skipped, hvs, hskipped⟩ := recover_spares vs
      refine ⟨used ++ skipped, by rw [hts, List.append_assoc, ← hvs], ?_⟩
      intro u hu
      exact (List.mem_append.1 hu).elim (hused u) (hskipped u)

/-- No error on the way is about the brackets of the program. -/
theorem inner (h : Walk stop goal ts rest errors) :
    ∀ e ∈ errors, e.fault ∉ outerFaults := by
  induction h with
  | here | take | ended => exact List.forall_mem_nil _
  | andThen h h' ih ih' | giveUp h h' ih ih' | more h h' ih ih' =>
      intro e he
      exact (List.mem_append.1 he).elim (ih e) (ih' e)
  | target ht h hvs ih =>
      intro e he
      obtain he | he := List.mem_append.1 he
      · exact ih e he
      · rw [List.mem_singleton.1 he]
        exact fun hmem =>
          absurd hmem (by decide : Fault.assignmentTarget ∉ outerFaults)
  | refuse hfault =>
      intro e he
      rw [List.mem_singleton.1 he]
      exact hfault
  | opened ht h ih | read h hus ih | recovered ht h ih => exact ih

/-- Items end where a token closes them or the tokens do. -/
theorem ends {inBlock : Bool} (h : Walk stop (.items inBlock) ts rest errors) :
    ∀ t, rest.head? = some t → closesItems inBlock t = true := by
  generalize hgoal : Goal.items inBlock = goal at h
  induction h with
  | ended hend =>
      cases hgoal
      exact hend
  | more h h' ih ih' => exact ih' hgoal
  | _ => cases hgoal

end Walk

/-- The items of a program end at the first `KATAPUSAN`. -/
theorem items_rest (stop : Token) (ts : List Token) :
    (items stop false ts).rest = ts.dropWhile (·.kind ≠ .katapusan) := by
  have hwalk := items_walks stop false ts
  obtain ⟨used, hts, hused⟩ := hwalk.spares
  have hends := hwalk.ends
  generalize (items stop false ts).rest = rest at hts hends
  have hrest : rest.dropWhile (·.kind ≠ .katapusan) = rest := by
    cases rest with
    | nil => rfl
    | cons t rest =>
        have ht : t.kind = .katapusan := by
          simpa [closesItems] using hends t rfl
        rw [List.dropWhile_cons_of_neg (by simp [ht])]
  rw [hts, List.dropWhile_append_of_pos ?_, hrest]
  intro t ht
  simpa using hused t ht

-- ================================================== the end of the tokens

theorem body_eq_take (tokens : List Token) :
    body tokens = tokens.take (tokens.findIdx (·.kind = .eof)) := by
  simp [body, List.takeWhile_eq_take_findIdx_not]

theorem length_body (tokens : List Token) :
    (body tokens).length = tokens.findIdx (·.kind = .eof) := by
  rw [body_eq_take, List.length_take, Nat.min_eq_left List.findIdx_le_length]

/-- There is no end token in the body. -/
theorem ne_eof_of_mem_body {tokens : List Token} :
    ∀ t ∈ body tokens, t.kind ≠ .eof := by
  intro t ht
  simpa using List.mem_takeWhile_imp ht

/-- Tokens that start with a kind have a first one of it. -/
theorem eq_cons_of_startsWith {kind : Token.Kind} {ts : List Token}
    (h : startsWith kind ts = true) :
    ∃ t us, ts = t :: us ∧ t.kind = kind := by
  cases ts with
  | nil => cases h
  | cons t us => exact ⟨t, us, rfl, of_decide_eq_true h⟩

/-- The body starts as the tokens do. -/
theorem startsWith_body {kind : Token.Kind} (hkind : kind ≠ .eof)
    (tokens : List Token) :
    startsWith kind (body tokens) = startsWith kind tokens := by
  cases tokens with
  | nil => rfl
  | cons t ts =>
      by_cases ht : t.kind = .eof
      · simp [body, startsWith, ht, hkind.symm]
      · simp [body, startsWith, ht]

/-- The first end token ends the body. -/
theorem body_append_end {ts : List Token} {e : Token}
    (hts : ∀ t ∈ ts, t.kind ≠ .eof) (he : e.kind = .eof)
    (behind : List Token) :
    body (ts ++ e :: behind) = ts ∧ Parse.stop (ts ++ e :: behind) = e := by
  constructor
  · rw [body, List.takeWhile_append_of_pos (by simpa using hts),
      List.takeWhile_cons_of_neg (by simp [he]), List.append_nil]
  · have hnone : ts.find? (·.kind = .eof) = none := by simpa using hts
    simp [Parse.stop, List.find?_append, hnone, he]

/-- The token at which the end is noticed is an end token: the first of the
list, right behind the body, or one that the list lacks. -/
theorem stop_cases (tokens : List Token) :
    (Parse.stop tokens).kind = .eof ∧
      (body tokens = tokens ∧
          Parse.stop tokens
          = .endOfText ((tokens.getLast?.map Token.span).getD ⟨0, 0⟩) ∨
        ∃ behind, tokens = body tokens ++ Parse.stop tokens :: behind) := by
  cases hfind : tokens.find? (·.kind = .eof) with
  | none =>
      have hbody : body tokens = tokens := by
        rw [body, List.takeWhile_eq_self_iff]
        simpa using hfind
      have hstop : Parse.stop tokens =
          .endOfText ((tokens.getLast?.map Token.span).getD ⟨0, 0⟩) := by
        rw [Parse.stop, hfind]
        rfl
      exact ⟨hstop ▸ rfl, .inl ⟨hbody, hstop⟩⟩
  | some e =>
      obtain ⟨he, before, behind, htokens, hbefore⟩ :=
        List.find?_eq_some_iff_append.1 hfind
      have hsplit :=
        body_append_end (by simpa using hbefore) (by simpa using he) behind
      rw [← htokens] at hsplit
      rw [hsplit.1, hsplit.2]
      exact ⟨by simpa using he, .inr ⟨behind, htokens⟩⟩

/-- A row is its body, the end token and what is behind it. -/
theorem append_stop (tokens : List Token) :
    ∃ behind, tokens ++ [Parse.stop tokens] = body tokens ++ Parse.stop tokens
      :: behind := by
  obtain ⟨-, ⟨hbody, -⟩ | ⟨behind, htokens⟩⟩ := stop_cases tokens
  · exact ⟨[], by rw [hbody]⟩
  · refine ⟨behind ++ [Parse.stop tokens], ?_⟩
    rw [← List.cons_append, ← List.append_assoc, ← htokens]

/-- A program is its body and the token at its end; nothing behind that
token matters. -/
theorem program_append_end {tokens : List Token} (behind : List Token) :
    program (body tokens ++ Parse.stop tokens :: behind) = program tokens := by
  obtain ⟨hbody, hstop⟩ :=
    body_append_end ne_eof_of_mem_body (stop_cases tokens).1 behind
  unfold program
  rw [hbody, hstop]

-- =========================================================== what is reported

/-- The errors of an answer. -/
def reported {α : Type} : Except (List Error) α → List Error
  | .ok _ => []
  | .error es => es

/-- What is reported are the errors of the items, and that of what closes
them. -/
theorem reported_program {tokens us : List Token} {t : Token}
    (hbody : body tokens = t :: us) (ht : t.kind = .sugod) :
    reported (program tokens) = (items (Parse.stop tokens) false us).errors ++
      closing (Parse.stop tokens) (us.dropWhile (·.kind ≠ .katapusan)) := by
  rw [← items_rest (Parse.stop tokens) us]
  unfold program
  rw [hbody]
  dsimp only
  rw [if_pos ht]
  split
  next hempty => exact (List.isEmpty_iff.1 hempty).symm
  next => rfl

/-- No other fault reads like one about the brackets. -/
theorem message_ne_of_inner {fault outer : Fault} (h : fault ∉ outerFaults)
    (houter : outer ∈ outerFaults) : fault.message ≠ outer.message := by
  simp only [outerFaults, List.mem_cons, List.not_mem_nil, or_false] at houter
  obtain rfl | rfl | rfl := houter
  all_goals
    revert h
    cases fault <;> decide

/-- The errors of the items add nothing to a message about the brackets. -/
theorem messages_of_inner {errors closing : List Error} {outer : Fault}
    (herrors : ∀ e ∈ errors, e.fault ∉ outerFaults)
    (houter : outer ∈ outerFaults) :
    ((errors ++ closing).map (·.diagnostic.message)).count outer.message =
      (closing.map (·.diagnostic.message)).count outer.message := by
  rw [List.map_append, List.count_append, List.count_eq_zero.2, Nat.zero_add]
  intro hmem
  obtain ⟨e, he, heq⟩ := List.mem_map.1 hmem
  exact message_ne_of_inner (herrors e he) houter heq

/-- The place of the first `KATAPUSAN` before the end of the tokens. -/
def closer? (tokens : List Token) : Option Nat :=
  (body tokens).findIdx? (·.kind = .katapusan)

theorem dropWhile_body (tokens : List Token) :
    (body tokens).dropWhile (·.kind ≠ .katapusan) =
      (body tokens).drop ((closer? tokens).getD (body tokens).length) := by
  simp [List.dropWhile_eq_drop_findIdx_not, List.findIdx_eq_getD_findIdx?,
    closer?]

/-- What is wrong behind the items, by the place of `KATAPUSAN`. -/
def endErrors (tokens : List Token) : List Error :=
  match closer? tokens with
  | none => [⟨.programEnd, Parse.stop tokens⟩]
  | some k => ((body tokens)[k + 1]?.map fun u => ⟨.afterProgram, u⟩).toList

theorem closing_body (tokens : List Token) :
    closing (Parse.stop tokens) ((body tokens).dropWhile (·.kind ≠ .katapusan))
      = endErrors tokens := by
  rw [dropWhile_body, endErrors]
  cases hcloser : closer? tokens with
  | none => simp [closing]
  | some k =>
      obtain ⟨hk, hkind, -⟩ := List.findIdx?_eq_some_iff_getElem.1 hcloser
      rw [Option.getD_some, List.drop_eq_getElem_cons hk, closing,
        if_pos (by simpa using hkind), List.head?_drop]

/-- A token behind `KATAPUSAN` that is no end token is one of the body. -/
theorem getElem?_body {tokens : List Token} {k : Nat}
    (hk : k ≤ (body tokens).length) (u : Token) :
    (body tokens)[k]? = some u ↔ tokens[k]? = some u ∧ u.kind ≠ .eof := by
  rw [length_body] at hk
  constructor
  · intro hu
    have hkind := ne_eof_of_mem_body u (List.mem_of_getElem? hu)
    rw [body_eq_take, List.getElem?_take] at hu
    split at hu
    · exact ⟨hu, hkind⟩
    · cases hu
  · rintro ⟨hu, hkind⟩
    -- at the end itself there is an end token or none
    obtain hlt | rfl := Nat.lt_or_eq_of_le hk
    · rw [body_eq_take, List.getElem?_take, if_pos hlt]
      exact hu
    · exact absurd (by simpa using List.findIdx_of_getElem?_eq_some hu) hkind

section

variable {tokens us : List Token} {sugod : Token}
  (hus : body tokens = sugod :: us)
  (hsugod : sugod.kind = .sugod)

include hus hsugod

theorem dropWhile_items : us.dropWhile (·.kind ≠ .katapusan) =
    (body tokens).dropWhile (·.kind ≠ .katapusan) := by
  rw [hus, List.dropWhile_cons_of_pos (by simp [hsugod])]

/-- All that is reported about the brackets is noticed behind the items. -/
theorem count_outer {outer : Fault} (houter : outer ∈ outerFaults) :
    ((reported (program tokens)).map (·.diagnostic.message)).count
        outer.message
      = ((endErrors tokens).map (·.diagnostic.message)).count
        outer.message := by
  rw [reported_program hus hsugod, dropWhile_items hus hsugod, closing_body]
  have hinner := (items_walks (Parse.stop tokens) false us).inner
  exact messages_of_inner hinner houter

/-- A missing `KATAPUSAN` is reported, once, and no other is. -/
theorem count_programEnd :
    ((reported (program tokens)).map
      (·.diagnostic.message)).count Fault.programEnd.message =
      if closer? tokens = none then 1 else 0 := by
  rw [count_outer hus hsugod (by decide), endErrors]
  cases closer? tokens with
  | none => rfl
  | some k =>
      dsimp only
      cases (body tokens)[k + 1]? <;> rfl

/-- Tokens behind `KATAPUSAN` are reported, and only where there are some.
-/
theorem mem_afterProgram :
    Fault.afterProgram.message ∈ (reported
      (program tokens)).map (·.diagnostic.message) ↔
      ∃ k u, closer? tokens = some k ∧ tokens[k + 1]? = some u
        ∧ u.kind ≠ .eof := by
  rw [← List.count_pos_iff, count_outer hus hsugod (by decide), endErrors]
  cases hcloser : closer? tokens with
  | none => simp [Error.diagnostic, Fault.message]
  | some k =>
      obtain ⟨hk, -⟩ := List.findIdx?_eq_some_iff_getElem.1 hcloser
      have hbody := fun u => getElem?_body (Nat.succ_le_of_lt hk) u
      dsimp only
      cases hnext : (body tokens)[k + 1]? with
      | none =>
          refine iff_of_false (by simp) ?_
          rintro ⟨k', u, heq, hu⟩
          cases heq
          have hsome := (hbody u).2 hu
          rw [hnext] at hsome
          cases hsome
      | some u =>
          refine iff_of_true ?_ ⟨k, u, rfl, (hbody u).1 hnext⟩
          simp [Error.diagnostic]

end

/-- The brackets of a program. If it starts with `SUGOD`, its items end at
the first `KATAPUSAN` before the end of the tokens, or at that end; a
missing `KATAPUSAN` is reported once and never without cause, a token
behind it exactly if there is one, and no token behind the first end token
matters. Without `SUGOD` there is one error. -/
theorem program_brackets (tokens : List Token) :
    let last := tokens.findIdx (·.kind = .eof)
    let closer := (tokens.take last).findIdx? (·.kind = .katapusan)
    let messages := (reported (program tokens)).map (·.diagnostic.message)
    if startsWith .sugod tokens then
      (items (Parse.stop tokens) false (tokens.take last).tail).rest =
          (tokens.take last).drop (closer.getD last) ∧
      messages.count "Expect 'KATAPUSAN' at the end of the program." =
          (if closer = none then 1 else 0) ∧
      ("Expect end of file after 'KATAPUSAN'." ∈ messages ↔
          ∃ k u, closer = some k ∧ tokens[k + 1]? = some u ∧ u.kind ≠ .eof) ∧
      ∀ behind, program ((tokens ++ [Parse.stop tokens]).take (last + 1)
        ++ behind) = program tokens
    else ∃ e, program tokens = .error [e] := by
  intro last closer messages
  have hbody : tokens.take last = body tokens := (body_eq_take tokens).symm
  have hlast : last = (body tokens).length := (length_body tokens).symm
  have hcloser : closer = closer? tokens := congrArg (List.findIdx? _) hbody
  rw [← startsWith_body (by decide) tokens]
  split
  next hstart =>
    obtain ⟨sugod, us, hus, hsugod⟩ := eq_cons_of_startsWith hstart
    refine ⟨?_, ?_, ?_, ?_⟩
    · rw [items_rest, hbody, hcloser, hlast, ← dropWhile_body,
        ← dropWhile_items hus hsugod, hus]
      rfl
    · rw [hcloser]
      exact count_programEnd hus hsugod
    · rw [hcloser]
      exact mem_afterProgram hus hsugod
    · intro behind
      obtain ⟨behind', htokens⟩ := append_stop tokens
      have htake : (tokens ++ [Parse.stop tokens]).take (last + 1) =
          body tokens ++ [Parse.stop tokens] := by
        rw [htokens, hlast, List.take_length_add_append]
        rfl
      rw [htake, List.append_assoc]
      exact program_append_end behind
  next hstart =>
    rw [program]
    cases hus : body tokens with
    | nil => exact ⟨_, rfl⟩
    | cons t us =>
        have ht : t.kind ≠ .sugod := by
          intro ht
          rw [hus] at hstart
          exact hstart (decide_eq_true ht)
        exact ⟨_, if_neg ht⟩

end BisayaPlus.Parse
