/-
What a step of the machine does.

The row of a run is split at its first end token (`Tape`), and a cursor
stands before the tokens that are left up to there (`Stands`). `Does` says
all that one step does from every such cursor: its answer, the errors it
adds, and the tokens before which it leaves the cursor. That a step has an
answer, and that it looks and moves nowhere but up to the first end token,
is part of it. `Follows` says that a step does what a reader of `Parse/`
answers; both compose as the steps themselves do.
-/
import BisayaPlus.Parse.Cursor

namespace BisayaPlus.Parse

-- =========================================================== the row

/-- A row of tokens, split at its first end token. -/
structure Tape where
  body : List Token
  stop : Token
  behind : List Token
  body_ne : ∀ t ∈ body, t.kind ≠ .eof
  stop_eq : stop.kind = .eof

namespace Tape

/-- The whole row. -/
def tokens (tape : Tape) : List Token := tape.body ++ tape.stop :: tape.behind

/-- The token at a place is the first of the tokens that are left there. -/
theorem getElem?_tokens {tape : Tape} {ts : List Token} {i : Nat}
    (hts : ts <:+ tape.body) (hi : i + ts.length = tape.body.length) :
    tape.tokens[i]? = some (ts.headD tape.stop) := by
  obtain ⟨before, hbody⟩ := hts
  have hlength : before.length = i := by
    rw [← hbody, List.length_append] at hi
    omega
  rw [tokens, ← hbody, List.append_assoc,
    List.getElem?_append_right (Nat.le_of_eq hlength), hlength, Nat.sub_self]
  cases ts <;> rfl

end Tape

/-- What an event of a run may be, in a row whose first end token is at
`last`. -/
def Event.Sound (last : Nat) : Event → Prop
  | looked i => i ≤ last
  | moved i => i ≤ last
  | called i j => i < j

namespace Cursor

/-- The cursor stands before `ts`, and all that was done is sound. -/
structure Stands (tape : Tape) (ts : List Token) (c : Cursor) : Prop where
  suffix : ts <:+ tape.body
  place_add : c.place + ts.length = tape.body.length
  sound : ∀ e ∈ c.trace, e.Sound tape.body.length

/-- From every cursor that stands before `ts` the step has the given answer
and errors, and leaves a cursor that stands before `rest`. -/
def Does {α : Type} (tape : Tape) (m : Step α) (ts rest : List Token)
    (answer : Except Unit α) (errors : List Error) : Prop :=
  ∀ c, Stands tape ts c →
    ∃ c', m c = some (answer, c') ∧ Stands tape rest c'
      ∧ c'.errors = c.errors ++ errors

variable {α β : Type} {tape : Tape} {tokens ts us vs : List Token} {t : Token}
  {kind : Token.Kind}

-- =============================================================== steps

namespace Does

variable {m : Step α} {f : α → Step β} {a : α} {answer : Except Unit β}
  {e e' : List Error}

/-- Answering at once leaves the cursor where it is. -/
theorem ret : Does tape (pure a : Step α) ts ts (.ok a) [] :=
  fun c hc => ⟨c, rfl, hc, (List.append_nil _).symm⟩

/-- One step behind the other finds the errors of both, in order. -/
theorem bind (h : Does tape m ts us (.ok a) e)
    (hf : Does tape (f a) us vs answer e') :
    Does tape (m >>= f) ts vs answer (e ++ e') := by
  intro c hc
  obtain ⟨c₁, hm, hc₁, he₁⟩ := h c hc
  obtain ⟨c₂, hfa, hc₂, he₂⟩ := hf c₁ hc₁
  refine ⟨c₂, ?_, hc₂, ?_⟩
  · change (m c).bind _ = _
    rw [hm]
    exact hfa
  · rw [he₂, he₁, List.append_assoc]

/-- What was given up is given up as a whole. -/
theorem giveUp (h : Does tape m ts us (.error ()) e) :
    Does tape (m >>= f) ts us (.error ()) e := by
  intro c hc
  obtain ⟨c₁, hm, hc₁, he₁⟩ := h c hc
  refine ⟨c₁, ?_, hc₁, he₁⟩
  change (m c).bind _ = _
  rw [hm]
  rfl

/-- What is left before a cursor is the end of the body. -/
theorem of_suffix (h : ts <:+ tape.body → Does tape m ts us (.ok a) e) :
    Does tape m ts us (.ok a) e :=
  fun c hc => h hc.suffix c hc

end Does

/-- The place of a cursor is told by what is left before it. -/
theorem here_does : Does tape here ts ts (.ok (tape.body.length - ts.length))
    [] := by
  intro c hc
  refine ⟨c, ?_, hc, (List.append_nil _).symm⟩
  rw [← hc.place_add, Nat.add_sub_cancel]
  rfl

/-- A sound event may be noted anywhere. -/
theorem note_does {event : Event} (h : event.Sound tape.body.length) :
    Does tape (note event) ts ts (.ok ()) [] := by
  intro c hc
  refine ⟨{ c with trace := c.trace ++ [event] }, rfl,
    ⟨hc.suffix, hc.place_add, ?_⟩, (List.append_nil _).symm⟩
  intro e he
  obtain he | he := List.mem_append.1 he
  · exact hc.sound e he
  · rw [List.mem_singleton.1 he]
    exact h

/-- Reporting adds one error and moves nothing. -/
theorem report_does {fault : Fault} :
    Does tape (report fault t) ts ts (.ok ()) [⟨fault, t⟩] :=
  fun _ hc => ⟨_, rfl, ⟨hc.suffix, hc.place_add, hc.sound⟩, rfl⟩

/-- At the place where `us` is left, its first token is seen, or the end
token if there is none. -/
theorem look_does {i : Nat} (hus : us <:+ tape.body)
    (hi : i + us.length = tape.body.length) :
    Does tape (look tape.tokens i) ts ts (.ok (us.headD tape.stop)) [] := by
  have hnote : (Event.looked i).Sound tape.body.length := by
    change i ≤ _
    omega
  refine (note_does hnote).bind ?_
  intro c hc
  refine ⟨c, ?_, hc, (List.append_nil _).symm⟩
  rw [Tape.getElem?_tokens hus hi]
  rfl

/-- The first of the tokens that are left is seen, or the end token. -/
theorem peek_does :
    Does tape (peek tape.tokens) ts ts (.ok (ts.headD tape.stop)) [] :=
  .of_suffix fun hts =>
    here_does.bind (look_does hts (Nat.sub_add_cancel hts.length_le))

/-- Behind a token, that token is the one before the cursor. -/
theorem previous_does (hts : t :: us <:+ tape.body) :
    Does tape (previous tape.tokens) us us (.ok t) [] := by
  have hlength := hts.length_le
  rw [List.length_cons] at hlength
  refine here_does.bind (look_does hts ?_)
  rw [List.length_cons]
  omega

/-- There is always a token before the cursor, or under it. -/
theorem exists_previous (hts : ts <:+ tape.body) :
    ∃ t, Does tape (previous tape.tokens) ts ts (.ok t) [] := by
  obtain ⟨before, hbody⟩ := hts
  rcases List.eq_nil_or_concat before with rfl | ⟨before, t, rfl⟩
  · refine ⟨_, here_does.bind (look_does ⟨[], hbody⟩ ?_)⟩
    rw [← hbody]
    simp
  · exact ⟨t, previous_does ⟨before, by simpa using hbody⟩⟩

/-- No token of the body is an end token. -/
theorem kind_ne_eof (hts : t :: us <:+ tape.body) : t.kind ≠ .eof :=
  tape.body_ne t (hts.subset List.mem_cons_self)

/-- Tokens start with the kind of the first one. -/
theorem startsWith_of_eq (ht : t.kind = kind) :
    startsWith kind (t :: us) = true :=
  decide_eq_true ht

/-- Tokens start with no other kind. -/
theorem startsWith_of_ne (ht : t.kind ≠ kind) :
    startsWith kind (t :: us) = false :=
  decide_eq_false ht

/-- Tokens start with none of several other kinds. -/
theorem startsWith_of_notMem {kinds : List Token.Kind} (ht : t.kind ∉ kinds) :
    ∀ kind ∈ kinds, startsWith kind (t :: us) = false := by
  intro kind hkind
  refine startsWith_of_ne ?_
  rintro rfl
  exact ht hkind

/-- The machine is at its end where no token of the body is left. -/
theorem atEnd_does :
    Does tape (atEnd tape.tokens) ts ts (.ok ts.isEmpty) [] := by
  refine .of_suffix fun hts => ?_
  have hempty : decide ((ts.headD tape.stop).kind = .eof) = ts.isEmpty := by
    cases ts with
    | nil => exact decide_eq_true tape.stop_eq
    | cons t us => exact decide_eq_false (kind_ne_eof hts)
  rw [← hempty]
  exact peek_does.bind .ret

/-- A check tells whether the tokens that are left start with a kind. It
fails at the end, whatever the kind. -/
theorem check_does : Does tape (check tape.tokens kind) ts ts
    (.ok (startsWith kind ts)) [] := by
  cases ts with
  | nil => exact atEnd_does.bind .ret
  | cons t us => exact atEnd_does.bind (peek_does.bind .ret)

/-- A check that succeeds. -/
theorem check_yes (hts : startsWith kind ts = true) :
    Does tape (check tape.tokens kind) ts ts (.ok true) [] :=
  hts ▸ check_does

/-- A check that fails. -/
theorem check_no (hts : startsWith kind ts = false) :
    Does tape (check tape.tokens kind) ts ts (.ok false) [] :=
  hts ▸ check_does

/-- Behind a token of the body there is another one or the end token. -/
theorem checkNext_does (hkind : kind ≠ .eof) :
    Does tape (checkNext tape.tokens kind) (t :: us) (t :: us)
      (.ok (startsWith kind us)) [] := by
  refine .of_suffix fun hts => ?_
  have hus : us <:+ tape.body := (List.suffix_cons t us).trans hts
  have hlength := hts.length_le
  rw [List.length_cons] at hlength
  have hnext : decide ((us.headD tape.stop).kind = kind)
      = startsWith kind us := by
    cases us with
    | nil => exact decide_eq_false (tape.stop_eq ▸ hkind.symm)
    | cons u vs => rfl
  rw [← hnext]
  refine here_does.bind ((look_does hus ?_).bind .ret)
  rw [List.length_cons]
  omega

/-- A check of the next token but one, with its answer given. -/
theorem checkNext_of {b : Bool} (hkind : kind ≠ .eof)
    (hus : startsWith kind us = b) :
    Does tape (checkNext tape.tokens kind) (t :: us) (t :: us) (.ok b) [] :=
  hus ▸ checkNext_does hkind

/-- A check for several kinds succeeds with one of them. -/
theorem checkAny_does (kinds : List Token.Kind) :
    Does tape (checkAny tape.tokens kinds) ts ts
      (.ok (kinds.any (startsWith · ts))) [] := by
  induction kinds with
  | nil => exact .ret
  | cons kind kinds ih =>
      refine check_does.bind ?_
      rw [List.any_cons]
      cases startsWith kind ts with
      | true => exact .ret
      | false => exact ih

/-- A move leaves one token behind. -/
theorem move_does : Does tape move (t :: us) us (.ok ()) [] := by
  intro c hc
  have hplace := hc.place_add
  rw [List.length_cons] at hplace
  have hmoved : Stands tape us { c with place := c.place + 1 } :=
    ⟨(List.suffix_cons t us).trans hc.suffix,
      by change c.place + 1 + us.length = _; omega, hc.sound⟩
  have hnote : (Event.moved (tape.body.length - us.length)).Sound
      tape.body.length :=
    Nat.sub_le _ _
  exact here_does.bind (f := fun i => note (.moved i))
    (note_does hnote) _ hmoved

/-- To advance is to take the first of the tokens that are left. -/
theorem advance_does : Does tape (advance tape.tokens) (t :: us) us
    (.ok t) [] :=
  .of_suffix fun hts => atEnd_does.bind (move_does.bind (previous_does hts))

/-- A token of the kind is passed. -/
theorem pass_yes (ht : t.kind = kind) :
    Does tape (pass tape.tokens kind) (t :: us) us (.ok true) [] :=
  (check_yes (startsWith_of_eq ht)).bind (advance_does.bind .ret)

/-- Nothing is passed where another kind stands. -/
theorem pass_no (hts : startsWith kind ts = false) :
    Does tape (pass tape.tokens kind) ts ts (.ok false) [] :=
  (check_no hts).bind .ret

/-- A token of one of the kinds is passed. -/
theorem passAny_yes {kinds : List Token.Kind} (ht : t.kind ∈ kinds) :
    Does tape (passAny tape.tokens kinds) (t :: us) us (.ok true) [] := by
  induction kinds with
  | nil => cases ht
  | cons kind kinds ih =>
      by_cases hkind : t.kind = kind
      · exact (pass_yes hkind).bind .ret
      · refine (pass_no (startsWith_of_ne hkind)).bind ?_
        exact ih ((List.mem_cons.1 ht).resolve_left hkind)

/-- Nothing is passed where none of the kinds stands. -/
theorem passAny_no {kinds : List Token.Kind}
    (hts : ∀ kind ∈ kinds, startsWith kind ts = false) :
    Does tape (passAny tape.tokens kinds) ts ts (.ok false) [] := by
  induction kinds with
  | nil => exact .ret
  | cons kind kinds ih =>
      refine (pass_no (hts kind List.mem_cons_self)).bind ?_
      exact ih fun kind hkind => hts kind (List.mem_cons_of_mem _ hkind)

-- ============================================================= replies

/-- From before `us`, the step does what the reply says. -/
def Follows (tape : Tape) (m : Step α) (us : List Token) : Reply α ts → Prop
  | .parsed a rest errors _ => Does tape m us rest (.ok a) errors
  | .failed rest errors _ => Does tape m us rest (.error ()) errors

namespace Follows

variable {m : Step α} {f : α → Step β} {a : α} {r : Reply β ts}
  {errors : List Error}

/-- A step that answers at once does what the reply with this answer says.
-/
theorem ret {h : Behind us ts} :
    Follows tape (pure a : Step α) us (.parsed a us [] h) :=
  Does.ret

/-- A step goes before, and its errors come first. -/
theorem after (h : Does tape m us vs (.ok a) errors)
    (hr : Follows tape (f a) vs r) :
    Follows tape (m >>= f) us (r.after errors) := by
  cases r with
  | parsed b rest more behind => exact h.bind hr
  | failed rest more suffix => exact h.bind hr

/-- A step that finds no error goes before. -/
theorem of_ok (h : Does tape m us vs (.ok a) [])
    (hr : Follows tape (f a) vs r) :
    Follows tape (m >>= f) us r := by
  cases r with
  | parsed b rest more behind => exact h.bind hr
  | failed rest more suffix => exact h.bind hr

/-- What follows a step follows its reply; what the reply gives up is given
up as a whole. -/
theorem bind {r : Reply α us} {hu : us <:+ ts}
    {g : α → (vs : List Token) → Behind vs us → Behind vs ts → Reply β ts}
    (hr : Follows tape m us r)
    (hf : ∀ a vs hv hw, Follows tape (f a) vs (g a vs hv hw)) :
    Follows tape (m >>= f) us (r.bind hu g) := by
  cases r with
  | parsed a vs errors hv => exact after hr (hf a vs hv (hv.within hu))
  | failed vs errors hv => exact Does.giveUp hr

/-- A changed answer is that of the changed reply. -/
theorem map {r : Reply α ts} {g : α → β} (hr : Follows tape m us r) :
    Follows tape (m >>= fun a => pure (g a)) us (r.map g) := by
  cases r with
  | parsed a rest errors behind =>
      have hmap := Does.bind hr (f := fun a => pure (g a)) .ret
      rwa [List.append_nil] at hmap
  | failed rest errors suffix => exact Does.giveUp hr

/-- What is left before a cursor is the end of the body. -/
theorem of_suffix {r : Reply α ts}
    (h : us <:+ tape.body → Follows tape m us r) :
    Follows tape m us r := by
  cases r with
  | parsed a rest more behind => exact fun c hc => h hc.suffix c hc
  | failed rest more suffix => exact fun c hc => h hc.suffix c hc

section

variable {test : Step Bool} {x y : Step β}

/-- A test that succeeds leads to the first branch. -/
theorem yes (h : Does tape test us vs (.ok true) [])
    (hr : Follows tape x vs r) :
    Follows tape (test >>= fun b => if b = true then x else y) us r :=
  of_ok h hr

/-- A test that fails leads to the second branch. -/
theorem no (h : Does tape test us vs (.ok false) [])
    (hr : Follows tape y vs r) :
    Follows tape (test >>= fun b => if b = true then x else y) us r :=
  of_ok h hr

/-- A token of another kind is not passed. -/
theorem other {k : Token.Kind} (ht : t.kind = k) (hk : k ≠ kind)
    (hr : Follows tape y (t :: us) r) :
    Follows tape (pass tape.tokens kind >>= fun b => if b = true then x else y)
      (t :: us) r :=
  no (pass_no (startsWith_of_ne (ht ▸ hk))) hr

end

end Follows

/-- A refusal reports the first token that is left and gives up. -/
theorem refuse_follows (fault : Fault) (ts : List Token) :
    Follows tape (refuse tape.tokens fault : Step α) ts
      (Parse.refuse tape.stop fault ts) :=
  peek_does.bind (report_does.bind fun c hc =>
    ⟨c, rfl, hc, (List.append_nil _).symm⟩)

/-- An expected token is taken, any other is refused. -/
theorem expect_follows (kind : Token.Kind) (fault : Fault) (ts : List Token) :
    Follows tape (expect tape.tokens kind fault) ts
      (Parse.expect tape.stop kind fault ts) := by
  cases ts with
  | nil => exact .no check_does (refuse_follows fault [])
  | cons t us =>
      rw [Parse.expect]
      split
      next ht => exact .yes (check_yes (startsWith_of_eq ht)) advance_does
      next ht =>
        exact .no (check_no (startsWith_of_ne ht))
          (refuse_follows fault (t :: us))

/-- A token of the expected kind is taken. -/
theorem expect_yes {fault : Fault} (ht : t.kind = kind) :
    Does tape (expect tape.tokens kind fault) (t :: us) us (.ok t) [] :=
  (check_yes (startsWith_of_eq ht)).bind advance_does

end Cursor

end BisayaPlus.Parse
