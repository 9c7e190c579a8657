/-
What reading a phrase leaves behind.

Phrases are read off the front of a list of tokens. A phrase that was
read has taken at least one token (`Behind`); one that was given up has
taken no more than what stood before the token that did not fit. Both
facts are part of the answer, because the reading of lists and chains of
phrases ends by them.
-/
import BisayaPlus.Parse.Fault

namespace BisayaPlus.Parse

-- ======================================================= being behind

/-- The tokens `us` are what is left of `ts` after some of its tokens, at
least one, have been taken. -/
def Behind (us ts : List Token) : Prop := us <:+ ts ∧ us.length < ts.length

namespace Behind

variable {us vs ts : List Token}

theorem suffix (h : Behind us ts) : us <:+ ts := h.1

theorem length_lt (h : Behind us ts) : us.length < ts.length := h.2

theorem cons (t : Token) (ts : List Token) : Behind ts (t :: ts) :=
  ⟨List.suffix_cons t ts, by simp⟩

theorem within (h : Behind vs us) (hu : us <:+ ts) : Behind vs ts :=
  ⟨h.suffix.trans hu, Nat.lt_of_lt_of_le h.length_lt hu.length_le⟩

theorem after (h : vs <:+ us) (hu : Behind us ts) : Behind vs ts :=
  ⟨h.trans hu.suffix, Nat.lt_of_le_of_lt h.length_le hu.length_lt⟩

theorem trans (h : Behind vs us) (hu : Behind us ts) : Behind vs ts :=
  h.within hu.suffix

theorem tail {t : Token} (h : Behind (t :: us) ts) : Behind us ts :=
  (cons t us).trans h

-- `suffix` in the two forms that the readers need.

theorem suffix_tail {t : Token} (h : Behind (t :: us) ts) : us <:+ ts :=
  h.tail.suffix

theorem suffix_cons {t : Token} (h : Behind us (t :: ts)) : us <:+ t :: ts :=
  h.suffix

end Behind

-- ============================================================= replies

/-- The answer to reading a phrase off `ts`: the phrase, or that it was
given up, with the tokens that are left and the errors found on the
way. A phrase can be read in spite of an error. -/
inductive Reply (α : Type) (ts : List Token) where
  | parsed (value : α) (rest : List Token) (errors : List Error)
      (behind : Behind rest ts)
  | failed (rest : List Token) (errors : List Error) (suffix : rest <:+ ts)

namespace Reply

variable {α β : Type} {us ts : List Token}

/-- The reply with errors that were found before. -/
def after (errors : List Error) : Reply α ts → Reply α ts
  | parsed a rest more h => parsed a rest (errors ++ more) h
  | failed rest more h => failed rest (errors ++ more) h

/-- Goes on behind a phrase read off `us`, as part of a phrase of `ts`. -/
def bind (r : Reply α us) (h : us <:+ ts)
    (f : α → (vs : List Token) → Behind vs us → Behind vs ts → Reply β ts) :
    Reply β ts :=
  match r with
  | parsed a vs errors hv => (f a vs hv (hv.within h)).after errors
  | failed vs errors hv => failed vs errors (hv.trans h)

/-- The reply with the phrase changed. -/
def map (f : α → β) : Reply α ts → Reply β ts
  | parsed a rest errors h => parsed (f a) rest errors h
  | failed rest errors h => failed rest errors h

end Reply

/-- Gives up before the first token, for the fault noticed there; at the
end of the tokens the fault is noticed at `stop`. -/
def refuse {α : Type} (stop : Token) (fault : Fault) (ts : List Token) :
    Reply α ts :=
  .failed ts [⟨fault, ts.headD stop⟩] (List.suffix_refl ts)

/-- Takes one token of the given kind. -/
def expect (stop : Token) (kind : Token.Kind) (fault : Fault)
    (ts : List Token) :
    Reply Token ts :=
  match ts with
  | t :: us =>
      if t.kind = kind then .parsed t us [] (Behind.cons t us)
      else refuse stop fault (t :: us)
  | [] => refuse stop fault []

/-- The first token is of the given kind. -/
def startsWith (kind : Token.Kind) : List Token → Bool
  | t :: _ => t.kind = kind
  | [] => false

end BisayaPlus.Parse
