/-
Recovery goes on at the first boundary.

A statement was given up with the cursor at some place of the row. Where
reading may go on is a matter of the row and this place alone
(`Resumes`): at the place itself if `KATAPUSAN` or an end token stands
there, and else at a boundary further on (`Boundary`). Recovery goes to
the least such place, and so it skips no boundary behind the token that
did not fit, and takes neither `KATAPUSAN` nor an end token
(`Cursor.recover_first_boundary`).

Recovery is there twice, on what is left of a list of tokens and with a
cursor. The place is found on the list: one more token that is skipped
moves it on by one (`Tape.skipFrom_lands`). That the cursor comes to stand
there is a matter of `Proofs/CursorRuns.lean`. The trace tells which
tokens it has taken on the way, since a step never moves but to the next
place (`Forward`).
-/
import BisayaPlus.Proofs.CursorRuns
import BisayaPlus.Proofs.Rows
import Mathlib.Order.Bounds.Defs

namespace BisayaPlus.Parse

-- ========================================================== boundaries

/-- The kind of the token at a place. -/
def kindAt (v : List Token) (i : Nat) : Option Token.Kind :=
  v[i]?.map Token.kind

/-- The kinds of token that open a statement, or a part of one. -/
def boundaryKinds : List Token.Kind :=
  [.mugna, .sugod, .katapusan, .ipakita, .dawat, .pundok, .kung, .kungDili,
    .kungWala, .alangSa]

/-- An end token is at the place, or a `$` right before it, or a token that
opens a statement or a part of one. -/
def Boundary (v : List Token) (q : Nat) : Prop :=
  kindAt v q = some .eof ∨ kindAt v (q - 1) = some .dollar ∨
    ∃ kind ∈ boundaryKinds, kindAt v q = some kind

/-- What was given up at the place `p` may be recovered from at `q`. -/
def Resumes (v : List Token) (p q : Nat) : Prop :=
  if kindAt v p = some .katapusan ∨ kindAt v p = some .eof then q = p
  else p < q ∧ Boundary v q

instance (v : List Token) (q : Nat) : Decidable (Boundary v q) :=
  inferInstanceAs (Decidable (_ ∨ _ ∨ _))

instance (v : List Token) (p q : Nat) : Decidable (Resumes v p q) :=
  inferInstanceAs (Decidable
    (if kindAt v p = some .katapusan ∨ kindAt v p = some .eof then q = p
    else p < q ∧ Boundary v q))

/-- The kinds before which skipping stops. -/
theorem isBoundary_iff {kind : Token.Kind} :
    isBoundary kind = true ↔ kind ∈ boundaryKinds := by
  cases kind <;> decide

section

variable {v : List Token} {p q i : Nat}

/-- Before `KATAPUSAN` and at the end nothing is skipped. -/
theorem isLeast_of_stays
    (h : kindAt v p = some .katapusan ∨ kindAt v p = some .eof) :
    IsLeast {q | Resumes v p q} p := by
  have hresumes : ∀ q, Resumes v p q ↔ q = p := fun q => by
    rw [Resumes, if_pos h]
  exact ⟨(hresumes p).2 rfl, fun q hq => Nat.le_of_eq ((hresumes q).1 hq).symm⟩

/-- Elsewhere the least place is that of the first boundary further on. -/
theorem isLeast_of_leaves
    (h : ¬(kindAt v p = some .katapusan ∨ kindAt v p = some .eof))
    (hpq : p < q) (hland : Boundary v q)
    (hskipped : ∀ i, p < i → i < q → ¬Boundary v i) :
    IsLeast {q | Resumes v p q} q := by
  have hresumes : ∀ q, Resumes v p q ↔ p < q ∧ Boundary v q := fun q => by
    rw [Resumes, if_neg h]
  refine ⟨(hresumes q).2 ⟨hpq, hland⟩, fun q' hq' => ?_⟩
  obtain ⟨hpq', hland'⟩ := (hresumes q').1 hq'
  exact Nat.le_of_not_lt fun hlt => hskipped q' hpq' hlt hland'

/-- The end and `KATAPUSAN` are boundaries. -/
theorem kindAt_of_not_boundary (h : ¬Boundary v i) :
    kindAt v i ≠ some .katapusan ∧ kindAt v i ≠ some .eof := by
  constructor
  · intro hi
    exact h (.inr (.inr ⟨.katapusan, by decide, hi⟩))
  · intro hi
    exact h (.inl hi)

end

-- ========================================================= on the list

namespace Tape

open Row

variable {tape : Tape} {p i : Nat} {t u : Token} {us : List Token}

theorem kindAt_tokens (hi : i ≤ tape.body.length) :
    kindAt tape.tokens i = some ((tape.body.drop i).headD tape.stop).kind := by
  have hlength : i + (tape.body.drop i).length = tape.body.length := by
    rw [List.length_drop]
    omega
  rw [kindAt, getElem?_tokens (List.drop_suffix i tape.body) hlength]
  rfl

/-- The kind at a place is that of the first token ahead. -/
theorem kindAt_of_drop (h : tape.body.drop p = t :: us) :
    kindAt tape.tokens p = some t.kind := by
  have hp : p < tape.body.length := lt_length h (List.cons_ne_nil t us)
  rw [kindAt_tokens (Nat.le_of_lt hp), h]
  rfl

theorem kindAt_end : kindAt tape.tokens tape.body.length = some .eof := by
  rw [kindAt_tokens (Nat.le_refl _), List.drop_length]
  exact congrArg some tape.stop_eq

/-- No token of the body is an end token. -/
theorem ne_eof_of_drop (h : tape.body.drop p = t :: us) : t.kind ≠ .eof :=
  Cursor.kind_ne_eof (h ▸ List.drop_suffix p tape.body)

/-- Between two tokens of the body, skipping stops where there is a
boundary. -/
theorem boundary_between (h : tape.body.drop p = t :: u :: us) :
    Boundary tape.tokens (p + 1)
      ↔ (t.kind = .dollar || isBoundary u.kind) = true := by
  have hu : u.kind ≠ .eof := ne_eof_of_drop (drop_succ h)
  rw [Boundary, Nat.add_sub_cancel, kindAt_of_drop h,
    kindAt_of_drop (drop_succ h), Bool.or_eq_true, isBoundary_iff]
  simp [hu]

/-- Behind a token of the body, skipping goes to the first boundary. -/
theorem skipFrom_lands (us : List Token) {t : Token} {p : Nat}
    (h : tape.body.drop p = t :: us) :
    ∃ q, p < q ∧ skipFrom t us = tape.body.drop q ∧ q ≤ tape.body.length
      ∧ Boundary tape.tokens q ∧ ∀ i,
        p < i → i < q → ¬Boundary tape.tokens i := by
  have hp : p < tape.body.length := lt_length h (List.cons_ne_nil t us)
  induction us generalizing t p with
  | nil =>
      have hend : p + 1 = tape.body.length :=
        Nat.le_antisymm hp (List.drop_eq_nil_iff.1 (drop_succ h))
      refine ⟨p + 1, Nat.lt_succ_self p, (drop_succ h).symm, hp, .inl ?_,
        by omega⟩
      rw [hend]
      exact kindAt_end
  | cons u us ih =>
      have hnext := drop_succ h
      have hboundary := boundary_between h
      rw [skipFrom]
      split
      next hstops =>
        exact ⟨p + 1, Nat.lt_succ_self p, hnext.symm, hp,
          hboundary.2 hstops, by omega⟩
      next hstops =>
        obtain ⟨q, hpq, hskip, hq, hland, hskipped⟩ :=
          ih hnext (lt_length hnext (List.cons_ne_nil u us))
        refine ⟨q, by omega, hskip, hq, hland, fun i hpi hiq => ?_⟩
        -- The place right behind `t` is no boundary; those further on were
        -- skipped from `u`.
        by_cases hi : i = p + 1
        · rw [hi, hboundary]
          exact hstops
        · exact hskipped i (by omega) hiq

/-- What recovery leaves of the body is what stands from the least place on
at which reading may go on. -/
theorem recover_lands (hp : p ≤ tape.body.length) :
    ∃ q, recover (tape.body.drop p) = tape.body.drop q ∧ q ≤ tape.body.length
      ∧ IsLeast {q | Resumes tape.tokens p q} q
      ∧ (∀ i, p < i → i < q → ¬Boundary tape.tokens i)
      ∧ ∀ i, p ≤ i → i < q →
          kindAt tape.tokens i ≠ some .katapusan
            ∧ kindAt tape.tokens i ≠ some .eof := by
  cases hts : tape.body.drop p with
  | nil =>
      have hend : p = tape.body.length :=
        Nat.le_antisymm hp (List.drop_eq_nil_iff.1 hts)
      refine ⟨p, hts.symm, hp, isLeast_of_stays (.inr ?_), by omega, by omega⟩
      rw [hend]
      exact kindAt_end
  | cons t us =>
      have hkind := kindAt_of_drop hts
      by_cases ht : t.kind = .katapusan
      · refine ⟨p, ?_, hp, isLeast_of_stays (.inl ?_), by omega, by omega⟩
        · rw [recover, if_pos ht, hts]
        · rw [hkind, ht]
      · have hleaves : kindAt tape.tokens p ≠ some .katapusan
            ∧ kindAt tape.tokens p ≠ some .eof := by
          rw [hkind]
          simpa using ⟨ht, ne_eof_of_drop hts⟩
        obtain ⟨q, hpq, hskip, hq, hland, hskipped⟩ := skipFrom_lands us hts
        have hleast := isLeast_of_leaves (not_or.2 hleaves) hpq hland hskipped
        refine ⟨q, ?_, hq, hleast, hskipped, fun i hpi hiq => ?_⟩
        · rw [recover, if_neg ht, hskip]
        · by_cases hi : i = p
          · rw [hi]
            exact hleaves
          · exact kindAt_of_not_boundary (hskipped i (by omega) hiq)

/-- The body of a row ends at the first end token. -/
theorem findIdx_tokens (tape : Tape) :
    tape.tokens.findIdx (·.kind = .eof) = tape.body.length := by
  rw [← length_body]
  exact congrArg List.length
    (body_append_end tape.body_ne tape.stop_eq tape.behind).1

end Tape

namespace Cursor

-- ======================================================= the next place

/-- The step moves the cursor forward or not at all, and notes every place
that it comes to. -/
def Forward {α : Type} (m : Step α) : Prop :=
  ∀ c answer c', m c = some (answer, c') → c.place ≤ c'.place ∧
    ∀ i, .moved i ∈ c'.trace ↔ .moved i ∈ c.trace ∨ (c.place < i
      ∧ i ≤ c'.place)

namespace Forward

variable {α β : Type} {m : Step α} {f : α → Step β} {v : List Token}

/-- A step that leaves the cursor where it is. -/
theorem of_same
    (h : ∀ c answer c', m c = some (answer, c') → c'.place = c.place ∧
    ∀ i, .moved i ∈ c'.trace ↔ .moved i ∈ c.trace) : Forward m := by
  intro c answer c' hrun
  obtain ⟨hplace, htrace⟩ := h c answer c' hrun
  refine ⟨Nat.le_of_eq hplace.symm, fun i => ?_⟩
  rw [htrace, hplace]
  have hnone : ¬(c.place < i ∧ i ≤ c.place) := by omega
  exact (or_iff_left hnone).symm

theorem ret (a : α) : Forward (pure a : Step α) := by
  refine of_same fun c answer c' hrun => ?_
  obtain ⟨-, rfl⟩ := Prod.mk.inj (Option.some.inj hrun)
  exact ⟨rfl, fun i => Iff.rfl⟩

/-- Two steps in a row move forward if each does. -/
theorem bind (hm : Forward m) (hf : ∀ a, Forward (f a)) :
    Forward (m >>= f) := by
  intro c answer c' hrun
  change (m c).bind _ = _ at hrun
  cases hfirst : m c with
  | none =>
      rw [hfirst] at hrun
      cases hrun
  | some first =>
      obtain ⟨r, c₁⟩ := first
      rw [hfirst] at hrun
      obtain ⟨hplace, htrace⟩ := hm c r c₁ hfirst
      cases r with
      | error e =>
          obtain ⟨-, rfl⟩ := Prod.mk.inj (Option.some.inj hrun)
          exact ⟨hplace, htrace⟩
      | ok a =>
          obtain ⟨hplace', htrace'⟩ := hf a c₁ answer c' hrun
          refine ⟨Nat.le_trans hplace hplace', fun i => ?_⟩
          rw [htrace', htrace, or_assoc]
          refine or_congr_right ?_
          omega

theorem here : Forward here := by
  refine of_same fun c answer c' hrun => ?_
  obtain ⟨-, rfl⟩ := Prod.mk.inj (Option.some.inj hrun)
  exact ⟨rfl, fun i => Iff.rfl⟩

theorem look (i : Nat) : Forward (look v i) := by
  refine of_same fun c answer c' hrun => ?_
  change (v[i]?).map _ = _ at hrun
  obtain ⟨t, -, ht⟩ := Option.map_eq_some_iff.1 hrun
  obtain ⟨-, rfl⟩ := Prod.mk.inj ht
  exact ⟨rfl, fun j => by simp⟩

theorem move : Forward move := by
  intro c answer c' hrun
  obtain ⟨-, rfl⟩ := Prod.mk.inj (Option.some.inj hrun)
  refine ⟨Nat.le_succ _, fun i => ?_⟩
  change _ ∈ c.trace ++ [.moved (c.place + 1)] ↔ _ ∨ (_ ∧ i ≤ c.place + 1)
  rw [List.mem_append, List.mem_singleton, Event.moved.injEq]
  refine or_congr_right ?_
  omega

theorem peek : Forward (peek v) := here.bind look

theorem previous : Forward (previous v) := here.bind fun i => look (i - 1)

theorem atEnd : Forward (atEnd v) := peek.bind fun _ => ret _

theorem check (kind : Token.Kind) : Forward (check v kind) := by
  refine atEnd.bind fun ended => ?_
  cases ended with
  | true => exact ret false
  | false => exact peek.bind fun _ => ret _

theorem advance : Forward (advance v) := by
  refine atEnd.bind fun ended => ?_
  cases ended with
  | true => exact previous
  | false => exact move.bind fun _ => previous

/-- Skipping moves forward only. -/
theorem skip (n : Nat) : Forward (skip v n) := by
  induction n with
  | zero =>
      intro c answer c' hrun
      cases hrun
  | succ n ih =>
      rw [Cursor.skip]
      refine atEnd.bind fun ended => ?_
      cases ended with
      | true => exact ret ()
      | false =>
          refine previous.bind fun t => ?_
          split
          · exact ret ()
          · refine peek.bind fun u => ?_
            split
            · exact ret ()
            · exact advance.bind fun _ => ih

/-- So does recovery as a whole. -/
theorem recover (n : Nat) : Forward (recover v n) := by
  refine (check .katapusan).bind fun closes => ?_
  cases closes with
  | true => exact skip n
  | false => exact advance.bind fun _ => skip n

end Forward

-- ============================================================ recovery

/-- The cursor comes to stand before what recovery leaves of the body, and
on its way it has been at the places between. -/
theorem recover_runs {tape : Tape} {p q n : Nat} (errors : List Error)
    (hp : p ≤ tape.body.length) (hq : q ≤ tape.body.length)
    (hlist : Parse.recover (tape.body.drop p) = tape.body.drop q)
    (hn : tape.body.length < n) :
    ∃ trace, recover tape.tokens n ⟨p, errors, []⟩
      = some (.ok (), ⟨q, errors, trace⟩)
      ∧ ∀ i, .moved i ∈ trace ↔ p < i ∧ i ≤ q := by
  have hstands : Stands tape (tape.body.drop p) ⟨p, errors, []⟩ := by
    refine ⟨List.drop_suffix p _, ?_, List.forall_mem_nil _⟩
    rw [List.length_drop]
    exact Nat.add_sub_cancel' hp
  have hdepth : (tape.body.drop p).length < n := by
    rw [List.length_drop]
    omega
  obtain ⟨⟨place, errors', trace⟩, hrun, hc, herrors⟩ :=
    recover_does (tape.body.drop p) n hdepth _ hstands
  obtain rfl : place = q := by
    have hplace := hc.place_add
    rw [hlist, List.length_drop] at hplace
    change place + _ = _ at hplace
    omega
  obtain rfl : errors' = errors := herrors.trans (List.append_nil errors)
  refine ⟨trace, hrun, fun i => ?_⟩
  have htrace := (Forward.recover n _ _ _ hrun).2 i
  simpa using htrace

/-- From every place up to the first end token, and whatever errors were
found before, recovery ends and finds no error. It leaves the cursor at the
least place at which reading may go on, before the tokens that recovery
leaves of the list. It moves from place to place up to there and no
further: no boundary behind the token that did not fit is skipped, and
neither `KATAPUSAN` nor an end token is taken. -/
theorem recover_first_boundary (tokens : List Token) (p : Nat)
    (errors : List Error) (hp : p ≤ (row tokens).findIdx (·.kind = .eof)) :
    ∃ q, IsLeast {q | Resumes (row tokens) p q} q
      ∧ (∀ i, p < i → i < q → ¬Boundary (row tokens) i)
      ∧ (∀ i, p ≤ i → i < q →
          kindAt (row tokens) i ≠ some .katapusan ∧ kindAt (row tokens) i
          ≠ some .eof)
      ∧ Parse.recover ((body tokens).drop p) = (body tokens).drop q
      ∧ ∀ extra, ∃ trace,
          recover (row tokens) ((row tokens).length + extra) ⟨p, errors, []⟩
            = some (.ok (), ⟨q, errors, trace⟩)
          ∧ ∀ i, .moved i ∈ trace ↔ p < i ∧ i ≤ q := by
  obtain ⟨tape, hrow, hbody, -⟩ := exists_tape tokens
  rw [← hrow, tape.findIdx_tokens] at hp
  rw [← hrow, ← hbody]
  obtain ⟨q, hlist, hq, hleast, hskipped, hpassed⟩ := tape.recover_lands hp
  refine ⟨q, hleast, hskipped, hpassed, hlist,
    fun extra => recover_runs errors hp hq hlist ?_⟩
  rw [Tape.tokens, List.length_append, List.length_cons]
  omega

/-- The tokens `$ * x $ y KATAPUSAN`, without an end token. -/
def misfit : List Token :=
  [ bareToken .dollar "$", bareToken .star "*", bareToken .identifier "x",
    bareToken .dollar "$", bareToken .identifier "y",
    bareToken .katapusan "KATAPUSAN" ]

/-- The star does not fit. The `$` before it is none of recovery's business;
the cursor passes the other one and stops right behind it. -/
theorem recover_first_boundary_misfit :
    1 ≤ (row misfit).findIdx (·.kind = .eof)
      ∧ Parse.recover ((body misfit).drop 1) = (body misfit).drop 4
      ∧ ∃ trace, recover (row misfit) 7 ⟨1, [], []⟩
        = some (.ok (), ⟨4, [], trace⟩)
        ∧ .moved 4 ∈ trace ∧ .moved 5 ∉ trace := by
  have hp : 1 ≤ (row misfit).findIdx (·.kind = .eof) := by decide
  obtain ⟨q, hleast, -, -, hlist, hcursor⟩ :=
    recover_first_boundary misfit 1 [] hp
  have hbefore : ∀ q < 4, ¬Resumes (row misfit) 1 q := by decide
  have hq : q = 4 := by
    have hle : q ≤ 4 := hleast.2 (show Resumes (row misfit) 1 4 by decide)
    have hge : ¬q < 4 := fun hlt => hbefore q hlt hleast.1
    omega
  subst hq
  obtain ⟨trace, hrun, htrace⟩ := hcursor 0
  refine ⟨hp, hlist, trace, hrun, ?_, ?_⟩
  · exact (htrace 4).2 (by decide)
  · exact fun h => absurd ((htrace 5).1 h) (by decide)

end Cursor

end BisayaPlus.Parse
