/-
An environment with an empty scope put in between.

`env.padded k p` is `env` with an empty scope at place `k`, whose parent
is the scope `p` before it. The scopes from `k` on move up by one, and
those of them that had the parent `p` now have the empty scope. What ran
in `p` is to run in the empty scope from then on, and what ran in a scope
from `k` on goes on there at its new place: that is `moved`. A scope
itself, and so the owner of a variable, is found again at `raised`.

All operations go along with padding: looking a name up from the moved
place finds the same binding, and assigning, declaring, opening and
dropping scopes in the padded environment gives the padded result. Only a
declaration in `p` itself has no counterpart, because the empty scope
would no longer be empty.
-/
import BisayaPlus.Proofs.Scopes

namespace BisayaPlus

-- ============================================================== places

/-- Where the scope `i` is found when a scope was put in at place `k`. -/
def raised (k i : Nat) : Nat := if k ≤ i then i + 1 else i

/-- Where that runs which ran in the scope `i`, when an empty scope was put
in at place `k` between `p` and what ran in it. -/
def moved (k p i : Nat) : Nat := if i = p then k else raised k i

theorem raised_of_lt {k i : Nat} (h : i < k) : raised k i = i :=
  if_neg (by omega)

theorem raised_of_le {k i : Nat} (h : k ≤ i) : raised k i = i + 1 := if_pos h

theorem moved_self (k p : Nat) : moved k p p = k := if_pos rfl

theorem moved_of_le {k p i : Nat} (hp : p < k) (h : k ≤ i) :
    moved k p i = i + 1 := by
  unfold moved
  rw [if_neg (by omega), raised_of_le h]

theorem moved_of_lt {k p i : Nat} (hi : i ≠ p) (h : i < k) :
    moved k p i = i := by
  unfold moved
  rw [if_neg hi, raised_of_lt h]

/-- The scope with its parent at the moved place. -/
def Scope.reparent (s : Scope) (k p : Nat) : Scope :=
  { s with parent := s.parent.map (moved k p) }

namespace Environment

variable {env env' : Environment} {k p i : Nat} {x : String} {v : Value}
  {b : Binding}

-- ====================================================== walks, once more

/-- A walk that has steps enough takes no notice of further ones. -/
theorem Grounded.resolveWithin_stable (h : env.Grounded) (x : String)
    {i m n : Nat} (hm : i < m) (hn : i < n) :
    env.resolveWithin x m i = env.resolveWithin x n i := by
  induction i using Nat.strongRecOn generalizing m n with
  | ind i ih =>
      obtain ⟨m, rfl⟩ : ∃ m', m = m' + 1 := ⟨m - 1, by omega⟩
      obtain ⟨n, rfl⟩ : ∃ n', n = n' + 1 := ⟨n - 1, by omega⟩
      unfold resolveWithin
      cases hs : env.scopes[i]? with
      | none => rfl
      | some s =>
          simp only
          cases s.find? x with
          | some b => rfl
          | none =>
              cases hparent : s.parent with
              | none => rfl
              | some q =>
                  have hq : q < i :=
                    h i s.outline q (by simp [outline, hs]) hparent
                  exact ih q hq (by omega) (by omega)

/-- A name means in a scope what the scope binds it to, or else what it
means in the parent. -/
theorem Grounded.resolve_eq (h : env.Grounded) (i : Nat) (x : String) :
    env.resolve i x = match env.scopes[i]? with
      | none => none
      | some s =>
          match s.find? x with
          | some _ => some i
          | none => s.parent.bind fun q => env.resolve q x := by
  cases hs : env.scopes[i]? with
  | none =>
      unfold resolve
      cases env.depth with
      | zero => rfl
      | succ n =>
          unfold resolveWithin
          rw [hs]
  | some s =>
      have hi : i < env.depth := (List.getElem?_eq_some_iff.1 hs).1
      obtain ⟨n, hn⟩ : ∃ n, env.depth = n + 1 := ⟨env.depth - 1, by omega⟩
      unfold resolve
      rw [hn, resolveWithin, hs]
      simp only
      cases s.find? x with
      | some b => rfl
      | none =>
          cases hparent : s.parent with
          | none => rfl
          | some q =>
              have hq : q < i :=
                h i s.outline q (by simp [outline, hs]) hparent
              exact h.resolveWithin_stable x (by omega) (by omega)

/-- The walk does not come to a later scope than the one it starts in. -/
theorem Grounded.resolve_le (h : env.Grounded) {i owner : Nat} {x : String}
    (howner : env.resolve i x = some owner) : owner ≤ i := by
  induction i using Nat.strongRecOn with
  | ind i ih =>
      rw [h.resolve_eq] at howner
      cases hs : env.scopes[i]? with
      | none =>
          rw [hs] at howner
          cases howner
      | some s =>
          rw [hs] at howner
          simp only at howner
          cases hfind : s.find? x with
          | some b =>
              rw [hfind] at howner
              obtain rfl := Option.some.inj howner
              exact Nat.le_refl _
          | none =>
              rw [hfind] at howner
              obtain ⟨q, hparent, hq⟩ := Option.bind_eq_some_iff.1 howner
              have hlt : q < i :=
                h i s.outline q (by simp [outline, hs]) hparent
              exact Nat.le_of_lt (Nat.lt_of_le_of_lt (ih q hlt hq) hlt)

-- ============================================================= padding

/-- The environment with an empty scope below `p` put in at place `k`. -/
def padded (env : Environment) (k p : Nat) : Environment :=
  ⟨env.scopes.take k ++ ⟨[], some p⟩
    :: (env.scopes.drop k).map (·.reparent k p)⟩

/-- Opening a scope is padding at the end. -/
theorem push_eq_padded (env : Environment) (p : Nat) :
    env.push p = env.padded env.depth p := by
  unfold padded push depth
  rw [List.take_length, List.drop_length]
  rfl

theorem depth_padded (hk : k ≤ env.depth) :
    (env.padded k p).depth = env.depth + 1 := by
  unfold depth at hk
  unfold padded depth
  simp only [List.length_append, List.length_take, List.length_cons,
    List.length_map, List.length_drop]
  omega

theorem scopes_padded_low (hk : k ≤ env.depth) (hi : i < k) :
    (env.padded k p).scopes[i]? = env.scopes[i]? := by
  unfold depth at hk
  unfold padded
  rw [List.getElem?_append_left (by rw [List.length_take]; omega),
    List.getElem?_take_of_lt hi]

theorem scopes_padded_self (hk : k ≤ env.depth) :
    (env.padded k p).scopes[k]? = some ⟨[], some p⟩ := by
  unfold depth at hk
  unfold padded
  rw [List.getElem?_append_right (by rw [List.length_take]; omega),
    List.length_take, Nat.min_eq_left hk, Nat.sub_self]
  rfl

theorem scopes_padded_high (hk : k ≤ env.depth) (hi : k ≤ i) :
    (env.padded k p).scopes[i + 1]?
      = (env.scopes[i]?).map (·.reparent k p) := by
  unfold depth at hk
  unfold padded
  rw [List.getElem?_append_right (by rw [List.length_take]; omega),
    List.length_take, Nat.min_eq_left hk,
    show i + 1 - k = (i - k) + 1 by omega, List.getElem?_cons_succ,
    List.getElem?_map, List.getElem?_drop, Nat.add_sub_cancel' hi]

/-- Parents still come first when a scope is put in. -/
theorem Grounded.padded (h : env.Grounded) (hk : k ≤ env.depth) (hp : p < k) :
    (env.padded k p).Grounded := by
  intro i o parent ho hparent
  unfold outline at ho
  rw [List.getElem?_map] at ho
  obtain ⟨s, hs, rfl⟩ := Option.map_eq_some_iff.1 ho
  have hscope : s.parent = some parent := hparent
  rcases Nat.lt_trichotomy i k with hi | rfl | hi
  · rw [scopes_padded_low hk hi] at hs
    exact h i s.outline parent (by simp [outline, hs]) hscope
  · rw [scopes_padded_self hk] at hs
    obtain rfl := Option.some.inj hs
    obtain rfl := Option.some.inj hscope
    exact hp
  · obtain ⟨j, rfl⟩ : ∃ j, i = j + 1 := ⟨i - 1, by omega⟩
    rw [scopes_padded_high hk (by omega)] at hs
    obtain ⟨s', hs', rfl⟩ := Option.map_eq_some_iff.1 hs
    obtain ⟨q, hq, rfl⟩ := Option.map_eq_some_iff.1 hscope
    have hlt : q < j := h j s'.outline q (by simp [outline, hs']) hq
    unfold moved raised
    split
    · omega
    · split <;> omega

-- ============================================================= look-up

/-- Before the empty scope nothing has changed. -/
theorem resolve_padded_low (h : env.Grounded) (hk : k ≤ env.depth) (hp : p < k)
    (hi : i < k) (x : String) :
    (env.padded k p).resolve i x = env.resolve i x := by
  induction i using Nat.strongRecOn with
  | ind i ih =>
      rw [(h.padded hk hp).resolve_eq, h.resolve_eq, scopes_padded_low hk hi]
      cases hs : env.scopes[i]? with
      | none => rfl
      | some s =>
          simp only
          cases s.find? x with
          | some b => rfl
          | none =>
              cases hparent : s.parent with
              | none => rfl
              | some q =>
                  have hq : q < i :=
                    h i s.outline q (by simp [outline, hs]) hparent
                  exact ih q hq (by omega)

/-- From the empty scope on, a walk passes it without finding anything. -/
theorem resolve_padded_self (h : env.Grounded) (hk : k ≤ env.depth)
    (hp : p < k) (x : String) :
    (env.padded k p).resolve k x = (env.resolve p x).map (raised k) := by
  rw [(h.padded hk hp).resolve_eq, scopes_padded_self hk]
  show (env.padded k p).resolve p x = _
  rw [resolve_padded_low h hk hp hp]
  cases howner : env.resolve p x with
  | none => rfl
  | some owner =>
      have hle := h.resolve_le howner
      rw [Option.map_some, raised_of_lt (by omega)]

/-- A name that is looked up behind the empty scope is found where it was,
one further on. -/
theorem resolve_padded_high (h : env.Grounded) (hk : k ≤ env.depth)
    (hp : p < k) (hi : k ≤ i) (x : String) :
    (env.padded k p).resolve (i + 1) x = (env.resolve i x).map (raised k) := by
  induction i using Nat.strongRecOn with
  | ind i ih =>
      rw [(h.padded hk hp).resolve_eq, h.resolve_eq i,
        scopes_padded_high hk hi]
      cases hs : env.scopes[i]? with
      | none => rfl
      | some s =>
          have hfind : (s.reparent k p).find? x = s.find? x := rfl
          have hmoved : (s.reparent k p).parent = s.parent.map (moved k p) :=
            rfl
          simp only [Option.map_some, hfind, hmoved]
          cases s.find? x with
          | some b => rw [Option.map_some, raised_of_le hi]
          | none =>
              cases hparent : s.parent with
              | none => rfl
              | some q =>
                  have hq : q < i :=
                    h i s.outline q (by simp [outline, hs]) hparent
                  show (env.padded k p).resolve (moved k p q) x
                    = (env.resolve q x).map (raised k)
                  -- The walk goes on behind the empty scope, into it, or
                  -- before it.
                  rcases Nat.lt_or_ge q k with hlt | hge
                  · by_cases hqp : q = p
                    · subst hqp
                      rw [moved_self]
                      exact resolve_padded_self h hk hp x
                    · rw [moved_of_lt hqp hlt, resolve_padded_low h hk hp hlt]
                      cases howner : env.resolve q x with
                      | none => rfl
                      | some owner =>
                          have hle := h.resolve_le howner
                          rw [Option.map_some, raised_of_lt (by omega)]
                  · rw [moved_of_le hp hge]
                    exact ih q hq hge

/-- A name is looked up from the moved place as it was before. -/
theorem resolve_padded (h : env.Grounded) (hk : k ≤ env.depth) (hp : p < k)
    (hi : i = p ∨ k ≤ i) (x : String) :
    (env.padded k p).resolve (moved k p i) x
      = (env.resolve i x).map (raised k) := by
  rcases hi with rfl | hi
  · rw [moved_self]
    exact resolve_padded_self h hk hp x
  · rw [moved_of_le hp hi]
    exact resolve_padded_high h hk hp hi x

theorem bindingAt_padded (hk : k ≤ env.depth) (i : Nat) (x : String) :
    (env.padded k p).bindingAt (raised k i) x = env.bindingAt i x := by
  unfold bindingAt
  rcases Nat.lt_or_ge i k with hi | hi
  · rw [raised_of_lt hi, scopes_padded_low hk hi]
  · rw [raised_of_le hi, scopes_padded_high hk hi]
    cases env.scopes[i]? <;> rfl

/-- A name means at the moved place what it meant before. -/
theorem lookup_padded (h : env.Grounded) (hk : k ≤ env.depth) (hp : p < k)
    (hi : i = p ∨ k ≤ i) (x : String) :
    (env.padded k p).lookup (moved k p i) x = env.lookup i x := by
  unfold lookup
  rw [resolve_padded h hk hp hi]
  cases env.resolve i x with
  | none => rfl
  | some owner => exact bindingAt_padded hk owner x

-- ============================================================= changes

/-- Changing the variables of one scope goes along with padding. -/
theorem modify_padded {f : Scope → Scope} (hk : k ≤ env.depth)
    (hf : ∀ s : Scope, f (s.reparent k p) = (f s).reparent k p) (i : Nat) :
    (⟨(env.padded k p).scopes.modify (raised k i) f⟩ : Environment)
      = (⟨env.scopes.modify i f⟩ : Environment).padded k p := by
  have hk' : k ≤ (⟨env.scopes.modify i f⟩ : Environment).depth := by
    unfold depth
    rw [List.length_modify]
    exact hk
  refine congrArg Environment.mk ?_
  show _ = ((⟨env.scopes.modify i f⟩ : Environment).padded k p).scopes
  refine List.ext_getElem? fun j => ?_
  rw [List.getElem?_modify]
  rcases Nat.lt_trichotomy j k with hj | rfl | hj
  · have hraised : raised k i = j ↔ i = j := by
      unfold raised
      split <;> omega
    rw [scopes_padded_low hk hj, scopes_padded_low hk' hj,
      List.getElem?_modify]
    simp only [hraised]
  · have hraised : raised j i ≠ j := by
      unfold raised
      split <;> omega
    rw [scopes_padded_self hk, scopes_padded_self hk']
    simp [hraised]
  · obtain ⟨j, rfl⟩ : ∃ j', j = j' + 1 := ⟨j - 1, by omega⟩
    have hraised : raised k i = j + 1 ↔ i = j := by
      unfold raised
      split <;> omega
    rw [scopes_padded_high hk (by omega), scopes_padded_high hk' (by omega),
      List.getElem?_modify]
    simp only [hraised]
    cases env.scopes[j]? with
    | none => rfl
    | some s =>
        by_cases hij : i = j
        · simp [hij, hf]
        · simp [hij]

/-- A declaration behind the empty scope is the same declaration. -/
theorem define_padded (hk : k ≤ env.depth) (hp : p < k) (hi : k ≤ i)
    (x : String) (b : Binding) :
    (env.padded k p).define (moved k p i) x b
      = (env.define i x b).padded k p := by
  unfold define
  rw [moved_of_le hp hi, ← raised_of_le hi]
  exact modify_padded hk (fun _ => rfl) i

/-- So is an assignment, for the name is found alike. -/
theorem assign?_padded (h : env.Grounded) (hk : k ≤ env.depth) (hp : p < k)
    (hi : i = p ∨ k ≤ i) (x : String) (v : Value) :
    (env.padded k p).assign? (moved k p i) x v
      = (env.assign? i x v).map fun env' => env'.padded k p := by
  unfold assign?
  rw [resolve_padded h hk hp hi]
  cases env.resolve i x with
  | none => rfl
  | some owner => exact congrArg some (modify_padded hk (fun _ => rfl) owner)

/-- A scope is opened alike. -/
theorem push_padded (hk : k ≤ env.depth) (i : Nat) :
    (env.padded k p).push (moved k p i) = (env.push i).padded k p := by
  unfold depth at hk
  unfold push padded
  rw [List.take_append_of_le_length hk, List.drop_append_of_le_length hk,
    List.map_append]
  simp [Scope.reparent]

/-- A scope is dropped alike. -/
theorem pop_padded (hk : k ≤ env.depth) (hp : p < k) (hi : k ≤ i) :
    (env.padded k p).pop (i + 1) = (env.pop i).padded k p := by
  unfold depth at hk
  unfold pop padded
  rw [if_neg (by unfold global; omega), if_neg (by unfold global; omega)]
  refine congrArg Environment.mk ?_
  rw [List.take_append, List.length_take, Nat.min_eq_left hk, List.take_take,
    Nat.min_eq_right (by omega), show i + 1 - k = (i - k) + 1 by omega,
    List.take_succ_cons, ← List.map_take, List.take_drop,
    Nat.add_sub_cancel' hi, List.take_take, Nat.min_eq_left hi]

/-- Dropping the empty scope from the end gives the environment back. -/
theorem pop_padded_self (hp : p < env.depth) :
    (env.padded env.depth p).pop env.depth = env := by
  rw [← push_eq_padded]
  unfold pop push
  rw [if_neg (by unfold global; omega)]
  unfold depth
  rw [List.take_left]

/-- What is left when scopes are dropped is grounded as before. -/
theorem Grounded.pop (h : env.Grounded) (scope : Nat) :
    (env.pop scope).Grounded := by
  unfold Environment.pop
  split
  · exact h
  · intro i o parent ho hparent
    unfold outline at ho
    rw [List.map_take, List.getElem?_take] at ho
    split at ho
    · exact h i o parent ho hparent
    · cases ho

end Environment

end BisayaPlus
