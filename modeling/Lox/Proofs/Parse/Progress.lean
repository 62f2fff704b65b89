import Lox.Proofs.Parse.Bounds
import Lox.Proofs.Parse.Totality

/-!
# Reading goes forward and comes to an end

The parser reads any list of tokens, with an `eof` put behind it where there is none. What is left of the tokens
says at which place in that list it is. No rule goes back, a construct that was read took a token, and so did a
declaration that was given up. Hence the whole list is read, and the bound on the depth of the parser is never met.
-/

namespace Lox
namespace Parse
open Ending

/-! ## The cursor -/

/-- Where reading ends. -/
def firstEof (tokens : List Token) : Nat := (ended tokens).findIdx isEof

theorem exists_isEof_of_getLast? {tokens : List Token} (h : tokens.getLast?.any isEof = true) :
    ∃ t ∈ tokens, isEof t = true := by
  obtain ⟨t, ht, he⟩ := (Option.any_eq_true _ _).1 h
  exact ⟨t, List.mem_of_getLast? ht, he⟩

theorem firstEof_lt (tokens : List Token) : firstEof tokens < (ended tokens).length := by
  apply List.findIdx_lt_length.2
  unfold ended
  split
  case isTrue h => exact exists_isEof_of_getLast? h
  case isFalse => exact ⟨_, List.mem_append_right _ (List.mem_singleton_self _), rfl⟩

/-- The first `eof` is the one that ends the program. -/
theorem getElem?_firstEof (tokens : List Token) :
    (ended tokens)[firstEof tokens]? = some (endOf tokens) := by
  rw [firstEof, ← List.find?_eq_getElem?_findIdx]
  unfold ended endOf
  split
  case isTrue h =>
    obtain ⟨t, ht, he⟩ := exists_isEof_of_getLast? h
    cases hfind : tokens.find? isEof with
    | some u => rfl
    | none => exact absurd he (List.find?_eq_none.1 hfind t ht)
  case isFalse =>
    rw [List.find?_append]
    cases tokens.find? isEof <;> rfl

theorem take_firstEof (tokens : List Token) :
    (ended tokens).take (firstEof tokens) = tokens.takeWhile (!isEof ·) := by
  have h := @List.takeWhile_eq_take_findIdx_not _ (ended tokens) (!isEof ·)
  simp only [Bool.not_not] at h
  rw [firstEof, ← h]
  unfold ended
  split
  case isTrue => rfl
  case isFalse =>
    rw [List.takeWhile_append]
    split
    case isTrue hall =>
      rw [(List.takeWhile_prefix _).eq_of_length hall]
      exact List.append_nil _
    case isFalse => rfl

/-- The cursor stands at position `i`, not past the first `eof`. -/
structure State.At (tokens : List Token) (i : Nat) (s : State) : Prop where
  le : i ≤ firstEof tokens
  rest : s.rest = ((ended tokens).take (firstEof tokens)).drop i
  eof : (ended tokens)[firstEof tokens]? = some s.eof

variable {tokens : List Token} {i : Nat} {s s' : State}

theorem start_at (tokens : List Token) (nextId : Nat) : (start tokens nextId).At tokens 0 where
  le := Nat.zero_le _
  rest := (take_firstEof tokens).symm
  eof := getElem?_firstEof tokens

namespace State.At

theorem length_rest (h : s.At tokens i) : i + s.rest.length = firstEof tokens := by
  have hlt := firstEof_lt tokens
  have hle := h.le
  rw [h.rest, List.length_drop, List.length_take]
  omega

theorem unique {j : Nat} (h : s.At tokens i) (h' : s.At tokens j) : i = j := by
  have hi := h.length_rest
  have hj := h'.length_rest
  omega

theorem length_rest_le (h : s.At tokens i) : s.rest.length ≤ tokens.length := by
  rw [h.rest, take_firstEof]
  exact (List.drop_suffix _ _).length_le.trans (List.takeWhile_prefix _).length_le

theorem ends (h : s.At tokens i) : s.Ends := by
  have heof : endOf tokens = s.eof := Option.some.inj ((getElem?_firstEof tokens).symm.trans h.eof)
  rw [State.Ends, ← heof]
  exact start_ends tokens 0

/-- The token that is looked at is the one under the cursor. -/
theorem looks_at (h : s.At tokens i) : (ended tokens)[i]? = some (s.rest.headD s.eof) := by
  cases hrest : s.rest with
  | nil =>
    have hlen := h.length_rest
    rw [hrest, List.length_nil, Nat.add_zero] at hlen
    rw [hlen, h.eof]
    rfl
  | cons t rest =>
    have hlt : i < firstEof tokens := by
      have hlen := h.length_rest
      rw [hrest, List.length_cons] at hlen
      omega
    have hhead : ((ended tokens).take (firstEof tokens))[i]? = some t := by
      rw [← List.head?_drop, ← h.rest, hrest]
      rfl
    rwa [List.getElem?_take_of_lt hlt] at hhead

/-- The cursor is at an `eof` just when no token is left before it. -/
theorem isEof_headD (h : s.At tokens i) : isEof (s.rest.headD s.eof) = s.rest.isEmpty := by
  cases hrest : s.rest with
  | nil =>
    rw [List.headD_nil, isEof, h.ends]
    rfl
  | cons t rest =>
    have hmem : t ∈ tokens.takeWhile (!isEof ·) := by
      apply List.mem_of_mem_drop (i := i)
      rw [← take_firstEof, ← h.rest, hrest]
      exact List.mem_cons_self
    simpa using List.mem_takeWhile_imp hmem

/-- A token that is read is behind the cursor. -/
theorem next (h : s.At tokens i) {t : Token} {rest : List Token} (hrest : s.rest = t :: rest) :
    { s with rest := rest }.At tokens (i + 1) where
  le := by
    have hlen := h.length_rest
    rw [hrest, List.length_cons] at hlen
    omega
  rest := by rw [← List.tail_drop, ← h.rest, hrest, List.tail_cons]
  eof := h.eof

/-- Going forward in the tokens moves the cursor forward. -/
theorem later (h : s.At tokens i) (hl : Later s s') :
    ∃ j, i ≤ j ∧ s'.At tokens j ∧ j + s'.rest.length = i + s.rest.length := by
  have hlen := h.length_rest
  have hle := hl.rest.length_le
  refine ⟨firstEof tokens - s'.rest.length, by omega, ⟨Nat.sub_le _ _, ?_, hl.eof ▸ h.eof⟩, by omega⟩
  have hsuffix : s'.rest <:+ (ended tokens).take (firstEof tokens) := by
    apply hl.rest.trans
    rw [h.rest]
    exact List.drop_suffix _ _
  rw [List.suffix_iff_eq_drop.1 hsuffix, List.length_drop, List.length_take]
  have hlt := firstEof_lt tokens
  congr 1
  omega

end State.At

/-! ## The rules -/

/-- Where there may be no token left, a declaration that is given up need not read one. -/
theorem Settles.recovering {α : Type} {r k : Nat} {p : Parse α} (hg : Grows p) (hp : Settles r k p) :
    Settles r 0 (recovering p) := by
  intro s he hr
  have h := hp s he hr
  have hlater := hg s
  rw [recovering_apply]
  cases hs : p s with
  | ok a s' =>
    rw [hs] at h
    exact h.loose
  | error e s' =>
    rw [hs] at h hlater
    cases e with
    | exhausted => exact h
    | reject e =>
      exact ⟨(Grows.skipFault_suffix _).length_le.trans hlater.rest.length_le, hlater.eof⟩

theorem Settles.declaration {n r : Nat} (h : 32 * r + 18 ≤ n) : Settles r 0 (declaration n) := by
  cases n with
  | zero => omega
  | succ n => exact .recovering Grows.declaration_body ((statementsSettle n).declaration_body h)

theorem Settles.program {n r : Nat} (h : 32 * r + 19 ≤ n) : Settles r 0 (program n) := by
  induction n generalizing r with
  | zero => omega
  | succ n ih =>
    refine .atEnd_bind (.pure _) (SettlesIf.loose (k := 1) ?_)
    refine .bind ((statementsSettle n).declaration r (by omega)) fun hr o => ?_
    cases o with
    | none => exact ih (by omega)
    | some first => exact .before (ih (by omega)) fun _ => .pure _

namespace Goal

/-- The rules that read a construct of the language. The others read what may be missing, or go on until
there is no more of it; a declaration may also be given up. -/
def isConstruct : Goal → Bool
  | operationRest _ _ | suffixes _ | expressionUnless _ | declaration | methods | program => false
  | _ => true

/-- With the bound that `depth` gives, no rule is cut off. -/
theorem settles {n r : Nat} (h : 32 * r + 32 ≤ n) (goal : Goal) :
    Settles r goal.isConstruct.toNat (goal.read n : Parse goal.Tree) := by
  have he := expressionsSettle n
  have hs := statementsSettle n
  cases goal with
  | token kind what => exact .expect kind what
  | expression => exact he.expression r (by omega)
  | operation level => exact he.operation r level (by have := level.cost_bounds; omega)
  | operand level => exact he.operand r level (by have := level.cost_bounds; omega)
  | operationRest level left => exact he.operationRest r level left (by omega)
  | unary => exact he.unary r (by omega)
  | suffixed => exact he.suffixed r (by omega)
  | suffixes e => exact he.suffixes r e (by omega)
  | arguments count => exact he.arguments r count (by omega)
  | primary => exact he.primary r (by omega)
  | expressionUnless kind => exact .expressionUnless kind (by omega)
  | varDeclaration => exact .varDeclaration (by omega)
  | expressionStatement => exact .expressionStatement (by omega)
  | parameters count => exact .parameters count (by omega)
  | declaration => exact .declaration (by omega)
  | classDeclaration => exact hs.classDeclaration r (by omega)
  | methods => exact hs.methods r (by omega)
  | routine kind => exact hs.routine r kind (by omega)
  | block => exact hs.block r (by omega)
  | statement => exact hs.statement r (by omega)
  | forStatement => exact hs.forStatement r (by omega)
  | ifStatement => exact hs.ifStatement r (by omega)
  | program => exact .program (by omega)

end Goal

/-! ## What a rule does at a cursor -/

theorem Settled.ne_exhausted {α : Type} {k : Nat} {p : Parse α} (h : Settled s k (p s)) :
    p s ≠ .error .exhausted s' := by
  intro hp
  rw [hp] at h
  exact h

namespace Goal

variable {n : Nat}

theorem ne_exhausted (goal : Goal) (h : s.At tokens i) (hn : depth tokens.length ≤ n) :
    goal.read n s ≠ .error .exhausted s' := by
  have hlen := h.length_rest_le
  have hr : 32 * s.rest.length + 32 ≤ n := by
    unfold depth at hn
    omega
  exact (goal.settles hr s h.ends (Nat.le_refl _)).ne_exhausted

/-- A construct that was read took a token, whatever the bound. -/
theorem shorter {goal : Goal} (hgoal : goal.isConstruct = true) (he : s.Ends) {a : goal.Tree}
    (h : goal.read n s = .ok a s') : s'.rest.length < s.rest.length := by
  -- a bound that is large enough for `settles` gives the same result
  have hmore := (goal.extend (Nat.le_add_right n (32 * s.rest.length + 32))).eq_ok h
  have hsettled := goal.settles (Nat.le_add_left _ n) s he (Nat.le_refl _)
  rw [hmore, hgoal] at hsettled
  exact hsettled.1

/-- No rule moves the cursor back or past the end, and a construct moves it forward. -/
theorem moves (goal : Goal) (n : Nat) (h : s.At tokens i) :
    ∃ j, i ≤ j ∧ (state (goal.read n s)).At tokens j ∧
      (goal.isConstruct = true → ∀ a s', goal.read n s = .ok a s' → i < j) := by
  obtain ⟨j, hij, hj, hlen⟩ := h.later (goal.grows n s)
  refine ⟨j, hij, hj, fun hgoal a s' ha => ?_⟩
  have hlt := shorter hgoal h.ends ha
  rw [ha, state_ok] at hlen
  omega

end Goal

theorem Settled.recovering_some {α : Type} {k : Nat} {p : Parse α} {a : α} (hp : Settled s k (p s))
    (h : recovering p s = .ok (some a) s') : s'.rest.length + k ≤ s.rest.length := by
  rw [recovering_apply] at h
  cases hs : p s with
  | ok b s₁ =>
    rw [hs] at h hp
    cases h
    exact hp.1
  | error e s₁ =>
    rw [hs] at h
    cases e <;> cases h

/-- There is nothing to declare at the end. -/
theorem goes_of_declaration {n : Nat} {stmt : Stmt} (he : s.Ends)
    (h : declaration n s = .ok (some stmt) s') : s.Goes := by
  intro hrest
  have hmore := (Goal.declaration.extend (Nat.le_add_right n 18)).eq_ok h
  have hsettled := (statementsSettle (n + 17)).declaration_body (r := 0) (by omega) s he (by simp [hrest])
  have hlen := hsettled.recovering_some hmore
  rw [hrest, List.length_nil] at hlen
  omega

/-- A declaration moves the cursor forward, whether it is read or given up. -/
theorem State.At.declaration {n : Nat} {o : Option Stmt} (h : s.At tokens i)
    (hi : i < firstEof tokens ∨ o.isSome = true) (hdecl : declaration n s = .ok o s') :
    ∃ j, i < j ∧ s'.At tokens j := by
  have hgoes : s.Goes := by
    cases hi with
    | inl hi =>
      have hlen := h.length_rest
      exact List.ne_nil_of_length_pos (by omega)
    | inr ho =>
      obtain ⟨stmt, rfl⟩ := Option.isSome_iff_exists.1 ho
      exact goes_of_declaration h.ends hdecl
  have hmore : Parse.declaration (n + (32 * s.rest.length + 18)) s = .ok o s' :=
    (Goal.declaration.extend (Nat.le_add_right n (32 * s.rest.length + 18))).eq_ok hdecl
  have hsettled := (statementsSettle _).declaration _ (Nat.le_add_left _ n) s hgoes h.ends (Nat.le_refl _)
  rw [hmore] at hsettled
  have hlater : Later s (state (Parse.declaration n s)) := Goal.grows n .declaration s
  rw [hdecl] at hlater
  obtain ⟨j, -, hj, hlen⟩ := h.later hlater
  exact ⟨j, by have := hsettled.1; rw [state_ok] at hlen; omega, hj⟩

theorem rest_program {n : Nat} {stmts : List Stmt} (h : program n s = .ok stmts s') : s'.rest = [] := by
  induction n generalizing s stmts with
  | zero => cases h
  | succ n ih =>
    rw [program, bind_ok (show atEnd s = .ok s.rest.isEmpty s from rfl)] at h
    by_cases hrest : s.rest = []
    · rw [if_pos (by simp [hrest])] at h
      obtain ⟨-, rfl⟩ := pure_eq_ok.1 h
      exact hrest
    · rw [if_neg (by simpa using hrest)] at h
      obtain ⟨o, s₁, -, h⟩ := bind_eq_ok.1 h
      cases o with
      | none => exact ih h
      | some first =>
        obtain ⟨more, s₂, hmore, h⟩ := bind_eq_ok.1 h
        obtain ⟨-, rfl⟩ := pure_eq_ok.1 h
        exact ih hmore

/-- A program is read to the first `eof`. -/
theorem State.At.program {n : Nat} {stmts : List Stmt} (h : s.At tokens i)
    (hp : program n s = .ok stmts s') : s'.At tokens (firstEof tokens) := by
  have hlater : Later s (state (Parse.program n s)) := Goal.grows n .program s
  rw [hp] at hlater
  obtain ⟨j, -, hj, -⟩ := h.later hlater
  have hlen := hj.length_rest
  rw [state_ok, rest_program hp, List.length_nil, Nat.add_zero] at hlen
  rwa [hlen] at hj

end Parse

end Lox
